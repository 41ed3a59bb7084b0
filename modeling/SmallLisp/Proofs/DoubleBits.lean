import Mathlib
import SmallLisp.Number.Binary64
/-!
# Doubles and their bits

A double is its bit pattern: sign, exponent and fraction. Patterns that are no number are one and the same
double, and all others are doubles of their own. So a finite double can be had back from its mantissa and
its exponent, an infinity from its sign. (`pack_unpack_of_valid` comes with no part of Mathlib, only with the whole.)
-/
namespace SmallLisp.Number

open Float.Model Float.Model.UnpackedFloat

variable (b : BitVec Format.binary64.numBits)

theorem toNat_unpackExponent : (unpackExponent b).toNat = b.toNat / 2 ^ 52 % 2 ^ 11 := by
  simp [unpackExponent, BitVec.extractLsb, Nat.shiftRight_eq_div_pow]

theorem toNat_unpackMantissa : (unpackMantissa b).toNat = b.toNat % 2 ^ 52 := by
  simp [unpackMantissa, BitVec.extractLsb, Nat.shiftRight_eq_div_pow]

theorem toBits_ofBits {bits : UInt64} (valid : Format.binary64.Valid bits.toBitVec) :
    (Float.ofBits bits).toBits = bits := by
  change UInt64.ofBitVec (UnpackedFloat.pack Format.binary64
    (UnpackedFloat.unpack Format.binary64 bits.toBitVec)) = bits
  rw [pack_unpack_of_valid valid]

theorem twoTo_eq (k : Nat) : twoTo k = 2 ^ k := Nat.one_shiftLeft k

/-- The bits of a double from those of its absolute value. -/
def signedBits (negative : Bool) (bits : Nat) : Nat :=
  if negative then bits + twoTo 63 else bits

theorem infinityBits_eq : Ratio.infinityBits = 2047 * 2 ^ 52 := rfl

/-- A pattern is the one chosen for what is no number, or none of those. -/
theorem valid_of_toNat (h : b.toNat / 2 ^ 52 % 2 ^ 11 = 2 ^ 11 - 1 → b.toNat % 2 ^ 52 = 0) :
    Format.binary64.Valid b := by
  refine ⟨fun top some => absurd (BitVec.eq_of_toNat_eq ?_) some⟩
  rw [toNat_unpackMantissa]
  refine h ?_
  rw [← toNat_unpackExponent, top]
  rfl

theorem signedBits_lt (negative : Bool) {bits : Nat} (h : bits ≤ Ratio.infinityBits) :
    signedBits negative bits < 2 ^ 64 := by
  rw [infinityBits_eq] at h
  unfold signedBits
  rw [twoTo_eq]
  split
  · omega
  · omega

/-- Up to infinity the bits that a double is made of are the bits that it has. -/
theorem toNat_toBits_ofBits (negative : Bool) {bits : Nat} (h : bits ≤ Ratio.infinityBits) :
    (Float.ofBits (.ofNat (signedBits negative bits))).toBits.toNat = signedBits negative bits := by
  have bound := signedBits_lt negative h
  have same : (UInt64.ofNat (signedBits negative bits)).toNat = signedBits negative bits := by
    rw [UInt64.toNat_ofNat', Nat.mod_eq_of_lt bound]
  rw [toBits_ofBits, same]
  apply valid_of_toNat
  change (UInt64.ofNat _).toNat / _ % _ = _ → (UInt64.ofNat _).toNat % _ = 0
  rw [same]
  rw [infinityBits_eq] at h
  unfold signedBits
  rw [twoTo_eq]
  split
  · omega
  · omega

/-- A mantissa and an exponent as finite doubles have them: all 53 bits are used unless the exponent is
the least. -/
structure IsDouble (mantissa : Nat) (exponent : Int) : Prop where
  mantissa_lt : mantissa < 2 ^ 53
  least : -1074 ≤ exponent
  most : exponent ≤ 971
  normal : 2 ^ 52 ≤ mantissa ∨ exponent = -1074

def magnitudeBits (mantissa : Nat) (exponent : Int) : Nat :=
  (exponent + 1074).toNat * 2 ^ 52 + mantissa

theorem magnitudeBits_lt {m : Nat} {e : Int} (h : IsDouble m e) :
    magnitudeBits m e < Ratio.infinityBits := by
  obtain ⟨small, least, most, _⟩ := h
  rw [infinityBits_eq]
  unfold magnitudeBits
  omega

theorem sign_eq {n : Nat} (bound : n < 2 ^ 64) :
    n = signedBits (n / twoTo 63 % 2 == 1) (n % 2 ^ 63) := by
  unfold signedBits
  rw [twoTo_eq]
  split
  · rename_i one
    rw [beq_iff_eq] at one
    omega
  · rename_i zero
    rw [beq_iff_eq] at zero
    omega

theorem finite_of_ofBits {n m : Nat} {e : Int} {s : Bool} (bound : n < 2 ^ 64)
    (h : Binary64.ofBits n = .finite s m e) :
    IsDouble m e ∧ n = signedBits s (magnitudeBits m e) := by
  have split63 := sign_eq bound
  unfold Binary64.ofBits at h
  simp only [twoTo_eq] at h split63
  split at h
  · split at h
    · cases h
    · cases h
  · rename_i notTop
    split at h
    · rename_i bottom
      cases h
      refine ⟨⟨by omega, by omega, by omega, Or.inr rfl⟩, split63.trans (congrArg _ ?_)⟩
      unfold magnitudeBits
      omega
    · rename_i notBottom
      cases h
      refine ⟨⟨by omega, by omega, by omega, Or.inl (by omega)⟩, split63.trans (congrArg _ ?_)⟩
      unfold magnitudeBits
      omega

theorem infinite_of_ofBits {n : Nat} {s : Bool} (bound : n < 2 ^ 64)
    (h : Binary64.ofBits n = .infinite s) : n = signedBits s Ratio.infinityBits := by
  have split63 := sign_eq bound
  unfold Binary64.ofBits at h
  simp only [twoTo_eq] at h split63
  split at h
  · split at h
    · cases h
      refine split63.trans (congrArg _ ?_)
      rw [infinityBits_eq]
      omega
    · cases h
  · split at h
    · cases h
    · cases h

theorem ofBits_eq_nan_iff {n : Nat} :
    Binary64.ofBits n = .nan ↔ n / 2 ^ 52 % 2 ^ 11 = 2 ^ 11 - 1 ∧ n % 2 ^ 52 ≠ 0 := by
  unfold Binary64.ofBits
  simp only [twoTo_eq]
  split
  · rename_i top
    split
    · rename_i none
      exact iff_of_false nofun fun both => both.2 none
    · rename_i some
      exact iff_of_true rfl ⟨top, some⟩
  · rename_i notTop
    have other : ¬ (n / 2 ^ 52 % 2 ^ 11 = 2 ^ 11 - 1 ∧ n % 2 ^ 52 ≠ 0) := fun both => notTop both.1
    split
    · exact iff_of_false nofun other
    · exact iff_of_false nofun other

theorem not_nan_of_le {bits : Nat} (s : Bool) (h : bits ≤ Ratio.infinityBits) :
    Binary64.ofBits (signedBits s bits) ≠ .nan := by
  intro nan
  obtain ⟨top, some⟩ := ofBits_eq_nan_iff.mp nan
  rw [infinityBits_eq] at h
  unfold signedBits at top some
  simp only [twoTo_eq] at top some
  split at top
  · rename_i negative
    rw [if_pos negative] at some
    omega
  · rename_i positive
    rw [if_neg positive] at some
    omega

theorem eq_ofBits_toNat (x : Float) : x = Float.ofBits (.ofNat x.toBits.toNat) := by
  rw [UInt64.ofNat_toNat, Float.ofBits_toBits]

theorem eq_of_finite {x : Float} {s : Bool} {m : Nat} {e : Int}
    (h : Binary64.ofFloat x = .finite s m e) :
    IsDouble m e ∧ x = Float.ofBits (.ofNat (signedBits s (magnitudeBits m e))) := by
  obtain ⟨double, bits⟩ := finite_of_ofBits x.toBits.toNat_lt h
  refine ⟨double, ?_⟩
  rw [← bits]
  exact eq_ofBits_toNat x

theorem eq_of_infinite {x : Float} {s : Bool} (h : Binary64.ofFloat x = .infinite s) :
    x = infinity s := by
  have bits := infinite_of_ofBits x.toBits.toNat_lt h
  have same := eq_ofBits_toNat x
  rw [bits] at same
  exact same

theorem unpack_isNaN :
    UnpackedFloat.isNaN (UnpackedFloat.unpack Format.binary64 b) = true ↔
      b.toNat / 2 ^ 52 % 2 ^ 11 = 2 ^ 11 - 1 ∧ b.toNat % 2 ^ 52 ≠ 0 := by
  rw [← toNat_unpackExponent, ← toNat_unpackMantissa]
  unfold UnpackedFloat.unpack
  dsimp only
  split
  · rename_i top
    have field : (unpackExponent b).toNat = 2 ^ 11 - 1 := by rw [top]; rfl
    split
    · rename_i none
      exact iff_of_false Bool.false_ne_true fun both => both.2 (congrArg BitVec.toNat none)
    · rename_i some
      exact iff_of_true rfl ⟨field, fun none => some (BitVec.eq_of_toNat_eq none)⟩
  · rename_i notTop
    have other : ¬ ((unpackExponent b).toNat = 2 ^ 11 - 1 ∧ (unpackMantissa b).toNat ≠ 0) :=
      fun both => notTop (BitVec.eq_of_toNat_eq both.1)
    split
    · split
      · exact iff_of_false Bool.false_ne_true other
      · exact iff_of_false Bool.false_ne_true other
    · exact iff_of_false Bool.false_ne_true other

theorem isNaN_iff {x : Float} : x.isNaN = true ↔ Binary64.ofFloat x = .nan :=
  (unpack_isNaN x.toBits.toBitVec).trans ofBits_eq_nan_iff.symm

theorem ofFloat_ofBits (s : Bool) {bits : Nat} (h : bits ≤ Ratio.infinityBits) :
    Binary64.ofFloat (Float.ofBits (.ofNat (signedBits s bits))) =
      Binary64.ofBits (signedBits s bits) := by
  unfold Binary64.ofFloat
  rw [toNat_toBits_ofBits s h]

/-- What the bits up to infinity stand for is a number. -/
theorem isNaN_ofBits (s : Bool) {bits : Nat} (h : bits ≤ Ratio.infinityBits) :
    (Float.ofBits (.ofNat (signedBits s bits))).isNaN = false := by
  rw [← Bool.not_eq_true, isNaN_iff, ofFloat_ofBits s h]
  exact not_nan_of_le s h

end SmallLisp.Number
