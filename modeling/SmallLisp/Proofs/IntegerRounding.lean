import Mathlib.Data.Rat.Floor
import SmallLisp.Proofs.FloatSums
import SmallLisp.Proofs.Outcome
/-!
# Rounding integers

The integers below, above and towards zero of an integer are the integer itself. The nearest integer is sought through
doubles: the integer is made a double, a half is added, and the integer below is taken. Each of the two steps rounds to
the nearest double. So small integers are kept, from 2 ^ 52 on the odd ones go up to the next even one, from 2 ^ 53 on
each goes to its nearest double, and beyond the largest double there is no answer.
-/
namespace SmallLisp

namespace Number

/-- A double that is nearest to a number other than zero. -/
def RoundsTo (q v : ℚ) : Prop :=
  ∃ k R, Ratio.HasExponent q k ∧ IsNearest (q * 2 ^ (-max k (-1074))) R ∧ v = R * 2 ^ max k (-1074)

/-- An integer that rounding gives for an integer. -/
inductive RoundedInt (n : Int) : Int → Prop
  | small (h : n.natAbs < 2 ^ 52) : RoundedInt n n
  | even (low : 2 ^ 52 ≤ n.natAbs) (high : n.natAbs < 2 ^ 53) : RoundedInt n (n + n % 2)
  | nearest {k R : Nat} (positive : 0 < k) (size : n.natAbs.log2 = 52 + k) (h : IsNearest (n.natAbs / 2 ^ k) R) :
    RoundedInt n (n.sign * (R * 2 ^ k : Nat))

/-! ## Nearest doubles -/

theorem RoundsTo.unique {q v v' : ℚ} (h : RoundsTo q v) (h' : RoundsTo q v') : v = v' := by
  obtain ⟨k, R, exponent, nearest, rfl⟩ := h
  obtain ⟨k', R', exponent', nearest', rfl⟩ := h'
  obtain rfl := exponent.unique exponent'
  rw [nearest.unique nearest']

/-- The bits of a finite double tell its sign from its magnitude. -/
theorem signedBits_inj {s t : Bool} {a b : Nat} (first : a < Ratio.infinityBits) (second : b < Ratio.infinityBits)
    (h : signedBits s a = signedBits t b) : s = t ∧ a = b := by
  rw [infinityBits_eq] at first second
  unfold signedBits at h
  rw [twoTo_eq] at h
  cases s with
  | false =>
    cases t with
    | false => exact ⟨rfl, h⟩
    | true =>
      simp only [if_true, Bool.false_eq_true, if_false] at h
      omega
  | true =>
    cases t with
    | false =>
      simp only [if_true, Bool.false_eq_true, if_false] at h
      omega
    | true =>
      simp only [if_true] at h
      exact ⟨rfl, by omega⟩

theorem ofBits_signedBits (s : Bool) {m : Nat} {e : Int} (double : IsDouble m e) :
    Binary64.ofBits (signedBits s (magnitudeBits m e)) = .finite s m e := by
  have small := magnitudeBits_lt double
  have bound := signedBits_lt s small.le
  cases parts : Binary64.ofBits (signedBits s (magnitudeBits m e)) with
  | nan => exact absurd parts (not_nan_of_le s small.le)
  | infinite t =>
    have bits := infinite_of_ofBits bound parts
    rw [infinityBits_eq] at small bits
    unfold signedBits at bits
    rw [twoTo_eq] at bits
    split at bits
    · split at bits
      · omega
      · omega
    · split at bits
      · omega
      · omega
  | finite t m' e' =>
    obtain ⟨double', bits⟩ := finite_of_ofBits bound parts
    obtain ⟨rfl, size⟩ := signedBits_inj small (magnitudeBits_lt double') bits
    obtain ⟨below, least, _, normal⟩ := double
    obtain ⟨below', least', _, normal'⟩ := double'
    unfold magnitudeBits at size
    have exponents : e = e' := by omega
    subst exponents
    have mantissas : m = m' := by omega
    rw [mantissas]

/-- The nearest bits are those of a finite double that is nearest, as long as they do not reach infinity. -/
theorem finite_of_nearestBits (s : Bool) {r : Ratio} (den : 0 < r.den) (some : r.value ≠ 0)
    (within : r.nearestBits < Ratio.infinityBits) :
    ∃ m e, Binary64.ofBits (signedBits s r.nearestBits) = .finite s m e ∧ IsDouble m e ∧
      RoundsTo r.value (m * 2 ^ e) := by
  have num : r.num ≠ 0 := by
    intro zero
    rw [Ratio.value, zero, Nat.cast_zero, zero_div] at some
    exact some rfl
  obtain ⟨k, exponent, -⟩ := Ratio.nearestBits_eq den num
  obtain ⟨R, nearest, small, normal, bits⟩ := Ratio.nearestBits_mantissa den exponent
  have least : -1074 ≤ max k (-1074) := le_max_right _ _
  rw [bits, infinityBits_eq] at within
  by_cases full : R = 2 ^ 53
  · have grown : magnitudeBits R (max k (-1074)) = magnitudeBits (2 ^ 52) (max k (-1074) + 1) := by
      unfold magnitudeBits
      omega
    have double : IsDouble (2 ^ 52) (max k (-1074) + 1) := by
      rw [grown] at within
      unfold magnitudeBits at within
      exact ⟨by norm_num, by omega, by omega, Or.inl le_rfl⟩
    refine ⟨2 ^ 52, max k (-1074) + 1, ?_, double, k, R, exponent, nearest, ?_⟩
    · rw [bits, grown, ofBits_signedBits s double]
    · rw [full, zpow_add_one₀ (by norm_num)]
      push_cast
      ring
  · have double : IsDouble R (max k (-1074)) := by
      unfold magnitudeBits at within
      exact ⟨by omega, least, by omega, normal⟩
    refine ⟨R, max k (-1074), ?_, double, k, R, exponent, nearest, rfl⟩
    rw [bits, ofBits_signedBits s double]

/-- The integer below a finite double. -/
theorem roundWith_fdiv {x : Float} {s : Bool} {m : Nat} {e : Int} (h : Binary64.ofFloat x = .finite s m e) :
    roundWith Int.fdiv x = .ok (.int ⌊finiteValue s m e⌋) := by
  have signed : finiteValue s m e = ((if s then -(m : Int) else m : Int) : ℚ) * 2 ^ e := by
    unfold finiteValue
    cases s with
    | false => simp
    | true => simp
  rw [roundWith, h, signed]
  dsimp only
  generalize (if s then -(m : Int) else m : Int) = n
  rw [twoTo_eq, twoTo_eq]
  split
  · rename_i nonneg
    have whole : (n : ℚ) * 2 ^ e = ((n * 2 ^ e.toNat : Int) : ℚ) := by
      push_cast
      rw [← zpow_natCast, Int.toNat_of_nonneg nonneg]
    rw [whole, Int.floor_intCast]
    push_cast
    rfl
  · rename_i negative
    have quotient : (n : ℚ) * 2 ^ e = (n : ℚ) / ((2 ^ (-e).toNat : Nat) : ℚ) := by
      push_cast
      rw [← zpow_natCast, Int.toNat_of_nonneg (by omega), zpow_neg, div_inv_eq_mul]
    rw [quotient, Rat.floor_intCast_div_natCast, Int.fdiv_eq_ediv_of_nonneg _ (Int.natCast_nonneg _)]

theorem RoundsTo.pos {q v : ℚ} (h : RoundsTo q v) (large : 1 / 2 ≤ q) : 0 < v := by
  obtain ⟨k, R, exponent, nearest, rfl⟩ := h
  have above : -1074 ≤ k := by
    by_contra below
    have shift : (2 : ℚ) ^ k ≤ 2 ^ (-55 : Int) := zpow_le_zpow_right₀ (by norm_num) (by omega)
    have bound : q * 2 ^ (-k) * 2 ^ k ≤ 2 ^ 53 * 2 ^ (-55 : Int) :=
      mul_le_mul exponent.2.le shift (by positivity) (by norm_num)
    have quarter : (2 : ℚ) ^ 53 * 2 ^ (-55 : Int) = 1 / 4 := by norm_num
    rw [scaled_back, quarter] at bound
    linarith
  rw [max_eq_left above] at nearest ⊢
  have low : (2 : ℚ) ^ 52 ≤ R + 1 / 2 := exponent.1.trans nearest.below
  have positive : (0 : ℚ) < R := by linarith
  positivity

/-! ## The sum with a half -/

/-- The signed double of an integer. -/
def signedBy (n : Int) (v : ℚ) : ℚ :=
  if n < 0 then -v else v

theorem floatOfInt?_eq_some {n : Int} (some : n ≠ 0) (within : (n.natAbs : ℚ) < (2 ^ 54 - 1) * 2 ^ 970) :
    ∃ x m e, floatOfInt? n = .some x ∧ Binary64.ofFloat x = .finite (n < 0) m e ∧ IsDouble m e ∧
      RoundsTo n.natAbs (m * 2 ^ e) := by
  have value : Ratio.value ⟨n.natAbs, 1⟩ = n.natAbs := by
    rw [Ratio.value, Nat.cast_one, div_one]
  have nonzero : Ratio.value ⟨n.natAbs, 1⟩ ≠ 0 := by
    rw [value]
    exact_mod_cast Int.natAbs_ne_zero.mpr some
  rw [← value, ← not_le, ← infinityBits_le_nearestBits Nat.one_pos, not_le] at within
  obtain ⟨m, e, parts, double, rounds⟩ := finite_of_nearestBits (n < 0) Nat.one_pos nonzero within
  rw [value] at rounds
  refine ⟨Float.ofBits (.ofNat (signedBits (n < 0) (Ratio.nearestBits ⟨n.natAbs, 1⟩))), m, e, ?_, ?_, double, rounds⟩
  · rw [floatOfInt?, Ratio.toFloat?, if_neg (not_le.mpr within), signedBits]
  · exact (ofFloat_ofBits (n < 0) within.le).trans parts

theorem half_eq : Binary64.ofFloat 0.5 = .finite false (2 ^ 52) (-53) := rfl

theorem finiteValue_half : finiteValue false (2 ^ 52) (-53) = 1 / 2 := by
  rw [finiteValue, if_neg Bool.false_ne_true]
  norm_num

theorem finiteValue_eq (n : Int) (m : Nat) (e : Int) : finiteValue (n < 0) m e = signedBy n (m * 2 ^ e) := by
  unfold finiteValue signedBy
  by_cases negative : n < 0
  · rw [decide_eq_true negative, if_pos rfl, if_pos negative, neg_mul]
  · rw [decide_eq_false negative, if_neg Bool.false_ne_true, if_neg negative]

theorem IsDouble.sum_half_lt {m : Nat} {e : Int} (double : IsDouble m e) (n : Int) :
    |signedBy n (m * 2 ^ e) + 1 / 2| < (2 ^ 54 - 1) * 2 ^ 970 := by
  have mantissa : (m : ℚ) ≤ 2 ^ 53 - 1 := by
    have : m + 1 ≤ 2 ^ 53 := double.mantissa_lt
    have : (m : ℚ) + 1 ≤ 2 ^ 53 := by exact_mod_cast this
    linarith
  have unit : (2 : ℚ) ^ e ≤ 2 ^ 970 * 2 := by
    calc (2 : ℚ) ^ e ≤ 2 ^ (971 : Int) := zpow_le_zpow_right₀ (by norm_num) double.most
      _ = 2 ^ 970 * 2 := by rw [← zpow_ofNat (2 : ℚ) 970, ← zpow_add_one₀ (by norm_num)]; rfl
  have large : (1 : ℚ) ≤ 2 ^ 970 := one_le_pow₀ (by norm_num)
  generalize (2 : ℚ) ^ 970 = u at *
  have size : (m : ℚ) * 2 ^ e ≤ (2 ^ 53 - 1) * (u * 2) := mul_le_mul mantissa unit (by positivity) (by norm_num)
  have nonneg : (0 : ℚ) ≤ m * 2 ^ e := by positivity
  unfold signedBy
  split
  · rw [abs_lt]
    constructor
    · linarith
    · linarith
  · rw [abs_lt]
    constructor
    · linarith
    · linarith

/-- Rounding an integer goes through two nearest doubles: its own, and that of the sum with a half. -/
theorem halfUp_of_roundsTo {n : Int} {v w : ℚ} (some : n ≠ 0)
    (within : (n.natAbs : ℚ) < (2 ^ 54 - 1) * 2 ^ 970) (first : RoundsTo n.natAbs v)
    (second : RoundsTo |signedBy n v + 1 / 2| w) :
    halfUp (.int n) = .ok (.int ⌊if signedBy n v + 1 / 2 < 0 then -w else w⌋) := by
  obtain ⟨x, m, e, made, parts, double, rounds⟩ := floatOfInt?_eq_some some within
  obtain rfl := first.unique rounds
  have least : (1 : ℚ) / 2 ≤ n.natAbs := by
    have : 1 ≤ n.natAbs := Nat.one_le_iff_ne_zero.mpr (Int.natAbs_ne_zero.mpr some)
    have : (1 : ℚ) ≤ n.natAbs := by exact_mod_cast this
    linarith
  have positive : 0 < m := by
    have := first.pos least
    by_contra none
    rw [Nat.eq_zero_of_not_pos none, Nat.cast_zero, zero_mul] at this
    exact lt_irrefl _ this
  have sum : finiteValue (n < 0) m e + finiteValue false (2 ^ 52) (-53) = signedBy n (m * 2 ^ e) + 1 / 2 := by
    rw [finiteValue_eq, finiteValue_half]
  have bound := double.sum_half_lt n
  generalize signedBy n (m * 2 ^ e) + 1 / 2 = q at *
  have nonzero : q ≠ 0 := by
    rintro rfl
    obtain ⟨k, R, exponent, -⟩ := second
    have low := exponent.1
    rw [abs_zero, zero_mul] at low
    norm_num at low
  let r : Ratio := ⟨|q|.num.natAbs, |q|.den⟩
  have den : 0 < r.den := |q|.den_pos
  have value : r.value = |q| := by
    have nonneg : (0 : Int) ≤ |q|.num := Rat.num_nonneg.mpr (abs_nonneg q)
    have cast : ((|q|.num.natAbs : Nat) : ℚ) = (|q|.num : Int) := by
      rw [← Int.cast_natCast, Int.natAbs_of_nonneg nonneg]
    rw [Ratio.value, cast, Rat.num_div_den]
  have finite : r.nearestBits < Ratio.infinityBits := by
    rw [← not_le, infinityBits_le_nearestBits den, value, not_le]
    exact bound
  obtain ⟨m', e', parts', -, rounds'⟩ := finite_of_nearestBits (q < 0) den (value ▸ abs_ne_zero.mpr nonzero) finite
  rw [value] at rounds'
  obtain rfl := second.unique rounds'
  have bits := toBits_add parts half_eq positive (Nat.two_pow_pos 52) (sum ▸ nonzero) den (sum ▸ value)
  simp only [sum] at bits
  rw [min_eq_left finite.le] at bits
  have ends : Binary64.ofFloat (x + 0.5) = .finite (q < 0) m' e' := by
    rw [Binary64.ofFloat, bits, parts']
  have signed : finiteValue (q < 0) m' e' = if q < 0 then -(m' * 2 ^ e' : ℚ) else m' * 2 ^ e' := by
    unfold finiteValue
    by_cases negative : q < 0
    · rw [decide_eq_true negative, if_pos rfl, if_pos negative, neg_mul]
    · rw [decide_eq_false negative, if_neg Bool.false_ne_true, if_neg negative]
  have converted : Number.toFloat (.int n) = .ok x := by
    rw [Number.toFloat, made]
  rw [halfUp, onFloat, converted]
  change roundWith Int.fdiv (x + 0.5) = _
  rw [roundWith_fdiv ends, signed]

/-! ## The three sizes of integers -/

/-- What is less than half a place from a natural number. -/
theorem isNearest_of_near {x : ℚ} {n : Nat} (near : |x - n| < 1 / 2) : IsNearest x n := by
  rw [abs_lt] at near
  refine ⟨by linarith, by linarith, ?_⟩
  rintro (half | half)
  · linarith
  · linarith

theorem isNearest_self (n : Nat) : IsNearest n n := by
  refine isNearest_of_near ?_
  rw [sub_self, abs_zero]
  norm_num

/-- Where the last place is at least the least there is, the nearest double is the nearest multiple of it. -/
theorem roundsTo_of_hasExponent {q : ℚ} {k : Int} {R : Nat} (least : -1074 ≤ k) (exponent : Ratio.HasExponent q k)
    (nearest : IsNearest (q * 2 ^ (-k)) R) : RoundsTo q (R * 2 ^ k) := by
  refine ⟨k, R, exponent, ?_, ?_⟩
  · rwa [max_eq_left least]
  · rw [max_eq_left least]

/-- A number with a mantissa of at most 53 bits is its own nearest double. -/
theorem roundsTo_self {n : Nat} {e : Int} (positive : 0 < n) (small : n < 2 ^ 53) (least : -1022 ≤ e) :
    RoundsTo (n * 2 ^ e) (n * 2 ^ e) := by
  have log : n.log2 ≤ 52 := by
    have := (Nat.log2_lt positive.ne').mpr small
    omega
  have whole : (n : ℚ) * 2 ^ e * 2 ^ (-((n.log2 : Int) + e - 52)) = (n * 2 ^ (52 - n.log2) : Nat) := by
    push_cast
    rw [mul_assoc, ← zpow_natCast, ← zpow_add₀ (by norm_num)]
    congr 2
    omega
  have same : ((n * 2 ^ (52 - n.log2) : Nat) : ℚ) * 2 ^ ((n.log2 : Int) + e - 52) = n * 2 ^ e := by
    rw [← whole, scaled_back]
  rw [← same]
  refine roundsTo_of_hasExponent (by omega) (same ▸ HasExponent_of_log2 positive e) ?_
  rw [same, whole]
  exact isNearest_self _

/-- A half beside a mantissa moves it by a quarter of a place at most; a mantissa for that place may have another
exponent. -/
theorem roundsTo_beside_of_nearest {R S k : Nat} {j : Int} {t : ℚ} (least : -1 ≤ j) (positive : 0 < k)
    (low : 2 ^ 52 ≤ (R + t / 2 ^ k) * 2 ^ (-j)) (high : (R + t / 2 ^ k) * 2 ^ (-j) < 2 ^ 53)
    (nearest : IsNearest ((R + t / 2 ^ k) * 2 ^ (-j)) S) (same : (S : ℚ) * 2 ^ j = R) :
    RoundsTo (R * 2 ^ k + t) (R * 2 ^ k) := by
  have unit : (2 : ℚ) ^ k ≠ 0 := pow_ne_zero k (by norm_num)
  have scaled : ((R : ℚ) * 2 ^ k + t) * 2 ^ (-((k : Int) + j)) = (R + t / 2 ^ k) * 2 ^ (-j) := by
    rw [neg_add, zpow_add₀ (by norm_num), zpow_neg, zpow_natCast]
    field_simp
  have value : (S : ℚ) * 2 ^ ((k : Int) + j) = R * 2 ^ k := by
    rw [← same, zpow_add₀ (by norm_num), zpow_natCast]
    ring
  rw [← scaled] at low high nearest
  have rounds := roundsTo_of_hasExponent (by omega) ⟨low, high⟩ nearest
  rwa [value] at rounds

/-- A half more or less does not lead away from a double whose last place is above the unit. -/
theorem roundsTo_beside {R k : Nat} (low : 2 ^ 52 ≤ R) (high : R ≤ 2 ^ 53) (positive : 0 < k) {t : ℚ}
    (near : |t| ≤ 1 / 2) : RoundsTo (R * 2 ^ k + t) (R * 2 ^ k) := by
  have unit : (2 : ℚ) ≤ 2 ^ k := by
    calc (2 : ℚ) = 2 ^ 1 := by norm_num
      _ ≤ 2 ^ k := pow_le_pow_right₀ (by norm_num) positive
  have low' : (2 : ℚ) ^ 52 ≤ R := by exact_mod_cast low
  have high' : (R : ℚ) ≤ 2 ^ 53 := by exact_mod_cast high
  have quarter : |t / 2 ^ k| ≤ 1 / 4 := by
    rw [abs_div, abs_of_pos (by linarith : (0 : ℚ) < 2 ^ k), div_le_iff₀ (by linarith)]
    linarith
  obtain ⟨left, right⟩ := abs_le.mp quarter
  by_cases carried : (2 : ℚ) ^ 53 ≤ R + t / 2 ^ k
  · -- the mantissa is a power of two, and the sum lies above it
    have full : R = 2 ^ 53 := by
      have : (2 : ℚ) ^ 53 < R + 1 := by linarith
      have : 2 ^ 53 < R + 1 := by exact_mod_cast this
      omega
    have cast : (R : ℚ) = 2 ^ 53 := by exact_mod_cast full
    refine roundsTo_beside_of_nearest (j := 1) (S := 2 ^ 52) (by omega) positive ?_ ?_ ?_ ?_
    · rw [zpow_neg_one]
      linarith
    · rw [zpow_neg_one]
      linarith
    · rw [zpow_neg_one]
      refine isNearest_of_near (abs_lt.mpr ⟨?_, ?_⟩)
      · push_cast
        linarith
      · push_cast
        linarith
    · rw [cast]
      norm_num
  by_cases borrowed : R + t / 2 ^ k < (2 : ℚ) ^ 52
  · -- the mantissa is a power of two, and the sum lies just below it, where doubles are closer
    have full : R = 2 ^ 52 := by
      have : (R : ℚ) < 2 ^ 52 + 1 := by linarith
      have : R < 2 ^ 52 + 1 := by exact_mod_cast this
      omega
    have cast : (R : ℚ) = 2 ^ 52 := by exact_mod_cast full
    refine roundsTo_beside_of_nearest (j := -1) (S := 2 ^ 53) (by omega) positive ?_ ?_ ?_ ?_
    · rw [neg_neg, zpow_one]
      linarith
    · rw [neg_neg, zpow_one]
      linarith
    · rw [neg_neg, zpow_one]
      refine ⟨?_, ?_, fun _ => rfl⟩
      · push_cast
        linarith
      · push_cast
        linarith
    · rw [cast]
      norm_num
  · refine roundsTo_beside_of_nearest (j := 0) (S := R) (by omega) positive ?_ ?_ ?_ ?_
    · rw [neg_zero, zpow_zero]
      linarith
    · rw [neg_zero, zpow_zero]
      linarith
    · rw [neg_zero, zpow_zero]
      refine isNearest_of_near (abs_lt.mpr ⟨?_, ?_⟩)
      · linarith
      · linarith
    · rw [zpow_zero, mul_one]

theorem signedBy_natAbs (n : Int) : signedBy n n.natAbs = n := by
  unfold signedBy
  split
  · rename_i negative
    rw [← Int.cast_natCast, Int.ofNat_natAbs_of_nonpos negative.le, Int.cast_neg, neg_neg]
  · rename_i nonneg
    rw [← Int.cast_natCast, Int.natAbs_of_nonneg (not_lt.mp nonneg)]

theorem floor_add_half (n : Int) : ⌊(n : ℚ) + 1 / 2⌋ = n := by
  rw [Int.floor_eq_iff]
  constructor
  · linarith
  · linarith

theorem lt_greatest {n : Int} (h : n.natAbs < 2 ^ 53) : (n.natAbs : ℚ) < (2 ^ 54 - 1) * 2 ^ 970 := by
  have bound : (n.natAbs : ℚ) < 2 ^ 53 := by exact_mod_cast h
  have large : (1 : ℚ) ≤ 2 ^ 970 := one_le_pow₀ (by norm_num)
  generalize (2 : ℚ) ^ 970 = u at *
  linarith

/-- An integer with at most 53 bits is a double. -/
theorem roundsTo_natAbs {n : Int} (some : n ≠ 0) (h : n.natAbs < 2 ^ 53) : RoundsTo n.natAbs n.natAbs := by
  have self := roundsTo_self (e := 0) (Int.natAbs_pos.mpr some) h (by omega)
  rwa [zpow_zero, mul_one] at self

theorem abs_add_half (n : Int) : |(n : ℚ) + 1 / 2| = (2 * n + 1).natAbs * 2 ^ (-1 : Int) := by
  have cast : ((2 * n + 1).natAbs : ℚ) = |((2 * n + 1 : Int) : ℚ)| := by
    rw [Nat.cast_natAbs, Int.cast_abs]
  rw [cast, zpow_neg_one, ← abs_of_pos (by norm_num : (0 : ℚ) < 2⁻¹), ← abs_mul]
  congr 1
  push_cast
  ring

/-- The sum with a half is exact as long as it has at most 53 bits. -/
theorem halfUp_exact {n : Int} (some : n ≠ 0) (h : n.natAbs < 2 ^ 53) (exact : (2 * n + 1).natAbs < 2 ^ 53) :
    halfUp (.int n) = .ok (.int n) := by
  have second : RoundsTo |signedBy n n.natAbs + 1 / 2| |signedBy n n.natAbs + 1 / 2| := by
    rw [signedBy_natAbs, abs_add_half]
    exact roundsTo_self (by omega) exact (by omega)
  rw [halfUp_of_roundsTo some (lt_greatest h) (roundsTo_natAbs some h) second, signedBy_natAbs]
  have value : (if (n : ℚ) + 1 / 2 < 0 then -|(n : ℚ) + 1 / 2| else |(n : ℚ) + 1 / 2|) = n + 1 / 2 := by
    split
    · rename_i negative
      rw [abs_of_neg negative, neg_neg]
    · rename_i nonneg
      exact abs_of_nonneg (not_lt.mp nonneg)
  rw [value, floor_add_half]

/-- When the double of the sum is an integer, that integer is the answer. -/
theorem halfUp_eq_int {n r : Int} {v : ℚ} (some : n ≠ 0) (within : (n.natAbs : ℚ) < (2 ^ 54 - 1) * 2 ^ 970)
    (first : RoundsTo n.natAbs v) (second : RoundsTo |signedBy n v + 1 / 2| r.natAbs)
    (sign : signedBy n v + 1 / 2 < 0 ↔ r < 0) : halfUp (.int n) = .ok (.int r) := by
  have signed : (if signedBy n v + 1 / 2 < 0 then -(r.natAbs : ℚ) else r.natAbs) = r := by
    rw [if_congr sign rfl rfl]
    exact signedBy_natAbs r
  rw [halfUp_of_roundsTo some within first second, signed, Int.floor_intCast]

/-- The sum lies halfway between two integers of 53 bits, of which the even one is taken. -/
theorem halfUp_tie {n : Int} (h : n.natAbs < 2 ^ 53) (tie : 2 ^ 53 ≤ (2 * n + 1).natAbs) :
    halfUp (.int n) = .ok (.int (n + n % 2)) := by
  have some : n ≠ 0 := by omega
  have half := abs_add_half n
  rw [zpow_neg_one] at half
  have low : (2 : ℚ) ^ 53 ≤ (2 * n + 1).natAbs := by exact_mod_cast tie
  have high : ((2 * n + 1).natAbs : ℚ) < 2 ^ 54 := by
    have : (2 * n + 1).natAbs < 2 ^ 54 := by omega
    exact_mod_cast this
  have above : ((2 * n + 1).natAbs : ℚ) ≤ 2 * (n + n % 2).natAbs + 1 := by
    have : (2 * n + 1).natAbs ≤ 2 * (n + n % 2).natAbs + 1 := by omega
    exact_mod_cast this
  have below : 2 * ((n + n % 2).natAbs : ℚ) ≤ (2 * n + 1).natAbs + 1 := by
    have : 2 * (n + n % 2).natAbs ≤ (2 * n + 1).natAbs + 1 := by omega
    exact_mod_cast this
  have even : (n + n % 2).natAbs % 2 = 0 := by omega
  have second : RoundsTo |signedBy n n.natAbs + 1 / 2| (n + n % 2).natAbs := by
    rw [signedBy_natAbs, half]
    have rounds : RoundsTo ((2 * n + 1).natAbs * 2⁻¹) ((n + n % 2).natAbs * 2 ^ (0 : Int)) := by
      refine roundsTo_of_hasExponent (by norm_num) ⟨?_, ?_⟩ ⟨?_, ?_, fun _ => even⟩
      · rw [neg_zero, zpow_zero]
        linarith
      · rw [neg_zero, zpow_zero]
        linarith
      · rw [neg_zero, zpow_zero]
        linarith
      · rw [neg_zero, zpow_zero]
        linarith
    rwa [zpow_zero, mul_one] at rounds
  refine halfUp_eq_int some (lt_greatest h) (roundsTo_natAbs some h) second ?_
  have sign : n + 1 ≤ 0 ∨ 0 ≤ n := by omega
  rw [signedBy_natAbs]
  rcases sign with negative | nonneg
  · have : (n : ℚ) + 1 ≤ 0 := by exact_mod_cast negative
    exact iff_of_true (by linarith) (by omega)
  · have : (0 : ℚ) ≤ n := by exact_mod_cast nonneg
    exact iff_of_false (by linarith) (by omega)

theorem ne_zero_of_log2 {n : Int} {k : Nat} (size : n.natAbs.log2 = 52 + k) : n ≠ 0 := by
  rintro rfl
  rw [Int.natAbs_zero, Nat.log2_zero] at size
  omega

theorem natAbs_sign_mul {n : Int} (some : n ≠ 0) (a : Nat) : (n.sign * a).natAbs = a := by
  rw [Int.natAbs_mul, Int.natAbs_sign_of_ne_zero some, one_mul, Int.natAbs_natCast]

/-- From 2 ^ 53 on an integer goes to its nearest double, and a half changes nothing. -/
theorem halfUp_nearest {n : Int} {k R : Nat} (positive : 0 < k) (size : n.natAbs.log2 = 52 + k)
    (nearest : IsNearest (n.natAbs / 2 ^ k) R) (within : (n.natAbs : ℚ) < (2 ^ 54 - 1) * 2 ^ 970) :
    halfUp (.int n) = .ok (.int (n.sign * (R * 2 ^ k : Nat))) := by
  have some := ne_zero_of_log2 size
  have exponent := HasExponent_of_log2 (Int.natAbs_pos.mpr some) 0
  have power : (n.natAbs.log2 : Int) + 0 - 52 = k := by omega
  rw [power, zpow_zero, mul_one] at exponent
  have scaled : (n.natAbs : ℚ) * 2 ^ (-(k : Int)) = n.natAbs / 2 ^ k := by
    rw [zpow_neg, zpow_natCast, div_eq_mul_inv]
  have first : RoundsTo n.natAbs (R * 2 ^ k) := by
    rw [← zpow_natCast]
    exact roundsTo_of_hasExponent (by omega) exponent (scaled ▸ nearest)
  rw [Ratio.HasExponent, scaled] at exponent
  have low : 2 ^ 52 ≤ R := by
    have : (2 : ℚ) ^ 52 < R + 1 := by linarith [nearest.below]
    have : 2 ^ 52 < R + 1 := by exact_mod_cast this
    omega
  have high : R ≤ 2 ^ 53 := by
    have : (R : ℚ) < 2 ^ 53 + 1 := by linarith [nearest.above]
    have : R < 2 ^ 53 + 1 := by exact_mod_cast this
    omega
  have large : 1 ≤ R * 2 ^ k := Nat.mul_pos (by omega) (Nat.two_pow_pos k)
  have large' : (1 : ℚ) ≤ R * 2 ^ k := by exact_mod_cast large
  have size' : ((n.sign * (R * 2 ^ k : Nat)).natAbs : ℚ) = R * 2 ^ k := by
    rw [natAbs_sign_mul some]
    push_cast
    rfl
  have kept {t : ℚ} (near : |t| ≤ 1 / 2) : RoundsTo (R * 2 ^ k + t) (n.sign * (R * 2 ^ k : Nat)).natAbs := by
    rw [size']
    exact roundsTo_beside low high positive near
  rcases lt_or_gt_of_ne some with negative | above
  · have sum : |signedBy n (R * 2 ^ k) + 1 / 2| = R * 2 ^ k + -(1 / 2) := by
      rw [signedBy, if_pos negative, abs_of_neg (by linarith)]
      ring
    refine halfUp_eq_int some within first (sum ▸ kept (by norm_num)) ?_
    rw [signedBy, if_pos negative, Int.sign_eq_neg_one_of_neg negative]
    exact iff_of_true (by linarith) (by omega)
  · have sum : |signedBy n (R * 2 ^ k) + 1 / 2| = R * 2 ^ k + 1 / 2 := by
      rw [signedBy, if_neg above.not_gt, abs_of_pos (by linarith)]
    refine halfUp_eq_int some within first (sum ▸ kept (by norm_num)) ?_
    rw [signedBy, if_neg above.not_gt, Int.sign_eq_one_of_pos above]
    exact iff_of_false (by linarith) (by omega)

theorem halfUp_eq_of_roundedInt {n r : Int} (h : RoundedInt n r) (within : (n.natAbs : ℚ) < (2 ^ 54 - 1) * 2 ^ 970) :
    halfUp (.int n) = .ok (.int r) := by
  cases h with
  | small h =>
    by_cases zero : n = 0
    · rw [zero]
      rfl
    · exact halfUp_exact zero (by omega) (by omega)
  | even low high =>
    by_cases least : (2 * n + 1).natAbs < 2 ^ 53
    · have even : n % 2 = 0 := by omega
      rw [even, add_zero]
      exact halfUp_exact (by omega) high least
    · exact halfUp_tie high (not_lt.mp least)
  | nearest positive size h => exact halfUp_nearest positive size h within

/-- Every integer is of one of the three sizes. -/
theorem exists_roundedInt (n : Int) : ∃ r, RoundedInt n r := by
  by_cases small : n.natAbs < 2 ^ 52
  · exact ⟨n, .small small⟩
  by_cases middle : n.natAbs < 2 ^ 53
  · exact ⟨_, .even (not_lt.mp small) middle⟩
  · have some : n.natAbs ≠ 0 := by omega
    have log : 53 ≤ n.natAbs.log2 := (Nat.le_log2 some).mpr (not_lt.mp middle)
    obtain ⟨k, size⟩ := Nat.exists_eq_add_of_le (show 52 ≤ n.natAbs.log2 by omega)
    have nearest := Ratio.round_isNearest (r := ⟨n.natAbs, 2 ^ k⟩) (Nat.two_pow_pos k)
    rw [Ratio.value] at nearest
    push_cast at nearest
    exact ⟨_, .nearest (by omega) size nearest⟩

/-! ## Integers that are kept -/

/-- An integer that is a double and not an odd one from 2 ^ 52 on. -/
def IsKept (n : Int) : Prop :=
  (∃ a j : Nat, a < 2 ^ 53 ∧ j ≤ 971 ∧ n.natAbs = a * 2 ^ j) ∧ (n % 2 = 0 ∨ n.natAbs < 2 ^ 52)

theorem IsKept.within {n : Int} (h : IsKept n) : (n.natAbs : ℚ) < (2 ^ 54 - 1) * 2 ^ 970 := by
  obtain ⟨⟨a, j, small, most, eq⟩, -⟩ := h
  have mantissa : (a : ℚ) ≤ 2 ^ 53 - 1 := by
    have : a + 1 ≤ 2 ^ 53 := small
    have : (a : ℚ) + 1 ≤ 2 ^ 53 := by exact_mod_cast this
    linarith
  have unit : (2 : ℚ) ^ j ≤ 2 ^ 970 * 2 := by
    rw [← pow_succ]
    exact pow_le_pow_right₀ (by norm_num) most
  have large : (1 : ℚ) ≤ 2 ^ 970 := one_le_pow₀ (by norm_num)
  rw [eq]
  push_cast
  generalize (2 : ℚ) ^ 970 = u at *
  have size : (a : ℚ) * 2 ^ j ≤ (2 ^ 53 - 1) * (u * 2) := mul_le_mul mantissa unit (by positivity) (by norm_num)
  linarith

theorem IsKept.roundedInt {n : Int} (h : IsKept n) : RoundedInt n n := by
  obtain ⟨⟨a, j, small, most, eq⟩, even⟩ := h
  by_cases below : n.natAbs < 2 ^ 52
  · exact .small below
  have even : n % 2 = 0 := even.resolve_right below
  by_cases middle : n.natAbs < 2 ^ 53
  · have kept := RoundedInt.even (not_lt.mp below) middle
    rwa [even, add_zero] at kept
  have positive : 0 < a := by
    rcases Nat.eq_zero_or_pos a with rfl | positive
    · omega
    · exact positive
  have log : a.log2 ≤ 52 := by
    have := (Nat.log2_lt positive.ne').mpr small
    omega
  have total : 53 ≤ n.natAbs.log2 := (Nat.le_log2 (by omega)).mpr (not_lt.mp middle)
  have size : n.natAbs.log2 = a.log2 + j := by
    rw [eq, log2_mul_two_pow positive]
  obtain ⟨k, power⟩ := Nat.exists_eq_add_of_le (show 52 ≤ n.natAbs.log2 by omega)
  have whole : n.natAbs = a * 2 ^ (j - k) * 2 ^ k := by
    rw [eq, mul_assoc, ← pow_add, Nat.sub_add_cancel (by omega)]
  have nearest : IsNearest ((n.natAbs : ℚ) / 2 ^ k) (a * 2 ^ (j - k)) := by
    have quotient : (n.natAbs : ℚ) / 2 ^ k = (a * 2 ^ (j - k) : Nat) := by
      rw [whole]
      push_cast
      rw [mul_div_assoc, div_self (by positivity), mul_one]
    rw [quotient]
    exact isNearest_self _
  have kept := RoundedInt.nearest (by omega) power nearest
  rw [← whole] at kept
  rwa [Int.sign_mul_natAbs] at kept

/-- The nearest mantissa and its exponent stay within those of doubles. -/
theorem IsNearest.bounds {n : Int} {k R : Nat} (nearest : IsNearest (n.natAbs / 2 ^ k) R) (positive : 0 < k)
    (size : n.natAbs.log2 = 52 + k) (within : (n.natAbs : ℚ) < (2 ^ 54 - 1) * 2 ^ 970) :
    (R ≤ 2 ^ 53 ∧ k ≤ 971) ∧ (R = 2 ^ 53 → k + 1 ≤ 971) := by
  have some : n.natAbs ≠ 0 := by
    intro none
    rw [none, Nat.log2_zero] at size
    omega
  have unit : (0 : ℚ) < 2 ^ k := by positivity
  have low : (2 : ℚ) ^ 52 * 2 ^ k ≤ n.natAbs := by
    rw [← pow_add, ← size]
    exact_mod_cast Nat.log2_self_le some
  have high : (n.natAbs : ℚ) / 2 ^ k < 2 ^ 53 := by
    rw [div_lt_iff₀ unit, ← pow_add, show 53 + k = n.natAbs.log2 + 1 by omega]
    exact_mod_cast Nat.lt_log2_self
  have large : (0 : ℚ) < 2 ^ 970 := by positivity
  have split (j : Nat) (h : 970 ≤ k) (le : j ≤ k - 970) : (2 : ℚ) ^ j * 2 ^ 970 ≤ 2 ^ k := by
    rw [← pow_add]
    exact pow_le_pow_right₀ (by norm_num) (by omega)
  have exponent : k ≤ 971 := by
    by_contra beyond
    have := split 2 (by omega) (by omega)
    generalize (2 : ℚ) ^ 970 = u at *
    linarith
  have mantissa : R ≤ 2 ^ 53 := by
    have : (R : ℚ) < 2 ^ 53 + 1 := by linarith [nearest.above]
    have : R < 2 ^ 53 + 1 := by exact_mod_cast this
    omega
  refine ⟨⟨mantissa, exponent⟩, fun full => ?_⟩
  by_contra top
  have := split 1 (by omega) (by omega)
  have above := nearest.above
  rw [full, le_div_iff₀ unit] at above
  push_cast at above
  generalize (2 : ℚ) ^ 970 = u at *
  linarith

/-- What rounding gives is kept. -/
theorem RoundedInt.isKept {n r : Int} (h : RoundedInt n r) (within : (n.natAbs : ℚ) < (2 ^ 54 - 1) * 2 ^ 970) :
    IsKept r := by
  cases h with
  | small h => exact ⟨⟨n.natAbs, 0, by omega, by omega, by rw [pow_zero, mul_one]⟩, Or.inr h⟩
  | even low high =>
    refine ⟨?_, Or.inl (by omega)⟩
    by_cases full : (n + n % 2).natAbs = 2 ^ 53
    · exact ⟨2 ^ 52, 1, by norm_num, by omega, full⟩
    · exact ⟨(n + n % 2).natAbs, 0, by omega, by omega, by rw [pow_zero, mul_one]⟩
  | @nearest k R positive size nearest =>
    have size' := natAbs_sign_mul (ne_zero_of_log2 size) (R * 2 ^ k)
    obtain ⟨⟨bound, exponent⟩, top⟩ := nearest.bounds positive size within
    have double : 2 ∣ R * 2 ^ k := Dvd.dvd.mul_left (dvd_pow_self 2 positive.ne') R
    refine ⟨?_, Or.inl (by omega)⟩
    rw [size']
    by_cases full : R = 2 ^ 53
    · refine ⟨2 ^ 52, k + 1, by norm_num, top full, ?_⟩
      rw [full, pow_succ 2 k, pow_succ 2 52]
      ring
    · exact ⟨R, k, by omega, by omega, rfl⟩

theorem lt_of_not_isTooLarge {n : Int} (h : ¬ IsTooLarge n) : (n.natAbs : ℚ) < (2 ^ 54 - 1) * 2 ^ 970 :=
  not_le.mp fun beyond => h ((bound_le_iff _).mp beyond)

end Number

namespace Elementary

open Run Number

theorem outcome_of_apply_int {f : Elementary} {n r : Int} (h : f.apply (.int n) = .ok (.int r)) (room : Nat)
    (m : Machine) : outcome ((Primitive.elementary f).run room [.int n]) m = (.ok (.int r), m) := by
  have number : ¬ (f = .sign ∧ Number.isNaN (.int n) = true) := fun both => Bool.false_ne_true both.2
  change outcome (if f = .sign ∧ Number.isNaN (.int n) = true then pure (.int n)
    else Primitive.ofMath f.name (f.apply (.int n))) m = _
  rw [if_neg number, h]
  rfl

theorem outcome_of_apply_error {f : Elementary} {n : Int} {fault : MathFault} (h : f.apply (.int n) = .error fault)
    (room : Nat) (m : Machine) : outcome ((Primitive.elementary f).run room [.int n]) m =
      (.error (.failed (.type (.math f.name fault))), m) := by
  have number : ¬ (f = .sign ∧ Number.isNaN (.int n) = true) := fun both => Bool.false_ne_true both.2
  change outcome (if f = .sign ∧ Number.isNaN (.int n) = true then pure (.int n)
    else Primitive.ofMath f.name (f.apply (.int n))) m = _
  rw [if_neg number, h]
  rfl

theorem apply_round_eq_error {n : Int} (large : IsTooLarge n) : round.apply (.int n) = .error (.overflow .integer) := by
  have unmade : Number.toFloat (.int n) = .error .integer := by
    rw [Number.toFloat, floatOfInt?_eq_none_iff.mpr large]
  rw [apply, halfUp, onFloat, unmade]

/-- The functions that make integers of numbers, at an integer. Those that go down, up and towards zero give the integer
itself. The nearest integer is given exactly by what is its own double and not an odd integer from 2 ^ 52 on; other
integers give an integer that is given back from then on, the nearest even one or that of the nearest double, and there
is none for what is at least half a place beyond the largest double. -/
theorem integers_rounded (n : Int) (room : Nat) (m : Machine) :
    (∀ f ∈ [ceil, floor, trunc], outcome ((Primitive.elementary f).run room [.int n]) m = (.ok (.int n), m)) ∧
      (IsTooLarge n → outcome ((Primitive.elementary round).run room [.int n]) m =
        (.error (.failed (.type (.math "round" (.overflow .integer)))), m)) ∧
      (¬ IsTooLarge n → ∃ r, RoundedInt n r ∧
        outcome ((Primitive.elementary round).run room [.int n]) m = (.ok (.int r), m) ∧
        outcome ((Primitive.elementary round).run room [.int r]) m = (.ok (.int r), m)) ∧
      (outcome ((Primitive.elementary round).run room [.int n]) m = (.ok (.int n), m) ↔ IsKept n) := by
  have given {k r : Int} (rounded : RoundedInt k r) (within : (k.natAbs : ℚ) < (2 ^ 54 - 1) * 2 ^ 970) :
      outcome ((Primitive.elementary round).run room [.int k]) m = (.ok (.int r), m) :=
    outcome_of_apply_int (show round.apply (.int k) = .ok (.int r) from halfUp_eq_of_roundedInt rounded within) room m
  refine ⟨fun f mem => ?_, fun large => outcome_of_apply_error (apply_round_eq_error large) room m,
    fun small => ?_, fun kept => ?_, fun kept => given kept.roundedInt kept.within⟩
  · fin_cases mem
    · exact outcome_of_apply_int rfl room m
    · exact outcome_of_apply_int rfl room m
    · exact outcome_of_apply_int rfl room m
  · have within := lt_of_not_isTooLarge small
    obtain ⟨r, rounded⟩ := exists_roundedInt n
    have kept := rounded.isKept within
    exact ⟨r, rounded, given rounded within, given kept.roundedInt kept.within⟩
  · by_cases large : IsTooLarge n
    · rw [outcome_of_apply_error (apply_round_eq_error large) room m] at kept
      cases kept
    · have within := lt_of_not_isTooLarge large
      obtain ⟨r, rounded⟩ := exists_roundedInt n
      rw [given rounded within] at kept
      cases kept
      exact rounded.isKept within

end Elementary

end SmallLisp
