import SmallLisp.Proofs.Rounding
/-!
# Sums of doubles

The sum of two finite doubles is the double nearest to their exact sum. The sum is rounded by shifting its mantissa to
the exponent of the result and keeping of what is lost whether it is less than a half, a half or more; this is rounding
to the nearest fraction, of two to the even one.
-/
namespace SmallLisp.Number

open Float.Model Float.Model.UnpackedFloat

/-! ## Mantissas -/

/-- Shifting a mantissa to the right leaves its quotient, the next binary digit and whether any digit after it counts. -/
theorem ofMantissa_shiftRight (n k : Nat) :
    ExtendedMantissa.ofMantissaAndAccuracy n .exact >>> k =
      ⟨n / 2 ^ k, 2 * n / 2 ^ k % 2 != 0, 2 * n % 2 ^ k != 0⟩ := by
  induction k with
  | zero =>
    change ExtendedMantissa.mk n false false = _
    have digit : 2 * n / 2 ^ 0 % 2 = 0 := by omega
    have rest : 2 * n % 2 ^ 0 = 0 := by omega
    rw [digit, rest, pow_zero, Nat.div_one]
    rfl
  | succ k ih =>
    change ExtendedMantissa.shiftRightOne (ExtendedMantissa.ofMantissaAndAccuracy n .exact >>> k) = _
    have quotient : n / 2 ^ k / 2 = n / 2 ^ (k + 1) := by
      rw [Nat.div_div_eq_div_mul, pow_succ]
    have digit : 2 * n / 2 ^ (k + 1) = n / 2 ^ k := by
      rw [pow_succ, mul_comm (2 ^ k), Nat.mul_div_mul_left _ _ two_pos]
    have rest : 2 * n % 2 ^ (k + 1) = 2 * n % 2 ^ k + 2 ^ k * (2 * n / 2 ^ k % 2) := by
      rw [pow_succ, Nat.mod_mul]
    have positive : 0 < 2 ^ k := Nat.two_pow_pos k
    rw [ih, ExtendedMantissa.shiftRightOne, quotient, digit, rest]
    congr 1
    rw [Bool.eq_iff_iff]
    simp only [Bool.or_eq_true, bne_iff_ne]
    constructor
    · rintro (digit | rest)
      · have : 0 < 2 ^ k * (2 * n / 2 ^ k % 2) := Nat.mul_pos positive (Nat.pos_of_ne_zero digit)
        omega
      · omega
    · intro some
      by_cases none : 2 * n / 2 ^ k % 2 = 0
      · rw [none] at some
        exact Or.inr (by omega)
      · exact Or.inl none

/-- Rounding a shifted mantissa rounds the fraction. -/
theorem roundedMantissa_shiftRight (n k : Nat) :
    (ExtendedMantissa.ofMantissaAndAccuracy n .exact >>> k).roundedMantissa = Ratio.round ⟨n, 2 ^ k⟩ := by
  have positive : 0 < 2 ^ k := Nat.two_pow_pos k
  have twice : 2 * n = 2 ^ k * (2 * (n / 2 ^ k)) + 2 * (n % 2 ^ k) := by
    have parts := Nat.div_add_mod n (2 ^ k)
    calc 2 * n = 2 * (2 ^ k * (n / 2 ^ k) + n % 2 ^ k) := by rw [parts]
      _ = _ := by ring
  have less : n % 2 ^ k < 2 ^ k := Nat.mod_lt _ positive
  rw [ofMantissa_shiftRight, Ratio.round]
  dsimp only
  generalize n / 2 ^ k = q at *
  generalize n % 2 ^ k = r at *
  by_cases high : 2 ^ k ≤ 2 * r
  · have quotient : 2 * n / 2 ^ k = 2 * q + 1 := by
      rw [twice, Nat.mul_add_div positive, Nat.div_eq_of_lt_le (k := 1) (by omega) (by omega)]
    have rest : 2 * n % 2 ^ k = 2 * r - 2 ^ k := by
      rw [twice, Nat.mul_add_mod, Nat.mod_eq_sub_mod high, Nat.mod_eq_of_lt (by omega)]
    have digit : ((2 * q + 1) % 2 != 0) = true := by
      rw [bne_iff_ne]
      omega
    rw [quotient, rest, digit]
    by_cases half : 2 * r = 2 ^ k
    · have none : (2 * r - 2 ^ k != 0) = false := by
        rw [bne_eq_false_iff_eq]
        omega
      rw [none]
      change q + q % 2 = _
      split
      · omega
      · omega
    · have some : (2 * r - 2 ^ k != 0) = true := by
        rw [bne_iff_ne]
        omega
      rw [some, if_neg (by omega)]
      rfl
  · have quotient : 2 * n / 2 ^ k = 2 * q := by
      rw [twice, Nat.mul_add_div positive, Nat.div_eq_of_lt (by omega), add_zero]
    have rest : 2 * n % 2 ^ k = 2 * r := by
      rw [twice, Nat.mul_add_mod, Nat.mod_eq_of_lt (by omega)]
    have digit : (2 * q % 2 != 0) = false := by
      rw [bne_eq_false_iff_eq]
      omega
    rw [quotient, rest, digit, if_pos (Or.inl (by omega))]
    cases 2 * r != 0 with
    | false => rfl
    | true => rfl

/-! ## Packing -/

def signOf (negative : Bool) : Sign :=
  if negative then .negative else .positive

theorem toNat_packComponents (negative : Bool) (exponent : BitVec 11) (mantissa : BitVec 52) :
    (packComponents Format.binary64 (signOf negative) exponent mantissa).toNat =
      signedBits negative (exponent.toNat * 2 ^ 52 + mantissa.toNat) := by
  have small := mantissa.isLt
  have least := exponent.isLt
  change ((signOf negative).toBitVec ++ exponent ++ mantissa).toNat = _
  rw [BitVec.toNat_append, BitVec.toNat_append, Nat.shiftLeft_eq, Nat.shiftLeft_eq, mul_comm _ (2 ^ 11),
    ← Nat.two_pow_add_eq_or_of_lt least, mul_comm _ (2 ^ 52), ← Nat.two_pow_add_eq_or_of_lt small]
  cases negative with
  | false =>
    change 2 ^ 52 * (2 ^ 11 * 0 + exponent.toNat) + mantissa.toNat = exponent.toNat * 2 ^ 52 + mantissa.toNat
    omega
  | true =>
    change 2 ^ 52 * (2 ^ 11 * 1 + exponent.toNat) + mantissa.toNat =
      exponent.toNat * 2 ^ 52 + mantissa.toNat + twoTo 63
    rw [twoTo_eq]
    omega

/-- A finite double has the bits of its mantissa and its exponent, or those of infinity when the exponent is too
large. -/
theorem toNat_pack_finite (negative : Bool) {m : Nat} {e : Int} (positive : 0 < m) (small : m < 2 ^ 53)
    (least : -1074 ≤ e) (normal : 2 ^ 52 ≤ m ∨ e = -1074) :
    (UnpackedFloat.pack Format.binary64 (.finite (signOf negative) m e positive)).toNat =
      signedBits negative (min (magnitudeBits m e) Ratio.infinityBits) := by
  rw [infinityBits_eq, UnpackedFloat.pack]
  change (if 2 ^ 11 ≤ (e + 1023 + 52).toNat + 1 then packedInfinity Format.binary64 (signOf negative)
    else if m.log2 + 1 = 53 then packComponents Format.binary64 (signOf negative)
      (BitVec.ofNat 11 (e + 1023 + 52).toNat) (BitVec.ofNat 52 m)
    else packComponents Format.binary64 (signOf negative) 0#11 (BitVec.ofNat 52 m)).toNat = _
  by_cases large : 2 ^ 11 ≤ (e + 1023 + 52).toNat + 1
  · rw [if_pos large, packedInfinity, toNat_packComponents, min_eq_right]
    · rfl
    · unfold magnitudeBits
      omega
  · rw [if_neg large]
    by_cases full : 2 ^ 52 ≤ m
    · have bits : m.log2 = 52 := (Nat.log2_eq_iff positive.ne').mpr ⟨full, small⟩
      rw [if_pos (by omega), toNat_packComponents, BitVec.toNat_ofNat, BitVec.toNat_ofNat]
      congr 1
      unfold magnitudeBits
      omega
    · have bits : m.log2 < 52 := (Nat.log2_lt positive.ne').mpr (by omega)
      have bottom : e = -1074 := normal.resolve_left full
      rw [if_neg (by omega), toNat_packComponents, BitVec.toNat_ofNat, BitVec.toNat_ofNat]
      congr 1
      unfold magnitudeBits
      omega

theorem toNat_pack_zero (negative : Bool) :
    (UnpackedFloat.pack Format.binary64 (.zero (signOf negative))).toNat = signedBits negative 0 := by
  rw [UnpackedFloat.pack, packedZero, toNat_packComponents]
  rfl

/-! ## Rounding -/

theorem targetExponent_eq (n : Nat) (e : Int) :
    Format.binary64.targetExponent (totalExponent n e) = max (n.log2 + 1 + e - 53) (-1074) :=
  rfl

theorem shiftRight_zero (m : ExtendedMantissa) : m >>> (0 : Nat) = m := rfl

/-- What is rounded to a mantissa of at most 53 bits is settled by the second shift: only a mantissa that has grown to
the next power of two is shifted. -/
theorem settled {R : Nat} {K : Int} (h : R ≤ 2 ^ 53) (least : -1074 ≤ K) :
    shiftToTargetExponent Format.binary64 R K .exact =
      if R = 2 ^ 53 then (⟨2 ^ 52, false, false⟩, K + 1) else (⟨R, false, false⟩, K) := by
  rw [shiftToTargetExponent, targetExponent_eq, shiftToExponent]
  split
  · rename_i full
    have log : R.log2 = 53 := by
      rw [full, Nat.log2_two_pow]
    have once : (max ((R.log2 : Int) + 1 + K - 53) (-1074) - K).toNat = 1 := by
      rw [log]
      omega
    rw [once, full]
    rfl
  · rename_i other
    have log : (R.log2 : Int) < 53 := by
      by_cases zero : R = 0
      · rw [zero, Nat.log2_zero]
        decide
      · exact_mod_cast (Nat.log2_lt zero).mpr (by omega)
    have none : (max ((R.log2 : Int) + 1 + K - 53) (-1074) - K).toNat = 0 := by omega
    rw [none, shiftRight_zero, Nat.cast_zero, add_zero]
    rfl

theorem HasExponent_of_log2 {n : Nat} (positive : 0 < n) (e : Int) :
    Ratio.HasExponent (n * 2 ^ e) (n.log2 + e - 52) := by
  have two : (2 : ℚ) ≠ 0 := by norm_num
  have low : (2 : ℚ) ^ n.log2 ≤ n := by exact_mod_cast Nat.log2_self_le positive.ne'
  have high : (n : ℚ) < 2 ^ (n.log2 + 1) := by exact_mod_cast Nat.lt_log2_self
  have scaled : (n : ℚ) * 2 ^ e * 2 ^ (-((n.log2 : Int) + e - 52)) = n * 2 ^ (52 - (n.log2 : Int)) := by
    rw [mul_assoc, ← zpow_add₀ two]
    congr 2
    ring
  have shift : (0 : ℚ) < 2 ^ (52 - (n.log2 : Int)) := by positivity
  rw [Ratio.HasExponent, scaled]
  constructor
  · calc (2 : ℚ) ^ 52 = 2 ^ n.log2 * 2 ^ (52 - (n.log2 : Int)) := by
          rw [← zpow_natCast, ← zpow_natCast, ← zpow_add₀ two]
          congr 1
          push_cast
          ring
      _ ≤ n * 2 ^ (52 - (n.log2 : Int)) := mul_le_mul_of_nonneg_right low shift.le
  · calc (n : ℚ) * 2 ^ (52 - (n.log2 : Int)) < 2 ^ (n.log2 + 1) * 2 ^ (52 - (n.log2 : Int)) :=
          mul_lt_mul_of_pos_right high shift
      _ = 2 ^ 53 := by
          rw [← zpow_natCast, ← zpow_natCast, ← zpow_add₀ two]
          congr 1
          push_cast
          ring

theorem Ratio.HasExponent.unique {x : ℚ} {k k' : Int} (h : HasExponent x k) (h' : HasExponent x k') : k = k' := by
  wlog less : k < k' generalizing k k'
  · rcases lt_or_eq_of_le (not_lt.mp less) with more | same
    · exact (this h' h more).symm
    · exact same.symm
  have nonneg : 0 ≤ x * 2 ^ (-k') := le_trans (by norm_num) h'.1
  have shifted : x * 2 ^ (-k) = x * 2 ^ (-k') * 2 ^ (k' - k) := by
    rw [mul_assoc, ← zpow_add₀ (by norm_num)]
    congr 2
    ring
  have twice : (2 : ℚ) ^ (1 : Int) ≤ 2 ^ (k' - k) := zpow_le_zpow_right₀ (by norm_num) (by omega)
  have grown : x * 2 ^ (-k') * 2 ^ (1 : Int) ≤ x * 2 ^ (-k) := by
    rw [shifted]
    exact mul_le_mul_of_nonneg_left twice nonneg
  rw [zpow_one] at grown
  linarith [h.2, h'.1]

/-- The mantissa of the nearest double before it is settled: it may have grown to the next power of two. -/
theorem Ratio.nearestBits_mantissa {r : Ratio} (den : 0 < r.den) {k : Int} (h : HasExponent r.value k) :
    ∃ R, IsNearest (r.value * 2 ^ (-max k (-1074))) R ∧ R ≤ 2 ^ 53 ∧ (2 ^ 52 ≤ R ∨ max k (-1074) = -1074) ∧
      r.nearestBits = magnitudeBits R (max k (-1074)) := by
  have some : r.num ≠ 0 := by
    intro none
    have low := h.1
    rw [value, none, Nat.cast_zero, zero_div, zero_mul] at low
    norm_num at low
  obtain ⟨k', exponent, bits⟩ := nearestBits_eq den some
  obtain rfl := exponent.unique h
  have nearest := round_isNearest (den_scale den (-max k' (-1074)))
  rw [value_scale] at nearest
  refine ⟨_, nearest, ?_, ?_, bits⟩
  · have shift : (2 : ℚ) ^ (-max k' (-1074)) ≤ 2 ^ (-k') := zpow_le_zpow_right₀ (by norm_num) (by omega)
    have nonneg : 0 ≤ r.value := by
      unfold value
      positivity
    have below := mul_le_mul_of_nonneg_left shift nonneg
    have bound : (((r.scale (-max k' (-1074))).round : Nat) : ℚ) < 2 ^ 53 + 1 := by
      linarith [nearest.above, h.2]
    have : (r.scale (-max k' (-1074))).round < 2 ^ 53 + 1 := by exact_mod_cast bound
    omega
  · by_cases bottom : k' ≤ -1074
    · exact Or.inr (by omega)
    · have same : max k' (-1074) = k' := by omega
      rw [same] at nearest ⊢
      refine Or.inl ?_
      have bound : (2 : ℚ) ^ 52 < (((r.scale (-k')).round : Nat) : ℚ) + 1 := by
        linarith [nearest.below, h.1]
      have : 2 ^ 52 < (r.scale (-k')).round + 1 := by exact_mod_cast bound
      omega

theorem log2_mul_two_pow {a : Nat} (positive : 0 < a) (j : Nat) : (a * 2 ^ j).log2 = a.log2 + j := by
  rw [Nat.log2_eq_iff (Nat.mul_pos positive (Nat.two_pow_pos j)).ne']
  have low := Nat.mul_le_mul_right (2 ^ j) (Nat.log2_self_le positive.ne')
  have high := Nat.mul_lt_mul_of_pos_right (Nat.lt_log2_self (n := a)) (Nat.two_pow_pos j)
  rw [← pow_add] at low high
  exact ⟨low, by rwa [show a.log2 + j + 1 = a.log2 + 1 + j by omega]⟩

/-- The mantissa is shifted to the last place, to the left or to the right, and then rounded. -/
theorem round_shiftLeft {n R : Nat} {e K : Int} {r : Ratio} (value : r.value = n * 2 ^ e)
    (nearest : IsNearest (r.value * 2 ^ (-K)) R) : Ratio.round ⟨n <<< (e - K).toNat, 2 ^ (K - e).toNat⟩ = R := by
  refine (Ratio.round_isNearest (Nat.two_pow_pos _)).unique ?_
  have same : Ratio.value ⟨n <<< (e - K).toNat, 2 ^ (K - e).toNat⟩ = r.value * 2 ^ (-K) := by
    rw [Ratio.value, value, Nat.shiftLeft_eq]
    push_cast
    rw [mul_assoc, ← zpow_add₀ (by norm_num), mul_div_assoc, ← zpow_natCast, ← zpow_natCast,
      ← zpow_sub₀ (by norm_num)]
    congr 2
    omega
  rw [same]
  exact nearest

/-- Rounding gives the nearest double, and infinity beyond the largest. -/
theorem toNat_pack_round (negative : Bool) {n : Nat} (positive : 0 < n) (e : Int) {r : Ratio} (den : 0 < r.den)
    (value : r.value = n * 2 ^ e) :
    (UnpackedFloat.pack Format.binary64 (UnpackedFloat.round Format.binary64 (signOf negative) n e)).toNat =
      signedBits negative (min r.nearestBits Ratio.infinityBits) := by
  have exponent : Ratio.HasExponent r.value (n.log2 + e - 52) := value ▸ HasExponent_of_log2 positive e
  obtain ⟨R, nearest, small, normal, bits⟩ := Ratio.nearestBits_mantissa den exponent
  have target : max ((n.log2 : Int) + 1 + e - 53) (-1074) = max (n.log2 + e - 52) (-1074) := by
    congr 1
    ring
  have least : -1074 ≤ max ((n.log2 : Int) + e - 52) (-1074) := le_max_right _ _
  generalize max ((n.log2 : Int) + e - 52) (-1074) = K at *
  have log : (n <<< (e - K).toNat).log2 = n.log2 + (e - K).toNat := by
    rw [Nat.shiftLeft_eq, log2_mul_two_pow positive]
  have again : max (((n <<< (e - K).toNat).log2 : Int) + 1 + (e - (e - K).toNat) - 53) (-1074) = K := by
    rw [log, ← target]
    congr 1
    push_cast
    ring
  have amount : (K - (e - ((e - K).toNat : Int))).toNat = (K - e).toNat := by omega
  have ended : e - ((e - K).toNat : Int) + ((K - e).toNat : Int) = K := by omega
  have rounded := round_shiftLeft value nearest
  have first : shiftToTargetExponent Format.binary64 (n <<< (e - K).toNat) (e - (e - K).toNat) .exact =
      (ExtendedMantissa.ofMantissaAndAccuracy (n <<< (e - K).toNat) .exact >>> (K - e).toNat, K) := by
    rw [shiftToTargetExponent, targetExponent_eq, again, shiftToExponent, amount, ended]
  rw [UnpackedFloat.round, targetExponent_eq, target, decreaseExponent]
  dsimp only
  rw [roundWithAccuracy, first]
  dsimp only
  rw [roundedMantissa_shiftRight, rounded, settled small least, bits]
  by_cases full : R = 2 ^ 53
  · have grown : magnitudeBits (2 ^ 52) (K + 1) = magnitudeBits R K := by
      unfold magnitudeBits
      omega
    have positive : 0 < 2 ^ 52 := by norm_num
    have packed := toNat_pack_finite negative positive (by norm_num) (e := K + 1) (by omega) (Or.inl le_rfl)
    rw [grown] at packed
    simp only [if_pos full]
    rw [dif_neg positive.ne']
    exact packed
  · simp only [if_neg full]
    by_cases zero : R = 0
    · have bottom : K = -1074 := normal.resolve_left (by omega)
      have none : magnitudeBits 0 (-1074) = 0 := by
        unfold magnitudeBits
        omega
      rw [dif_pos zero, toNat_pack_zero, zero, bottom, none, Nat.zero_min]
    · rw [dif_neg zero, toNat_pack_finite negative (Nat.pos_of_ne_zero zero) (by omega) least normal]

/-! ## Overflow -/

/-- The nearest double is beyond the largest from half a place above the largest on. -/
theorem infinityBits_le_nearestBits {r : Ratio} (den : 0 < r.den) :
    Ratio.infinityBits ≤ r.nearestBits ↔ (2 ^ 54 - 1) * 2 ^ 970 ≤ r.value := by
  have unit : (0 : ℚ) < 2 ^ (970 : Int) := by positivity
  rw [infinityBits_eq, ← zpow_ofNat (2 : ℚ) 970]
  by_cases zero : r.num = 0
  · have none : r.value = 0 := by
      rw [Ratio.value, zero, Nat.cast_zero, zero_div]
    rw [Ratio.nearestBits, if_pos zero, none]
    refine iff_of_false (by omega) (not_le.mpr (mul_pos (by norm_num) unit))
  obtain ⟨k, exponent, -⟩ := Ratio.nearestBits_eq den zero
  obtain ⟨R, nearest, small, normal, bits⟩ := Ratio.nearestBits_mantissa den exponent
  have shifted : r.value = r.value * 2 ^ (-k) * 2 ^ (k - 970) * 2 ^ (970 : Int) := by
    rw [mul_assoc, mul_assoc, ← zpow_add₀ (by norm_num), ← zpow_add₀ (by norm_num)]
    norm_num
  obtain ⟨low, high⟩ := exponent
  rw [bits, magnitudeBits, shifted, mul_le_mul_iff_left₀ unit]
  rcases lt_trichotomy k 971 with less | rfl | more
  · have shift : (2 : ℚ) ^ (k - 970) ≤ 1 := zpow_le_one_of_nonpos₀ (by norm_num) (by omega)
    have nonneg : 0 ≤ r.value * 2 ^ (-k) := le_trans (by norm_num) low
    refine iff_of_false ?_ (not_le.mpr ?_)
    · omega
    · calc r.value * 2 ^ (-k) * 2 ^ (k - 970) ≤ r.value * 2 ^ (-k) * 1 := mul_le_mul_of_nonneg_left shift nonneg
        _ < 2 ^ 54 - 1 := by linarith
  · have top : max (971 : Int) (-1074) = 971 := rfl
    rw [top] at nearest
    rw [top, show (971 : Int) - 970 = 1 from rfl, zpow_one]
    generalize r.value * 2 ^ (-971 : Int) = y at *
    constructor
    · intro beyond
      have full : R = 2 ^ 53 := by omega
      have above := nearest.above
      rw [full] at above
      push_cast at above
      linarith
    · intro half
      by_contra within
      have last : R = 2 ^ 53 - 1 := by
        have bound : (2 : ℚ) ^ 53 - 1 ≤ R := by linarith [nearest.below]
        have : 2 ^ 53 ≤ R + 1 := by exact_mod_cast (show (2 : ℚ) ^ 53 ≤ R + 1 by linarith)
        omega
      have cast : (R : ℚ) = 2 ^ 53 - 1 := by
        rw [last]
        norm_num
      have even := nearest.even (Or.inr (by linarith [nearest.below]))
      omega
  · have shift : (4 : ℚ) ≤ 2 ^ (k - 970) := by
      calc (4 : ℚ) = 2 ^ (2 : Int) := by norm_num
        _ ≤ 2 ^ (k - 970) := zpow_le_zpow_right₀ (by norm_num) (by omega)
    refine iff_of_true ?_ ?_
    · omega
    · calc (2 : ℚ) ^ 54 - 1 ≤ 2 ^ 52 * 4 := by norm_num
        _ ≤ r.value * 2 ^ (-k) * 2 ^ (k - 970) := mul_le_mul low shift (by norm_num) (by linarith)

/-- An integer that has no nearest double. -/
def IsTooLarge (n : Int) : Prop :=
  (2 ^ 54 - 1) * 2 ^ 970 ≤ n.natAbs

theorem bound_le_iff (n : Nat) : (2 ^ 54 - 1) * 2 ^ 970 ≤ (n : ℚ) ↔ (2 ^ 54 - 1) * 2 ^ 970 ≤ n := by
  have bound : (((2 ^ 54 - 1) * 2 ^ 970 : Nat) : ℚ) = (2 ^ 54 - 1) * 2 ^ 970 := by
    rw [Nat.cast_mul, Nat.cast_pow]
    norm_num only
  rw [← bound, Nat.cast_le]

theorem floatOfInt?_eq_none_iff {n : Int} : floatOfInt? n = none ↔ IsTooLarge n := by
  have value : Ratio.value ⟨n.natAbs, 1⟩ = n.natAbs := by
    rw [Ratio.value, Nat.cast_one, div_one]
  rw [IsTooLarge, ← bound_le_iff, ← value, ← infinityBits_le_nearestBits Nat.one_pos, floatOfInt?, Ratio.toFloat?]
  split
  · rename_i beyond
    exact iff_of_true rfl beyond
  · rename_i within
    exact iff_of_false nofun within

/-! ## Sums -/

/-- The number that a finite double is. -/
def finiteValue (negative : Bool) (m : Nat) (e : Int) : ℚ :=
  (if negative then -(m : ℚ) else m) * 2 ^ e

theorem toNat_unpackSign (b : BitVec Format.binary64.numBits) : (unpackSign b).toNat = b.toNat / 2 ^ 63 % 2 := by
  simp [unpackSign, BitVec.extractLsb, Nat.shiftRight_eq_div_pow]

theorem ofBitVec_unpackSign {b : BitVec Format.binary64.numBits} {s : Bool} {bits : Nat}
    (word : b.toNat = signedBits s bits) (small : bits < Ratio.infinityBits) :
    Sign.ofBitVec (unpackSign b) = signOf s := by
  have field := toNat_unpackSign b
  rw [infinityBits_eq] at small
  rw [word, signedBits, twoTo_eq] at field
  cases s with
  | false =>
    have zero : unpackSign b = 0#1 := by
      refine BitVec.eq_of_toNat_eq ?_
      rw [field, if_neg Bool.false_ne_true]
      change _ = 0
      omega
    rw [zero]
    rfl
  | true =>
    have one : unpackSign b = 1#1 := BitVec.eq_of_toNat_eq (by rw [field, if_pos rfl]; change _ = 1; omega)
    rw [one]
    rfl

/-- A double with a full mantissa is stored by its exponent and the mantissa without its first digit. -/
theorem unpack_of_normal {b : BitVec Format.binary64.numBits} {s : Bool} {m : Nat} {e : Int} (double : IsDouble m e)
    (full : 2 ^ 52 ≤ m) (sign : Sign.ofBitVec (unpackSign b) = signOf s)
    (biased : (unpackExponent b).toNat = (e + 1075).toNat) (fraction : (unpackMantissa b).toNat = m - 2 ^ 52)
    (positive : 0 < m) : UnpackedFloat.unpack Format.binary64 b = .finite (signOf s) m e positive := by
  obtain ⟨mantissa, least, most, -⟩ := double
  have notTop : unpackExponent b ≠ -1#11 := by
    intro top
    rw [top] at biased
    change 2047 = _ at biased
    omega
  have notBottom : unpackExponent b ≠ 0#11 := by
    intro bottom
    rw [bottom] at biased
    change 0 = _ at biased
    omega
  have whole : (1#1 ++ unpackMantissa b).toNat = m := by
    rw [BitVec.toNat_append, Nat.shiftLeft_eq, mul_comm, ← Nat.two_pow_add_eq_or_of_lt (unpackMantissa b).isLt,
      fraction]
    change 2 ^ 52 * 1 + (m - 2 ^ 52) = m
    omega
  have exponent : ((unpackExponent b).toNat : Int) - (Format.binary64.exponentBias + 52) = e := by
    rw [biased]
    change ((e + 1075).toNat : Int) - (1023 + 52) = e
    omega
  rw [UnpackedFloat.unpack, sign, if_neg notTop, if_neg notBottom]
  simp only [finite.injEq]
  exact ⟨trivial, whole, exponent⟩

/-- Any other double has the least exponent and is stored by its mantissa. -/
theorem unpack_of_subnormal {b : BitVec Format.binary64.numBits} {s : Bool} {m : Nat}
    (sign : Sign.ofBitVec (unpackSign b) = signOf s) (zero : unpackExponent b = 0#11)
    (fraction : (unpackMantissa b).toNat = m) (positive : 0 < m) :
    UnpackedFloat.unpack Format.binary64 b = .finite (signOf s) m (-1074) positive := by
  have some : unpackMantissa b ≠ 0#52 := by
    intro none
    rw [none] at fraction
    exact positive.ne' fraction.symm
  have notTop : (0#11 : BitVec 11) ≠ -1#11 := by decide
  rw [UnpackedFloat.unpack, sign, zero, if_neg notTop, if_pos rfl, dif_neg some]
  simp only [finite.injEq]
  exact ⟨trivial, fraction, rfl⟩

theorem unpack_of_word {b : BitVec Format.binary64.numBits} {s : Bool} {m : Nat} {e : Int} (double : IsDouble m e)
    (word : b.toNat = signedBits s (magnitudeBits m e)) (positive : 0 < m) :
    UnpackedFloat.unpack Format.binary64 b = .finite (signOf s) m e positive := by
  have small := magnitudeBits_lt double
  have sign := ofBitVec_unpackSign word small
  have exponentField := toNat_unpackExponent b
  have mantissaField := toNat_unpackMantissa b
  have folded : signedBits s (magnitudeBits m e) / 2 ^ 52 % 2 ^ 11 = magnitudeBits m e / 2 ^ 52 ∧
      signedBits s (magnitudeBits m e) % 2 ^ 52 = magnitudeBits m e % 2 ^ 52 := by
    rw [infinityBits_eq] at small
    unfold signedBits
    rw [twoTo_eq]
    split
    · omega
    · omega
  rw [word, folded.1] at exponentField
  rw [word, folded.2] at mantissaField
  unfold magnitudeBits at exponentField mantissaField
  obtain ⟨mantissa, least, most, normal⟩ := id double
  by_cases full : 2 ^ 52 ≤ m
  · refine unpack_of_normal double full sign ?_ ?_ positive
    · rw [exponentField]
      omega
    · rw [mantissaField]
      omega
  · obtain rfl : e = -1074 := normal.resolve_left full
    refine unpack_of_subnormal sign (BitVec.eq_of_toNat_eq ?_) ?_ positive
    · rw [exponentField]
      change _ = 0
      omega
    · rw [mantissaField]
      omega

theorem unpack_of_finite {x : Float} {s : Bool} {m : Nat} {e : Int} (h : Binary64.ofFloat x = .finite s m e)
    (positive : 0 < m) : x.toModel.unpack = .finite (signOf s) m e positive := by
  obtain ⟨double, bits⟩ := finite_of_ofBits x.toBits.toNat_lt h
  exact unpack_of_word double bits positive

/-- A mantissa at a lower exponent. -/
theorem lowered (s : Bool) (m : Nat) {e low : Int} (h : low ≤ e) :
    (((signOf s).apply (m <<< (e - low).toNat : Nat) : Int) : ℚ) * 2 ^ low = finiteValue s m e := by
  have scaled : ((m <<< (e - low).toNat : Nat) : ℚ) * 2 ^ low = m * 2 ^ e := by
    rw [Nat.shiftLeft_eq]
    push_cast
    rw [mul_assoc, ← zpow_natCast, ← zpow_add₀ (by norm_num)]
    congr 2
    omega
  unfold finiteValue
  cases s with
  | false =>
    change (((m <<< (e - low).toNat : Nat) : Int) : ℚ) * 2 ^ low = m * 2 ^ e
    rw [Int.cast_natCast, scaled]
  | true =>
    change ((-((m <<< (e - low).toNat : Nat) : Int) : Int) : ℚ) * 2 ^ low = -(m : ℚ) * 2 ^ e
    rw [Int.cast_neg, Int.cast_natCast, neg_mul, scaled, neg_mul]

/-- A whole number at an exponent is rounded to the nearest double. -/
theorem toNat_pack_normalize {n : Int} (some : n ≠ 0) (e : Int) {r : Ratio} (den : 0 < r.den)
    (value : r.value = |(n : ℚ) * 2 ^ e|) :
    (UnpackedFloat.pack Format.binary64 (normalize Format.binary64 n e .positive)).toNat =
      signedBits (n < 0) (min r.nearestBits Ratio.infinityBits) := by
  have unit : (0 : ℚ) < 2 ^ e := by positivity
  rw [abs_mul, abs_of_pos unit] at value
  rw [UnpackedFloat.normalize]
  rcases lt_or_gt_of_ne some with negative | positive
  · have order : compare n 0 = .lt := compare_lt_iff_lt.mpr negative
    have size : |(n : ℚ)| = ((-n).toNat : Nat) := by
      rw [abs_of_neg (by exact_mod_cast negative), ← Int.cast_natCast, Int.toNat_of_nonneg (by omega), Int.cast_neg]
    rw [size] at value
    rw [order, decide_eq_true negative]
    exact toNat_pack_round true (by omega) e den value
  · have order : compare n 0 = .gt := compare_gt_iff_gt.mpr positive
    have size : |(n : ℚ)| = (n.toNat : Nat) := by
      rw [abs_of_pos (by exact_mod_cast positive), ← Int.cast_natCast, Int.toNat_of_nonneg (by omega)]
    rw [size] at value
    rw [order, decide_eq_false (not_lt.mpr positive.le)]
    exact toNat_pack_round false (by omega) e den value

/-- A sum of two finite doubles other than zero is the double nearest to the exact sum. -/
theorem toBits_add {x y : Float} {s s' : Bool} {m m' : Nat} {e e' : Int} {r : Ratio}
    (hx : Binary64.ofFloat x = .finite s m e) (hy : Binary64.ofFloat y = .finite s' m' e')
    (positive : 0 < m) (positive' : 0 < m') (some : finiteValue s m e + finiteValue s' m' e' ≠ 0) (den : 0 < r.den)
    (value : r.value = |finiteValue s m e + finiteValue s' m' e'|) :
    (x + y).toBits.toNat =
      signedBits (finiteValue s m e + finiteValue s' m' e' < 0) (min r.nearestBits Ratio.infinityBits) := by
  change (UnpackedFloat.pack Format.binary64
    (UnpackedFloat.add Format.binary64 x.toModel.unpack y.toModel.unpack)).toNat = _
  rw [unpack_of_finite hx positive, unpack_of_finite hy positive']
  let low := min e e'
  let n := (signOf s).apply (m <<< (e - low).toNat : Nat) + (signOf s').apply (m' <<< (e' - low).toNat : Nat)
  change (UnpackedFloat.pack Format.binary64 (normalize Format.binary64 n low .positive)).toNat = _
  have sum : (n : ℚ) * 2 ^ low = finiteValue s m e + finiteValue s' m' e' := by
    rw [Int.cast_add, add_mul, lowered s m (min_le_left e e'), lowered s' m' (min_le_right e e')]
  have unit : (0 : ℚ) < 2 ^ low := by positivity
  have sign : finiteValue s m e + finiteValue s' m' e' < 0 ↔ n < 0 := by
    rw [← sum, ← Int.cast_lt_zero (R := ℚ)]
    exact ⟨fun negative => neg_of_mul_neg_left negative unit.le, fun negative => mul_neg_of_neg_of_pos negative unit⟩
  have whole : n ≠ 0 := by
    intro zero
    rw [← sum, zero, Int.cast_zero, zero_mul] at some
    exact some rfl
  rw [← sum] at value
  rw [toNat_pack_normalize whole low den value]
  simp only [sign]

end SmallLisp.Number
