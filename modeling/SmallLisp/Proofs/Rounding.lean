import SmallLisp.Proofs.DoubleBits
import SmallLisp.Number.Shortest
import Mathlib.Algebra.Order.Field.Power
import Mathlib.Algebra.Order.Field.Rat
import Mathlib.Tactic.Linarith
import Mathlib.Tactic.Positivity
import Mathlib.Tactic.FieldSimp
import Mathlib.Tactic.Ring
import Mathlib.Tactic.NormNum
/-!
# Rounding to the nearest double

A fraction is rounded to the double nearest to it, a tie going to the even mantissa. Every number in the
neighbourhood of a double rounds to that double. Just below a power of two doubles are closer together, and
the mantissa carries over.
-/
namespace SmallLisp.Number

/-- The number that a fraction is. -/
def Ratio.value (r : Ratio) : ℚ :=
  r.num / r.den

theorem tenTo_eq (k : Nat) : tenTo k = 10 ^ k := rfl

/-- The natural numbers nearest to a number, of two the even one. -/
structure IsNearest (x : ℚ) (n : Nat) : Prop where
  above : (n : ℚ) - 1 / 2 ≤ x
  below : x ≤ n + 1 / 2
  even : x = n - 1 / 2 ∨ x = n + 1 / 2 → n % 2 = 0

theorem IsNearest.unique {x : ℚ} {n n' : Nat} (h : IsNearest x n) (h' : IsNearest x n') :
    n = n' := by
  wlog less : n < n' generalizing n n'
  · rcases Nat.lt_or_ge n' n with more | le
    · exact (this h' h more).symm
    · exact Nat.le_antisymm (by omega) (by omega)
  have step : (n : ℚ) + 1 ≤ n' := by exact_mod_cast less
  have top : x = n + 1 / 2 := by linarith [h.below, h'.above]
  have next : n' = n + 1 := by
    have : (n' : ℚ) ≤ n + 1 := by linarith [h.below, h'.above]
    have : n' ≤ n + 1 := by exact_mod_cast this
    omega
  have even := h.even (Or.inr top)
  have even' := h'.even (Or.inl (by rw [top, next]; push_cast; ring))
  omega

namespace Ratio

variable {r : Ratio}

theorem den_scale (positive : 0 < r.den) (k : Int) : 0 < (r.scale k).den := by
  unfold scale
  split
  · exact positive
  · exact Nat.mul_pos positive (twoTo_pos _)

theorem value_scale (r : Ratio) (k : Int) : (r.scale k).value = r.value * 2 ^ k := by
  unfold scale value
  split
  · rename_i nonneg
    obtain ⟨n, rfl⟩ := Int.eq_ofNat_of_zero_le nonneg
    simp [twoTo_eq]
    ring
  · rename_i neg
    obtain ⟨n, rfl⟩ : ∃ n : Nat, k = -n := ⟨(-k).toNat, by omega⟩
    simp [twoTo_eq]
    ring

theorem den_ofDecimal (c : Nat) (k : Int) : 0 < (ofDecimal c k).den := by
  unfold ofDecimal
  split
  · exact Nat.one_pos
  · exact tenTo_pos _

theorem value_ofDecimal (c : Nat) (k : Int) : (ofDecimal c k).value = c * 10 ^ k := by
  unfold ofDecimal value
  split
  · rename_i nonneg
    obtain ⟨n, rfl⟩ := Int.eq_ofNat_of_zero_le nonneg
    simp [tenTo_eq]
  · rename_i neg
    obtain ⟨n, rfl⟩ : ∃ n : Nat, k = -n := ⟨(-k).toNat, by omega⟩
    simp [tenTo_eq]
    ring

theorem value_eq_quotient (positive : 0 < r.den) :
    r.value = (r.num / r.den : Nat) + (r.num % r.den : Nat) / (r.den : ℚ) := by
  have den : (r.den : ℚ) ≠ 0 := by exact_mod_cast positive.ne'
  have parts : (r.num : ℚ) = r.den * (r.num / r.den : Nat) + (r.num % r.den : Nat) := by
    exact_mod_cast (Nat.div_add_mod r.num r.den).symm
  unfold value
  rw [parts]
  field_simp

theorem round_isNearest (positive : 0 < r.den) : IsNearest r.value r.round := by
  have den : (0 : ℚ) < r.den := by exact_mod_cast positive
  have less : ((r.num % r.den : Nat) : ℚ) < r.den := by exact_mod_cast Nat.mod_lt _ positive
  have rest : (0 : ℚ) ≤ (r.num % r.den : Nat) / (r.den : ℚ) := by positivity
  have lt_one : ((r.num % r.den : Nat) : ℚ) / r.den < 1 := (div_lt_one den).mpr less
  have half : (r.num % r.den : Nat) / (r.den : ℚ) = 1 / 2 ↔ 2 * (r.num % r.den) = r.den := by
    rw [div_eq_div_iff den.ne' (by norm_num), mul_comm, one_mul]
    exact_mod_cast Iff.rfl
  have below : (r.num % r.den : Nat) / (r.den : ℚ) < 1 / 2 ↔ 2 * (r.num % r.den) < r.den := by
    rw [div_lt_div_iff₀ den (by norm_num), mul_comm, one_mul]
    exact_mod_cast Iff.rfl
  rw [value_eq_quotient positive]
  unfold round
  dsimp only
  split
  · rename_i down
    have le : (r.num % r.den : Nat) / (r.den : ℚ) ≤ 1 / 2 := by
      rcases down with lt | ⟨eq, _⟩
      · exact (below.mpr lt).le
      · exact (half.mpr eq).le
    refine ⟨by linarith, by linarith, ?_⟩
    rintro (top | top)
    · linarith
    · rcases down with lt | ⟨_, even⟩
      · have := below.mpr lt
        linarith
      · exact even
  · rename_i up
    have ge : 1 / 2 ≤ (r.num % r.den : Nat) / (r.den : ℚ) := by
      rw [← not_lt, below]
      exact fun lt => up (Or.inl lt)
    refine ⟨by push_cast; linarith, by push_cast; linarith, ?_⟩
    push_cast
    rintro (bottom | top)
    · have eq : 2 * (r.num % r.den) = r.den := half.mp (by linarith)
      have odd : r.num / r.den % 2 ≠ 0 := fun even => up (Or.inr ⟨eq, even⟩)
      omega
    · linarith

/-- The exponent with which a number has a mantissa of 53 bits. -/
def HasExponent (x : ℚ) (k : Int) : Prop :=
  2 ^ 52 ≤ x * 2 ^ (-k) ∧ x * 2 ^ (-k) < 2 ^ 53

theorem value_log2 (positive : 0 < r.den) (some : r.num ≠ 0) :
    (2 : ℚ) ^ ((r.num.log2 : Int) - r.den.log2 - 1) < r.value ∧
      r.value < 2 ^ ((r.num.log2 : Int) - r.den.log2 + 1) := by
  have den : (0 : ℚ) < r.den := by exact_mod_cast positive
  have numLow : (2 : ℚ) ^ r.num.log2 ≤ r.num := by exact_mod_cast Nat.log2_self_le some
  have numHigh : (r.num : ℚ) < 2 ^ (r.num.log2 + 1) := by exact_mod_cast Nat.lt_log2_self
  have denLow : (2 : ℚ) ^ r.den.log2 ≤ r.den := by exact_mod_cast Nat.log2_self_le positive.ne'
  have denHigh : (r.den : ℚ) < 2 ^ (r.den.log2 + 1) := by exact_mod_cast Nat.lt_log2_self
  unfold value
  constructor
  · rw [lt_div_iff₀ den]
    calc (2 : ℚ) ^ ((r.num.log2 : Int) - r.den.log2 - 1) * r.den
        < 2 ^ ((r.num.log2 : Int) - r.den.log2 - 1) * 2 ^ (r.den.log2 + 1) := by gcongr
      _ = 2 ^ r.num.log2 := by
        rw [← zpow_natCast, ← zpow_natCast, ← zpow_add₀ (by norm_num)]
        congr 1
        push_cast
        ring
      _ ≤ r.num := numLow
  · rw [div_lt_iff₀ den]
    calc (r.num : ℚ) < 2 ^ (r.num.log2 + 1) := numHigh
      _ = 2 ^ ((r.num.log2 : Int) - r.den.log2 + 1) * 2 ^ r.den.log2 := by
        rw [← zpow_natCast, ← zpow_natCast, ← zpow_add₀ (by norm_num)]
        congr 1
        push_cast
        ring
      _ ≤ 2 ^ ((r.num.log2 : Int) - r.den.log2 + 1) * r.den := by gcongr

theorem le_quotient_iff (positive : 0 < r.den) (n : Nat) :
    n ≤ r.num / r.den ↔ (n : ℚ) ≤ r.value := by
  have den : (0 : ℚ) < r.den := by exact_mod_cast positive
  unfold value
  rw [Nat.le_div_iff_mul_le positive, le_div_iff₀ den]
  exact_mod_cast Iff.rfl

/-- The nearest double has the exponent of the fraction, or the least. -/
theorem nearestBits_eq (positive : 0 < r.den) (some : r.num ≠ 0) :
    ∃ k, HasExponent r.value k ∧ r.nearestBits =
      (max k (-1074) + 1074).toNat * 2 ^ 52 + (r.scale (-max k (-1074))).round := by
  obtain ⟨low, high⟩ := value_log2 positive some
  have wide := value_scale r (-((r.num.log2 : Int) - r.den.log2 - 53))
  have wideDen := den_scale positive (-((r.num.log2 : Int) - r.den.log2 - 53))
  have clamp (k : Int) : (if k < -1074 then -1074 else k) = max k (-1074) := by
    split
    · omega
    · omega
  unfold nearestBits
  rw [if_neg some]
  dsimp only
  simp only [clamp, twoTo_eq, le_quotient_iff wideDen, wide]
  generalize (r.num.log2 : Int) - r.den.log2 = d at *
  have two : (2 : ℚ) ≠ 0 := by norm_num
  have half : (2 : ℚ) ^ (-(d - 53 + 1)) * 2 = 2 ^ (-(d - 53)) := by
    rw [← zpow_add_one₀ two]
    congr 1
    ring
  have top : (2 : ℚ) ^ (d + 1) * 2 ^ (-(d - 53 + 1)) = 2 ^ 53 := by
    rw [← zpow_add₀ two]
    norm_num
  have bottom : (2 : ℚ) ^ (d - 1) * 2 ^ (-(d - 53)) = 2 ^ 52 := by
    rw [← zpow_add₀ two]
    norm_num
  split
  · rename_i big
    push_cast at big
    refine ⟨d - 53 + 1, ⟨?_, ?_⟩, rfl⟩
    · rw [← half] at big
      linarith
    · rw [← top]
      gcongr
  · rename_i small
    push_cast at small
    refine ⟨d - 53, ⟨?_, not_le.mp small⟩, rfl⟩
    rw [← bottom]
    gcongr

end Ratio

/-- The numbers of a neighbourhood. -/
def Neighbourhood.Holds (n : Neighbourhood) (x : ℚ) : Prop :=
  if n.closed then n.low * 2 ^ n.unit ≤ x ∧ x ≤ n.high * 2 ^ n.unit
  else n.low * 2 ^ n.unit < x ∧ x < n.high * 2 ^ n.unit

theorem pow_unit (e : Int) (j : Nat) : (2 : ℚ) ^ e = 2 ^ (e - j) * 2 ^ j := by
  rw [← zpow_natCast, ← zpow_add₀ (by norm_num)]
  congr 1
  omega

theorem unit_le_iff {a y : ℚ} (e : Int) (j : Nat) :
    (a * 2 ^ (e - j) ≤ y * 2 ^ e ↔ a ≤ y * 2 ^ j) ∧
      (y * 2 ^ e ≤ a * 2 ^ (e - j) ↔ y * 2 ^ j ≤ a) := by
  have positive : (0 : ℚ) < 2 ^ (e - j) := by positivity
  rw [pow_unit e j, ← mul_assoc, mul_right_comm]
  exact ⟨mul_le_mul_iff_left₀ positive, mul_le_mul_iff_left₀ positive⟩

theorem unit_lt_iff {a y : ℚ} (e : Int) (j : Nat) :
    (a * 2 ^ (e - j) < y * 2 ^ e ↔ a < y * 2 ^ j) ∧
      (y * 2 ^ e < a * 2 ^ (e - j) ↔ y * 2 ^ j < a) :=
  ⟨lt_iff_lt_of_le_iff_le (unit_le_iff e j).2, lt_iff_lt_of_le_iff_le (unit_le_iff e j).1⟩

theorem scaled_back (x : ℚ) (e : Int) : x * 2 ^ (-e) * 2 ^ e = x := by
  rw [mul_assoc, ← zpow_add₀ (by norm_num)]
  simp

/-- The numbers of a neighbourhood round to its value. -/
theorem Neighbourhood.Holds.nearest {m : Nat} {e : Int} {x : ℚ} (positive : 0 < m)
    (h : (ofFinite m e).Holds x) :
    IsNearest (x * 2 ^ (-e)) m ∧
      (m = 2 ^ 52 → -1074 < e → (2 : ℚ) ^ 52 - 1 / 4 ≤ x * 2 ^ (-e)) := by
  have back := scaled_back x e
  generalize x * 2 ^ (-e) = y at *
  subst back
  unfold ofFinite at h
  dsimp only at h
  rw [twoTo_eq] at h
  split at h
  · rename_i power
    obtain ⟨rfl, above⟩ := power
    have even : (2 ^ 52 % 2 == 0) = true := rfl
    unfold Holds at h
    rw [if_pos even] at h
    have low := (unit_le_iff e 2).1.mp h.1
    have high := (unit_le_iff e 2).2.mp h.2
    norm_num at low high
    refine ⟨⟨?_, ?_, ?_⟩, ?_⟩
    · norm_num
      linarith
    · norm_num
      linarith
    · intro _
      rfl
    · intro _ _
      norm_num
      linarith
  · rename_i plain
    have twice : ((2 * m - 1 : Nat) : ℚ) = 2 * m - 1 := by
      rw [Nat.cast_sub (by omega)]
      push_cast
      ring
    unfold Holds at h
    split at h
    · rename_i even
      have low := (unit_le_iff e 1).1.mp h.1
      have high := (unit_le_iff e 1).2.mp h.2
      rw [twice] at low
      push_cast at high
      refine ⟨⟨by linarith, by linarith, fun _ => beq_iff_eq.mp even⟩, ?_⟩
      exact fun power above => absurd ⟨power, above⟩ plain
    · have low := (unit_lt_iff e 1).1.mp h.1
      have high := (unit_lt_iff e 1).2.mp h.2
      rw [twice] at low
      push_cast at high
      refine ⟨⟨by linarith, by linarith, ?_⟩, fun power above => absurd ⟨power, above⟩ plain⟩
      rintro (bottom | top)
      · linarith
      · linarith

/-- What rounds to the value of a double has its bits for the nearest. -/
theorem nearestBits_of_holds {m : Nat} {e : Int} {r : Ratio} (double : IsDouble m e)
    (positive : 0 < m) (den : 0 < r.den) (some : r.num ≠ 0)
    (h : (Neighbourhood.ofFinite m e).Holds r.value) : r.nearestBits = magnitudeBits m e := by
  obtain ⟨nearest, power⟩ := h.nearest positive
  obtain ⟨k, ⟨low, high⟩, bits⟩ := Ratio.nearestBits_eq den some
  obtain ⟨below, least, most, normal⟩ := double
  have two : (2 : ℚ) ≠ 0 := by norm_num
  have limit : (m : ℚ) ≤ 2 ^ 53 - 1 := by
    have : m + 1 ≤ 2 ^ 53 := below
    have : (m : ℚ) + 1 ≤ 2 ^ 53 := by exact_mod_cast this
    linarith
  have shifted : r.value * 2 ^ (-k) = r.value * 2 ^ (-e) * 2 ^ (e - k) := by
    rw [mul_assoc, ← zpow_add₀ two]
    congr 2
    ring
  have rounded := Ratio.round_isNearest (Ratio.den_scale den (-max k (-1074)))
  rw [Ratio.value_scale] at rounded
  rw [bits]
  have nonneg : 0 ≤ r.value * 2 ^ (-e) := by
    unfold Ratio.value
    positivity
  have steps (j : Nat) (le : k + j ≤ e) : r.value * 2 ^ (-e) * 2 ^ j < 2 ^ 53 := by
    refine lt_of_le_of_lt ?_ high
    rw [shifted, ← zpow_natCast]
    refine mul_le_mul_of_nonneg_left ?_ nonneg
    exact zpow_le_zpow_right₀ (by norm_num) (by omega)
  rcases lt_trichotomy k e with lower | same | higher
  · rcases lt_or_eq_of_le least with above | rfl
    · -- the number lies just below a power of two, where doubles are closer
      have full : 2 ^ 52 ≤ m := normal.resolve_right above.ne'
      have once := steps 1 (by omega)
      have power' : m = 2 ^ 52 := by
        have : (m : ℚ) < 2 ^ 52 + 1 := by linarith [nearest.above]
        have : m < 2 ^ 52 + 1 := by exact_mod_cast this
        omega
      have close := power power' above
      have next : k = e - 1 := by
        by_contra other
        have twice := steps 2 (by omega)
        linarith
      have doubled : r.value * 2 ^ (-k) = r.value * 2 ^ (-e) * 2 := by
        rw [shifted, next, sub_sub_cancel, zpow_one]
      rw [max_eq_left (by omega : -1074 ≤ k)] at rounded ⊢
      rw [doubled] at rounded
      have carried : IsNearest (r.value * 2 ^ (-e) * 2) (2 ^ 53) := by
        refine ⟨?_, ?_, fun _ => rfl⟩
        · push_cast
          linarith
        · push_cast
          linarith
      rw [rounded.unique carried, power', next]
      unfold magnitudeBits
      omega
    · rw [max_eq_right lower.le] at rounded ⊢
      rw [rounded.unique nearest]
      rfl
  · subst same
    rw [max_eq_left least] at rounded ⊢
    rw [rounded.unique nearest]
    rfl
  · exfalso
    have less : (2 : ℚ) ^ (e - k) ≤ 2 ^ (-1 : Int) :=
      zpow_le_zpow_right₀ (by norm_num) (by omega)
    have half : r.value * 2 ^ (-k) ≤ r.value * 2 ^ (-e) * 2 ^ (-1 : Int) := by
      rw [shifted]
      exact mul_le_mul_of_nonneg_left less nonneg
    rw [zpow_neg_one] at half
    linarith [nearest.below]

end SmallLisp.Number
