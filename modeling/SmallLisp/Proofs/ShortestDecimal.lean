import SmallLisp.Proofs.Rounding
/-!
# The shortest decimal of a double

The search tries finer and finer decimal grids. What it finds lies in the neighbourhood of the double, and
with seventeen digits the grid is finer than the doubles are apart, so it finds something.
-/
namespace SmallLisp.Number

namespace Decimal

theorem digitCountFrom_spec {n bound count : Nat} (low : count = 0 ∨ 10 ^ (count - 1) ≤ n)
    (high : n < 10 ^ (count + bound)) :
    n < 10 ^ digitCountFrom n bound count ∧
      (digitCountFrom n bound count = 0 ∨ 10 ^ (digitCountFrom n bound count - 1) ≤ n) := by
  induction bound generalizing count with
  | zero => exact ⟨high, low⟩
  | succ bound ih =>
    unfold digitCountFrom
    rw [tenTo_eq]
    split
    · rename_i less
      exact ⟨less, low⟩
    · rename_i le
      refine ih (Or.inr (not_lt.mp le)) ?_
      rwa [show count + 1 + bound = count + (bound + 1) by omega]

/-- Three digits take at most ten bits. -/
theorem ten_pow_le_two_pow (l : Nat) : 10 ^ (l * 3 / 10) ≤ 2 ^ l := by
  obtain ⟨q, r, small, rfl⟩ : ∃ q r, r < 10 ∧ l = 10 * q + r := ⟨l / 10, l % 10, by omega, by omega⟩
  have quotient : (10 * q + r) * 3 / 10 = 3 * q + r * 3 / 10 := by omega
  have rest : ∀ r < 10, 10 ^ (r * 3 / 10) ≤ 2 ^ r := by decide
  rw [quotient, pow_add, pow_add, pow_mul, pow_mul]
  exact Nat.mul_le_mul (Nat.pow_le_pow_left (by norm_num) q) (rest r small)

theorem digitCount_spec {n : Nat} (positive : 0 < n) :
    0 < digitCount n ∧ 10 ^ (digitCount n - 1) ≤ n ∧ n < 10 ^ digitCount n := by
  have low : 10 ^ (n.log2 * 3 / 10) ≤ n :=
    (ten_pow_le_two_pow _).trans (Nat.log2_self_le positive.ne')
  have high : n < 10 ^ (n.log2 * 3 / 10 + (n.log2 + 1)) := by
    refine Nat.lt_of_lt_of_le Nat.lt_log2_self ?_
    calc 2 ^ (n.log2 + 1) ≤ 10 ^ (n.log2 + 1) := Nat.pow_le_pow_left (by norm_num) _
      _ ≤ 10 ^ (n.log2 * 3 / 10 + (n.log2 + 1)) := Nat.pow_le_pow_right (by norm_num) (by omega)
  have start : n.log2 * 3 / 10 = 0 ∨ 10 ^ (n.log2 * 3 / 10 - 1) ≤ n :=
    Or.inr ((Nat.pow_le_pow_right (by norm_num) (by omega)).trans low)
  unfold digitCount
  rw [if_neg positive.ne']
  obtain ⟨less, rest⟩ := digitCountFrom_spec start high
  rcases rest with none | some
  · rw [none] at less
    omega
  · refine ⟨?_, some, less⟩
    by_contra none
    rw [Nat.eq_zero_of_not_pos none] at less
    omega

theorem digitCount_rat {n : Nat} (positive : 0 < n) :
    (10 : ℚ) ^ ((digitCount n : Int) - 1) ≤ n ∧ (n : ℚ) < 10 ^ (digitCount n : Int) := by
  obtain ⟨some, low, high⟩ := digitCount_spec positive
  constructor
  · rw [show (digitCount n : Int) - 1 = ((digitCount n - 1 : Nat) : Int) by omega, zpow_natCast]
    exact_mod_cast low
  · rw [zpow_natCast]
    exact_mod_cast high

theorem leadingExponent_le {r : Ratio} (num : 0 < r.num) (den : 0 < r.den) :
    (10 : ℚ) ^ leadingExponent r ≤ r.value := by
  have positive : (0 : ℚ) < r.den := by exact_mod_cast den
  obtain ⟨numLow, _⟩ := digitCount_rat num
  obtain ⟨_, denHigh⟩ := digitCount_rat den
  have power := Ratio.value_ofDecimal 1 ((digitCount r.num : Int) - (digitCount r.den : Int))
  have powerDen : (0 : ℚ) < (Ratio.ofDecimal 1 ((digitCount r.num : Int) -
      (digitCount r.den : Int))).den := by exact_mod_cast Ratio.den_ofDecimal _ _
  unfold leadingExponent
  dsimp only
  split
  · rename_i le
    rw [Nat.cast_one, one_mul] at power
    rw [← power]
    unfold Ratio.value
    rw [div_le_div_iff₀ powerDen positive]
    exact_mod_cast le
  · unfold Ratio.value
    rw [le_div_iff₀ positive]
    calc (10 : ℚ) ^ ((digitCount r.num : Int) - (digitCount r.den : Int) - 1) * r.den
        ≤ 10 ^ ((digitCount r.num : Int) - (digitCount r.den : Int) - 1) *
          10 ^ (digitCount r.den : Int) := by gcongr
      _ = 10 ^ ((digitCount r.num : Int) - 1) := by
        rw [← zpow_add₀ (by norm_num)]
        congr 1
        ring
      _ ≤ r.num := numLow

/-- The number that a decimal is. -/
def value (d : Decimal) : ℚ :=
  d.coefficient * 10 ^ d.exponent

theorem normalize_value (bound : Nat) (d : Decimal) : (normalize bound d).value = d.value := by
  induction bound generalizing d with
  | zero => rfl
  | succ bound ih =>
    unfold normalize
    split
    · rename_i multiple
      rw [ih]
      obtain ⟨c, hc⟩ : ∃ c, d.coefficient = 10 * c := ⟨d.coefficient / 10, by omega⟩
      unfold value
      dsimp only
      rw [hc, Nat.mul_div_cancel_left c (by norm_num), zpow_add₀ (by norm_num)]
      push_cast
      ring
    · rfl

end Decimal

namespace Neighbourhood

open Decimal

variable (n : Neighbourhood) (k : Int)

theorem gridMeasure_pos : 0 < n.gridMeasure k := by
  refine Nat.mul_pos ?_ (Ratio.den_scale Nat.one_pos _)
  unfold Ratio.ofDecimal
  split
  · exact Nat.mul_pos Nat.one_pos (tenTo_pos _)
  · exact Nat.one_pos

/-- The measures are as the unit and the grid. -/
theorem measures_eq : (2 : ℚ) ^ n.unit * n.gridMeasure k = 10 ^ k * n.unitMeasure k := by
  have unitDen : ((Ratio.scale ⟨1, 1⟩ n.unit).den : ℚ) ≠ 0 := by
    exact_mod_cast (Ratio.den_scale (r := ⟨1, 1⟩) Nat.one_pos n.unit).ne'
  have gridDen : ((Ratio.ofDecimal 1 k).den : ℚ) ≠ 0 := by
    exact_mod_cast (Ratio.den_ofDecimal 1 k).ne'
  have unit := Ratio.value_scale ⟨1, 1⟩ n.unit
  have grid := Ratio.value_ofDecimal 1 k
  simp only [Ratio.value, Nat.cast_one, div_one, one_mul] at unit grid
  unfold gridMeasure unitMeasure
  rw [← unit, ← grid]
  push_cast
  field_simp

/-- Numbers are compared as their measures. -/
theorem measured_le_iff (a c : Nat) :
    (a * n.unitMeasure k ≤ c * n.gridMeasure k ↔ (a : ℚ) * 2 ^ n.unit ≤ c * 10 ^ k) ∧
      (c * n.gridMeasure k ≤ a * n.unitMeasure k ↔ (c : ℚ) * 10 ^ k ≤ a * 2 ^ n.unit) := by
  have grid : (0 : ℚ) < n.gridMeasure k := by exact_mod_cast n.gridMeasure_pos k
  have ten : (0 : ℚ) < 10 ^ k := by positivity
  have left : (a : ℚ) * 2 ^ n.unit * n.gridMeasure k = a * n.unitMeasure k * 10 ^ k := by
    rw [mul_assoc, n.measures_eq k]
    ring
  have right : (c : ℚ) * 10 ^ k * n.gridMeasure k = c * n.gridMeasure k * 10 ^ k := by ring
  constructor
  · rw [← mul_le_mul_iff_left₀ grid, left, right, mul_le_mul_iff_left₀ ten]
    exact_mod_cast Iff.rfl
  · rw [← mul_le_mul_iff_left₀ grid, left, right, mul_le_mul_iff_left₀ ten]
    exact_mod_cast Iff.rfl

theorem contains_iff (c : Nat) : n.contains k c = true ↔ n.Holds (c * 10 ^ k) := by
  obtain ⟨low, low'⟩ := n.measured_le_iff k n.low c
  obtain ⟨high', high⟩ := n.measured_le_iff k n.high c
  unfold contains Holds
  dsimp only
  split
  · simp only [Bool.and_eq_true, decide_eq_true_eq, low, high]
  · simp only [Bool.and_eq_true, decide_eq_true_eq, ← not_le, low', high']

theorem value_ofFinite (m : Nat) (e : Int) :
    ((ofFinite m e).value : ℚ) * 2 ^ (ofFinite m e).unit = m * 2 ^ e := by
  unfold ofFinite
  dsimp only
  split
  · rw [pow_unit e 2]
    push_cast
    ring
  · rw [pow_unit e 1]
    push_cast
    ring

/-- What is nearer to a double than a quarter of the last place, or than half of it where no double is
closer, is in its neighbourhood. -/
theorem holds_of_near {m : Nat} {e : Int} {x : ℚ} (positive : 0 < m)
    (near : |x - m * 2 ^ e| < 2 ^ e * if m = 2 ^ 52 then 1 / 4 else 1 / 2) :
    (ofFinite m e).Holds x := by
  obtain ⟨y, rfl⟩ : ∃ y : ℚ, x = y * 2 ^ e := ⟨_, (scaled_back x e).symm⟩
  have two : (0 : ℚ) < 2 ^ e := by positivity
  rw [← sub_mul, abs_mul, abs_of_pos two, mul_comm] at near
  have inside := lt_of_mul_lt_mul_left near two.le
  rw [abs_lt] at inside
  unfold ofFinite
  dsimp only
  rw [twoTo_eq]
  split
  · rename_i power
    obtain ⟨rfl, _⟩ := power
    have even : (2 ^ 52 % 2 == 0) = true := rfl
    rw [if_pos rfl] at inside
    unfold Holds
    rw [if_pos even]
    refine ⟨(unit_le_iff e 2).1.mpr ?_, (unit_le_iff e 2).2.mpr ?_⟩
    · norm_num at inside ⊢
      linarith
    · norm_num at inside ⊢
      linarith
  · have half : (if m = 2 ^ 52 then (1 : ℚ) / 4 else 1 / 2) ≤ 1 / 2 := by
      split
      · norm_num
      · norm_num
    have low : ((2 * m - 1 : Nat) : ℚ) * 2 ^ (e - 1) < y * 2 ^ e := by
      refine (unit_lt_iff e 1).1.mpr ?_
      rw [Nat.cast_sub (by omega)]
      push_cast
      linarith
    have high : y * 2 ^ e < ((2 * m + 1 : Nat) : ℚ) * 2 ^ (e - 1) := by
      refine (unit_lt_iff e 1).2.mpr ?_
      push_cast
      linarith
    unfold Holds
    split
    · exact ⟨low.le, high.le⟩
    · exact ⟨low, high⟩

end Neighbourhood

namespace Decimal

variable {n : Neighbourhood} {k : Int} {d : Decimal}

theorem onGrid?_holds (h : onGrid? n k = some d) : n.Holds d.value := by
  obtain ⟨c, found, rfl⟩ := Option.map_eq_some_iff.mp h
  have inside := List.find?_some found
  exact (n.contains_iff k c).mp inside

theorem mem_gridNeighbours {c : Nat} :
    c ∈ gridNeighbours n k ↔ c = n.value * n.unitMeasure k / n.gridMeasure k ∨
      c = n.value * n.unitMeasure k / n.gridMeasure k + 1 := by
  unfold gridNeighbours
  dsimp only
  split
  · simp
  · simp [or_comm]

/-- One of the neighbours is at most half a step away. -/
theorem exists_near (n : Neighbourhood) (k : Int) :
    ∃ c ∈ gridNeighbours n k, |(c : ℚ) * 10 ^ k - n.value * 2 ^ n.unit| ≤ 10 ^ k / 2 := by
  have ten : (0 : ℚ) < 10 ^ k := by positivity
  have grid : (0 : ℚ) < n.gridMeasure k := by exact_mod_cast n.gridMeasure_pos k
  have parts := Ratio.value_eq_quotient (r := ⟨n.value * n.unitMeasure k, n.gridMeasure k⟩)
    (n.gridMeasure_pos k)
  have steps : (n.value : ℚ) * 2 ^ n.unit =
      Ratio.value ⟨n.value * n.unitMeasure k, n.gridMeasure k⟩ * 10 ^ k := by
    have same := n.measures_eq k
    unfold Ratio.value
    push_cast
    field_simp
    rw [mul_assoc, same]
    ring
  have rest : ((n.value * n.unitMeasure k % n.gridMeasure k : Nat) : ℚ) / n.gridMeasure k < 1 :=
    (div_lt_one grid).mpr (by exact_mod_cast Nat.mod_lt _ (n.gridMeasure_pos k))
  have nonneg : 0 ≤ ((n.value * n.unitMeasure k % n.gridMeasure k : Nat) : ℚ) / n.gridMeasure k := by
    positivity
  rw [steps, parts]
  dsimp only
  generalize ((n.value * n.unitMeasure k % n.gridMeasure k : Nat) : ℚ) / n.gridMeasure k = f at *
  rcases le_total f (1 / 2) with small | large
  · refine ⟨_, mem_gridNeighbours.mpr (Or.inl rfl), ?_⟩
    rw [abs_le]
    constructor
    · nlinarith
    · nlinarith
  · refine ⟨_, mem_gridNeighbours.mpr (Or.inr rfl), ?_⟩
    rw [abs_le]
    push_cast
    constructor
    · nlinarith
    · nlinarith

theorem onGrid?_isSome {c : Nat} (beside : c ∈ gridNeighbours n k) (inside : n.Holds (c * 10 ^ k)) :
    (onGrid? n k).isSome := by
  unfold onGrid?
  rw [Option.isSome_map, List.find?_isSome]
  exact ⟨c, beside, (n.contains_iff k c).mpr inside⟩

theorem searchFrom_holds {lead : Int} {rounds digits : Nat}
    (h : searchFrom n lead rounds digits = some d) : n.Holds d.value := by
  induction rounds generalizing digits with
  | zero => cases h
  | succ rounds ih =>
    unfold searchFrom at h
    split at h
    · rename_i found
      cases h
      exact onGrid?_holds found
    · exact ih h

/-- The search comes to its last grid. -/
theorem searchFrom_isSome {lead : Int} {rounds digits : Nat}
    (last : (onGrid? n (lead - (digits + rounds : Nat) + 1)).isSome) :
    (searchFrom n lead (rounds + 1) digits).isSome := by
  induction rounds generalizing digits with
  | zero =>
    obtain ⟨d, found⟩ := Option.isSome_iff_exists.mp last
    unfold searchFrom
    rw [Nat.add_zero] at found
    rw [found]
    rfl
  | succ rounds ih =>
    unfold searchFrom
    split
    · rfl
    · refine ih ?_
      rwa [show digits + 1 + rounds = digits + (rounds + 1) by omega]

/-- Seventeen digits suffice: the grid is then finer than the doubles are apart. -/
theorem searchFrom_seventeen {m : Nat} {e lead : Int} (double : IsDouble m e) (positive : 0 < m)
    (le : (10 : ℚ) ^ lead ≤ m * 2 ^ e) :
    (searchFrom (Neighbourhood.ofFinite m e) lead 17 1).isSome := by
  refine searchFrom_isSome ?_
  obtain ⟨c, beside, near⟩ := exists_near (Neighbourhood.ofFinite m e) (lead - 16)
  rw [Neighbourhood.value_ofFinite] at near
  have step : (10 : ℚ) ^ (lead - 16) = 10 ^ lead / 10 ^ 16 := by
    rw [zpow_sub₀ (by norm_num)]
    norm_num
  have two : (0 : ℚ) < 2 ^ e := by positivity
  rw [show lead - ((1 + 16 : Nat) : Int) + 1 = lead - 16 by omega]
  refine onGrid?_isSome beside (Neighbourhood.holds_of_near positive ?_)
  refine lt_of_le_of_lt near ?_
  rw [step]
  split
  · rename_i power
    subst power
    push_cast at le
    norm_num at le ⊢
    linarith
  · have limit : (m : ℚ) < 2 ^ 53 := by exact_mod_cast double.mantissa_lt
    have below : (m : ℚ) * 2 ^ e < 2 ^ 53 * 2 ^ e := by gcongr
    norm_num at below ⊢
    linarith

theorem coefficient_pos {m : Nat} {e : Int} {d : Decimal} (positive : 0 < m)
    (h : (Neighbourhood.ofFinite m e).Holds d.value) : 0 < d.coefficient := by
  have two : (0 : ℚ) < 2 ^ (Neighbourhood.ofFinite m e).unit := by positivity
  have low : 0 < (Neighbourhood.ofFinite m e).low := by
    unfold Neighbourhood.ofFinite
    dsimp only
    split
    · change 0 < 4 * m - 1
      omega
    · change 0 < 2 * m - 1
      omega
  have bottom : (0 : ℚ) < (Neighbourhood.ofFinite m e).low * 2 ^ (Neighbourhood.ofFinite m e).unit := by
    positivity
  have inside : (Neighbourhood.ofFinite m e).low * 2 ^ (Neighbourhood.ofFinite m e).unit ≤ d.value := by
    unfold Neighbourhood.Holds at h
    split at h
    · exact h.1
    · exact h.1.le
  by_contra none
  have zero : d.value = 0 := by
    unfold value
    rw [Nat.eq_zero_of_not_pos none]
    simp
  linarith

/-- The shortest decimal of a double is one that rounds to it. -/
theorem shortest_holds {m : Nat} {e : Int} (double : IsDouble m e) (positive : 0 < m) :
    (Neighbourhood.ofFinite m e).Holds (shortest m e).value := by
  have exact : (Ratio.scale ⟨m, 1⟩ e).value = m * 2 ^ e := by
    rw [Ratio.value_scale]
    simp [Ratio.value]
  have num : 0 < (Ratio.scale ⟨m, 1⟩ e).num := by
    unfold Ratio.scale
    split
    · exact Nat.mul_pos positive (twoTo_pos _)
    · exact positive
  have lead := leadingExponent_le num (Ratio.den_scale Nat.one_pos e)
  rw [exact] at lead
  obtain ⟨d, found⟩ := Option.isSome_iff_exists.mp (searchFrom_seventeen double positive lead)
  unfold shortest
  dsimp only
  rw [found, normalize_value]
  exact searchFrom_holds found

end Decimal
end SmallLisp.Number
