import SmallLisp.Proofs.IntegerRounding
/-!
# Where arithmetic overflows

Integers are computed with exactly until the first double; from there on every number becomes a double, and an integer
that is too large has none. A division makes a double of each number, and of the quotient of two integers.
-/
namespace SmallLisp.Number

def HasTooLarge (xs : List Number) : Prop :=
  ∃ n, int n ∈ xs ∧ IsTooLarge n

/-- An integer that must become a double and cannot. Integers are computed with exactly up to the first double. -/
inductive MeetsTooLarge (op : Int → Int → Int) : Number → List Number → Prop
  | total {a : Int} {before : List Int} {y : Float} {after : List Number} (h : IsTooLarge (before.foldl op a)) :
    MeetsTooLarge op (int a) (before.map int ++ float y :: after)
  | operand {a : Int} {before : List Int} {y : Float} {after : List Number} (h : HasTooLarge after) :
    MeetsTooLarge op (int a) (before.map int ++ float y :: after)
  | beside {x : Float} {xs : List Number} (h : HasTooLarge xs) : MeetsTooLarge op (float x) xs

def IsZero : Number → Prop
  | int n => n = 0
  | float x => (x == 0) = true

/-- A quotient of two numbers that has no double, or needs one that there is not. -/
inductive QuotientOverflows : Number → Number → Overflow → Prop
  | quotient {m n : Int} (nonzero : n ≠ 0) (h : (2 ^ 54 - 1) * 2 ^ 970 * n.natAbs ≤ m.natAbs) :
    QuotientOverflows (int m) (int n) .quotient
  | dividend {m : Int} {y : Float} (h : IsTooLarge m) : QuotientOverflows (int m) (float y) .integer
  | divisor {x : Float} {n : Int} (h : IsTooLarge n) : QuotientOverflows (float x) (int n) .integer

/-- A division by an integer that is too large, before any division by zero. -/
inductive DividesByTooLarge : List Number → Prop
  | here {n : Int} {rest : List Number} (h : IsTooLarge n) : DividesByTooLarge (int n :: rest)
  | there {y : Number} {rest : List Number} (nonzero : ¬ IsZero y) (h : DividesByTooLarge rest) :
    DividesByTooLarge (y :: rest)

/-- Divisions from left to right, one of which has no double. After the first of them all work on doubles. -/
inductive DivisionOverflows : List Number → Overflow → Prop
  | first {x y : Number} {rest : List Number} {cause : Overflow} (h : QuotientOverflows x y cause) :
    DivisionOverflows (x :: y :: rest) cause
  | later {x y : Number} {rest : List Number} (passed : ∀ cause, ¬ QuotientOverflows x y cause)
    (nonzero : ¬ IsZero y) (h : DividesByTooLarge rest) : DivisionOverflows (x :: y :: rest) .integer

variable {op : Int → Int → Int} {fop : Float → Float → Float} {a n : Int} {x y : Float} {xs : List Number}

theorem toFloat_of_isTooLarge (h : IsTooLarge n) : (int n).toFloat = .error .integer := by
  rw [toFloat, floatOfInt?_eq_none_iff.mpr h]

theorem toFloat_of_not_isTooLarge (h : ¬ IsTooLarge n) : ∃ x, (int n).toFloat = .ok x := by
  rw [← floatOfInt?_eq_none_iff] at h
  obtain ⟨x, made⟩ := Option.ne_none_iff_exists'.mp h
  exact ⟨x, by rw [toFloat, made]⟩

theorem not_hasTooLarge_nil : ¬ HasTooLarge [] := by
  rintro ⟨n, mem, _⟩
  exact List.not_mem_nil mem

theorem hasTooLarge_cons_int : HasTooLarge (int n :: xs) ↔ IsTooLarge n ∨ HasTooLarge xs := by
  constructor
  · rintro ⟨m, mem, h⟩
    rcases List.mem_cons.mp mem with same | mem
    · cases same
      exact Or.inl h
    · exact Or.inr ⟨m, mem, h⟩
  · rintro (h | ⟨m, mem, h⟩)
    · exact ⟨n, List.mem_cons_self, h⟩
    · exact ⟨m, List.mem_cons_of_mem _ mem, h⟩

theorem hasTooLarge_cons_float : HasTooLarge (float y :: xs) ↔ HasTooLarge xs := by
  constructor
  · rintro ⟨m, mem, h⟩
    rcases List.mem_cons.mp mem with same | mem
    · cases same
    · exact ⟨m, mem, h⟩
  · rintro ⟨m, mem, h⟩
    exact ⟨m, List.mem_cons_of_mem _ mem, h⟩

theorem meetsTooLarge_float : MeetsTooLarge op (float x) xs ↔ HasTooLarge xs := by
  refine ⟨fun h => ?_, .beside⟩
  cases h with
  | beside h => exact h

theorem not_meetsTooLarge_nil {x : Number} : ¬ MeetsTooLarge op x [] := by
  intro h
  generalize same : ([] : List Number) = ys at h
  cases h with
  | total =>
    rw [eq_comm, List.append_eq_nil_iff] at same
    cases same.2
  | operand =>
    rw [eq_comm, List.append_eq_nil_iff] at same
    cases same.2
  | beside h =>
    cases same
    exact not_hasTooLarge_nil h

theorem meetsTooLarge_int_cons_int : MeetsTooLarge op (int a) (int n :: xs) ↔ MeetsTooLarge op (int (op a n)) xs := by
  constructor
  · intro h
    generalize same : int n :: xs = ys at h
    cases h with
    | @total _ before _ _ h =>
      cases before with
      | nil => cases same
      | cons m before =>
        cases same
        exact .total h
    | @operand _ before _ _ h =>
      cases before with
      | nil => cases same
      | cons m before =>
        cases same
        exact .operand h
  · intro h
    cases h with
    | @total _ before _ _ h => exact @MeetsTooLarge.total op a (n :: before) _ _ h
    | @operand _ before _ _ h => exact @MeetsTooLarge.operand op a (n :: before) _ _ h

theorem meetsTooLarge_int_cons_float :
    MeetsTooLarge op (int a) (float y :: xs) ↔ IsTooLarge a ∨ HasTooLarge xs := by
  constructor
  · intro h
    generalize same : float y :: xs = ys at h
    cases h with
    | @total _ before _ _ h =>
      cases before with
      | nil =>
        cases same
        exact Or.inl h
      | cons m before => cases same
    | @operand _ before _ _ h =>
      cases before with
      | nil =>
        cases same
        exact Or.inr h
      | cons m before => cases same
  · rintro (h | h)
    · exact @MeetsTooLarge.total op a [] _ _ h
    · exact @MeetsTooLarge.operand op a [] _ _ h

/-- A double and an integer that becomes one, and the other way round. -/
theorem combine_float_int (x : Float) (n : Int) :
    (IsTooLarge n ∧ combine op fop (float x) (int n) = .error .integer) ∨
      (¬ IsTooLarge n ∧ ∃ z, combine op fop (float x) (int n) = .ok (float z)) := by
  change _ ∧ (do return float (fop (← (float x).toFloat) (← (int n).toFloat))) = _ ∨
    _ ∧ ∃ z, (do return float (fop (← (float x).toFloat) (← (int n).toFloat))) = _
  by_cases large : IsTooLarge n
  · rw [toFloat_of_isTooLarge large]
    exact Or.inl ⟨large, rfl⟩
  · obtain ⟨z, made⟩ := toFloat_of_not_isTooLarge large
    rw [made]
    exact Or.inr ⟨large, _, rfl⟩

theorem combine_int_float (n : Int) (y : Float) :
    (IsTooLarge n ∧ combine op fop (int n) (float y) = .error .integer) ∨
      (¬ IsTooLarge n ∧ ∃ z, combine op fop (int n) (float y) = .ok (float z)) := by
  change _ ∧ (do return float (fop (← (int n).toFloat) (← (float y).toFloat))) = _ ∨
    _ ∧ ∃ z, (do return float (fop (← (int n).toFloat) (← (float y).toFloat))) = _
  by_cases large : IsTooLarge n
  · rw [toFloat_of_isTooLarge large]
    exact Or.inl ⟨large, rfl⟩
  · obtain ⟨z, made⟩ := toFloat_of_not_isTooLarge large
    rw [made]
    exact Or.inr ⟨large, _, rfl⟩

/-- Computing from a double on fails just when an integer is too large. -/
theorem foldlM_combine_float (x : Float) (xs : List Number) :
    (HasTooLarge xs ∧ xs.foldlM (combine op fop) (float x) = .error .integer) ∨
      (¬ HasTooLarge xs ∧ ∃ z, xs.foldlM (combine op fop) (float x) = .ok z) := by
  induction xs generalizing x with
  | nil => exact Or.inr ⟨not_hasTooLarge_nil, _, rfl⟩
  | cons y ys ih =>
    rw [List.foldlM_cons]
    cases y with
    | float y =>
      rw [hasTooLarge_cons_float]
      exact ih (fop x y)
    | int n =>
      rw [hasTooLarge_cons_int]
      rcases @combine_float_int op fop x n with ⟨large, failed⟩ | ⟨small, z, given⟩
      · rw [failed]
        exact Or.inl ⟨Or.inl large, rfl⟩
      · rw [given]
        rcases ih z with ⟨later, failed⟩ | ⟨none, given⟩
        · exact Or.inl ⟨Or.inr later, failed⟩
        · exact Or.inr ⟨fun h => h.elim small none, given⟩

/-- Computing from left to right fails just when an integer that is too large meets a double. -/
theorem foldlM_combine (x : Number) (xs : List Number) :
    (MeetsTooLarge op x xs ∧ xs.foldlM (combine op fop) x = .error .integer) ∨
      (¬ MeetsTooLarge op x xs ∧ ∃ z, xs.foldlM (combine op fop) x = .ok z) := by
  cases x with
  | float x =>
    rw [meetsTooLarge_float]
    exact foldlM_combine_float x xs
  | int a =>
    induction xs generalizing a with
    | nil => exact Or.inr ⟨not_meetsTooLarge_nil, _, rfl⟩
    | cons y ys ih =>
      rw [List.foldlM_cons]
      cases y with
      | int n =>
        rw [meetsTooLarge_int_cons_int]
        exact ih (op a n)
      | float y =>
        rw [meetsTooLarge_int_cons_float]
        rcases @combine_int_float op fop a y with ⟨large, failed⟩ | ⟨small, z, given⟩
        · rw [failed]
          exact Or.inl ⟨Or.inl large, rfl⟩
        · rw [given]
          rcases @foldlM_combine_float op fop z ys with ⟨later, failed⟩ | ⟨none, given⟩
          · exact Or.inl ⟨Or.inr later, failed⟩
          · exact Or.inr ⟨fun h => h.elim small none, given⟩

/-- Numbers become doubles unless one is too large. -/
theorem mapM_toFloat (xs : List Number) :
    (HasTooLarge xs ∧ xs.mapM toFloat = .error .integer) ∨
      (¬ HasTooLarge xs ∧ ∃ ys, ys.length = xs.length ∧ xs.mapM toFloat = .ok ys) := by
  induction xs with
  | nil => exact Or.inr ⟨not_hasTooLarge_nil, [], rfl, rfl⟩
  | cons x xs ih =>
    have rest (z : Float) (made : x.toFloat = .ok z) :
        (HasTooLarge xs ∧ (x :: xs).mapM toFloat = .error .integer) ∨
          (¬ HasTooLarge xs ∧ ∃ ys, ys.length = (x :: xs).length ∧ (x :: xs).mapM toFloat = .ok ys) := by
      rw [List.mapM_cons, made]
      rcases ih with ⟨later, failed⟩ | ⟨none, ys, length, given⟩
      · rw [failed]
        exact Or.inl ⟨later, rfl⟩
      · rw [given]
        exact Or.inr ⟨none, z :: ys, congrArg (· + 1) length, rfl⟩
    cases x with
    | float x =>
      rw [hasTooLarge_cons_float]
      exact rest x rfl
    | int n =>
      rw [hasTooLarge_cons_int]
      by_cases large : IsTooLarge n
      · rw [List.mapM_cons, toFloat_of_isTooLarge large]
        exact Or.inl ⟨Or.inl large, rfl⟩
      · obtain ⟨z, made⟩ := toFloat_of_not_isTooLarge large
        rcases rest z made with ⟨later, failed⟩ | ⟨none, given⟩
        · exact Or.inl ⟨Or.inr later, failed⟩
        · exact Or.inr ⟨fun h => h.elim large none, given⟩

/-- Only zero becomes a double that is zero. -/
theorem beq_zero_of_toFloat (made : (int n).toFloat = .ok x) : (x == 0) = true ↔ n = 0 := by
  have some : floatOfInt? n = some x := by
    rw [toFloat] at made
    split at made
    · cases made
      assumption
    · cases made
  constructor
  · intro zero
    by_contra nonzero
    have small : ¬ IsTooLarge n := by
      rw [← floatOfInt?_eq_none_iff, some]
      exact Option.some_ne_none x
    obtain ⟨y, m, e, same, parts, -, rounds⟩ := floatOfInt?_eq_some nonzero (lt_of_not_isTooLarge small)
    rw [some] at same
    cases same
    have large : (1 : ℚ) / 2 ≤ n.natAbs := by
      have : 1 ≤ n.natAbs := Int.natAbs_pos.mpr nonzero
      have : (1 : ℚ) ≤ n.natAbs := by exact_mod_cast this
      linarith
    have positive : 0 < m := by
      by_contra none
      have := rounds.pos large
      rw [Nat.eq_zero_of_not_pos none, Nat.cast_zero, zero_mul] at this
      exact lt_irrefl _ this
    have beside : (x == 0) =
        Float.Model.UnpackedFloat.beq x.toModel.unpack (.zero .positive) := rfl
    have unequal : Float.Model.UnpackedFloat.beq (.finite (signOf (decide (n < 0))) m e positive) (.zero .positive) =
        false := by
      cases decide (n < 0) <;> rfl
    rw [beside, unpack_of_finite parts positive, unequal] at zero
    cases zero
  · rintro rfl
    cases some
    rfl

theorem toFloat?_eq_none_iff {negative : Bool} {r : Ratio} (den : 0 < r.den) :
    r.toFloat? negative = none ↔ (2 ^ 54 - 1) * 2 ^ 970 ≤ r.value := by
  rw [← infinityBits_le_nearestBits den, Ratio.toFloat?]
  split
  · rename_i beyond
    exact iff_of_true rfl beyond
  · rename_i within
    exact iff_of_false (Option.some_ne_none _) within

/-- A quotient of integers has no double when the dividend is too many times the divisor. -/
theorem toFloat?_quotient_eq_none_iff {m n : Nat} (positive : 0 < n) (negative : Bool) :
    Ratio.toFloat? negative ⟨m, n⟩ = none ↔ (2 ^ 54 - 1) * 2 ^ 970 * n ≤ m := by
  have divisor : (0 : ℚ) < n := by exact_mod_cast positive
  have bound : (((2 ^ 54 - 1) * 2 ^ 970 * n : Nat) : ℚ) = (2 ^ 54 - 1) * 2 ^ 970 * n := by
    rw [Nat.cast_mul, Nat.cast_mul, Nat.cast_pow]
    norm_num only
  rw [toFloat?_eq_none_iff positive, Ratio.value, le_div_iff₀ divisor, ← bound, Nat.cast_le]

/-- A division that makes its doubles ends by whether the divisor is zero. -/
theorem div_ends {x y : Number} {z : Float} {p : Prop} [Decidable p] (zero : IsZero y ↔ p)
    (passed : x.div y = if p then .error .zero else .ok (float z)) :
    IsZero y ∧ x.div y = .error .zero ∨ ¬ IsZero y ∧ ∃ z, x.div y = .ok (float z) := by
  by_cases h : p
  · exact Or.inl ⟨zero.mpr h, passed.trans (if_pos h)⟩
  · exact Or.inr ⟨fun isZero => h (zero.mp isZero), z, passed.trans (if_neg h)⟩

/-- The quotient of two integers is made a double in one step. -/
theorem div_ints (m n : Int) :
    (∃ cause, QuotientOverflows (int m) (int n) cause ∧ (int m).div (int n) = .error (.overflow cause)) ∨
      (∀ cause, ¬ QuotientOverflows (int m) (int n) cause) ∧
        (IsZero (int n) ∧ (int m).div (int n) = .error .zero ∨
          ¬ IsZero (int n) ∧ ∃ z, (int m).div (int n) = .ok (float z)) := by
  change (∃ cause, _ ∧ divInts m n = _) ∨ _ ∧ (_ ∧ divInts m n = _ ∨ _ ∧ ∃ z, divInts m n = _)
  rw [divInts]
  by_cases zero : n = 0
  · rw [if_pos zero]
    refine Or.inr ⟨fun cause h => ?_, Or.inl ⟨zero, rfl⟩⟩
    cases h with
    | quotient nonzero => exact nonzero zero
  · have none := toFloat?_quotient_eq_none_iff (m := m.natAbs) (Int.natAbs_pos.mpr zero) ((m < 0) != (n < 0))
    rw [if_neg zero]
    cases made : Ratio.toFloat? ((m < 0) != (n < 0)) ⟨m.natAbs, n.natAbs⟩ with
    | none => exact Or.inl ⟨.quotient, .quotient zero (none.mp made), rfl⟩
    | some z =>
      refine Or.inr ⟨fun cause h => ?_, Or.inr ⟨zero, z, rfl⟩⟩
      cases h with
      | quotient _ h =>
        rw [none.mpr h] at made
        cases made

/-- The three ends of a division: it overflows, it divides by zero, or it gives a double. -/
theorem div_cases (x y : Number) :
    (∃ cause, QuotientOverflows x y cause ∧ x.div y = .error (.overflow cause)) ∨
      (∀ cause, ¬ QuotientOverflows x y cause) ∧
        (IsZero y ∧ x.div y = .error .zero ∨ ¬ IsZero y ∧ ∃ z, x.div y = .ok (float z)) := by
  cases x with
  | int m =>
    cases y with
    | int n => exact div_ints m n
    | float y =>
      by_cases large : IsTooLarge m
      · refine Or.inl ⟨.integer, .dividend large, ?_⟩
        rw [div, toFloat_of_isTooLarge large]
        exact nofun
      · obtain ⟨z, made⟩ := toFloat_of_not_isTooLarge large
        have passed : (int m).div (float y) = if y == 0 then .error .zero else .ok (float (z / y)) := by
          rw [div, made]
          · rfl
          · exact nofun
        refine Or.inr ⟨fun cause h => ?_, div_ends (p := (y == 0) = true) Iff.rfl passed⟩
        cases h with
        | dividend h => exact large h
  | float x =>
    cases y with
    | int n =>
      by_cases large : IsTooLarge n
      · refine Or.inl ⟨.integer, .divisor large, ?_⟩
        rw [div, toFloat_of_isTooLarge large]
        · rfl
        · exact nofun
      · obtain ⟨z, made⟩ := toFloat_of_not_isTooLarge large
        have passed : (float x).div (int n) = if z == 0 then .error .zero else .ok (float (x / z)) := by
          rw [div, made]
          · rfl
          · exact nofun
        refine Or.inr ⟨fun cause h => ?_, div_ends (beq_zero_of_toFloat made).symm passed⟩
        cases h with
        | divisor h => exact large h
    | float y =>
      have passed : (float x).div (float y) = if y == 0 then .error .zero else .ok (float (x / y)) := by
        rw [div]
        · rfl
        · exact nofun
      exact Or.inr ⟨nofun, div_ends (p := (y == 0) = true) Iff.rfl passed⟩

/-- Divisions from a double on. -/
theorem foldlM_div_float (x : Float) (ys : List Number) :
    (DividesByTooLarge ys ∧ ys.foldlM div (float x) = .error (.overflow .integer)) ∨
      ¬ DividesByTooLarge ys ∧
        (ys.foldlM div (float x) = .error .zero ∨ ∃ z, ys.foldlM div (float x) = .ok z) := by
  induction ys generalizing x with
  | nil => exact Or.inr ⟨nofun, Or.inr ⟨_, rfl⟩⟩
  | cons y ys ih =>
    rw [List.foldlM_cons]
    rcases div_cases (float x) y with ⟨cause, h, failed⟩ | ⟨passed, ⟨zero, failed⟩ | ⟨nonzero, z, given⟩⟩
    · cases h with
      | divisor large =>
        rw [failed]
        exact Or.inl ⟨.here large, rfl⟩
    · rw [failed]
      refine Or.inr ⟨fun h => ?_, Or.inl rfl⟩
      cases h with
      | here large => exact passed _ (.divisor large)
      | there nonzero => exact nonzero zero
    · rw [given]
      rcases ih z with ⟨later, failed⟩ | ⟨none, ends⟩
      · exact Or.inl ⟨.there nonzero later, failed⟩
      · refine Or.inr ⟨fun h => ?_, ends⟩
        cases h with
        | here large => exact passed _ (.divisor large)
        | there _ later => exact none later

/-- Divisions from left to right. -/
theorem foldlM_div (x y : Number) (rest : List Number) :
    (∃ cause, DivisionOverflows (x :: y :: rest) cause ∧ (y :: rest).foldlM div x = .error (.overflow cause)) ∨
      (∀ cause, ¬ DivisionOverflows (x :: y :: rest) cause) ∧
        ((y :: rest).foldlM div x = .error .zero ∨ ∃ z, (y :: rest).foldlM div x = .ok z) := by
  rw [List.foldlM_cons]
  rcases div_cases x y with ⟨cause, h, failed⟩ | ⟨passed, ⟨zero, failed⟩ | ⟨nonzero, z, given⟩⟩
  · rw [failed]
    exact Or.inl ⟨cause, .first h, rfl⟩
  · rw [failed]
    refine Or.inr ⟨fun cause h => ?_, Or.inl rfl⟩
    cases h with
    | first h => exact passed cause h
    | later _ nonzero => exact nonzero zero
  · rw [given]
    rcases foldlM_div_float z rest with ⟨later, failed⟩ | ⟨none, ends⟩
    · exact Or.inl ⟨.integer, .later passed nonzero later, failed⟩
    · refine Or.inr ⟨fun cause h => ?_, ends⟩
      cases h with
      | first h => exact passed cause h
      | later _ _ later => exact none later

theorem QuotientOverflows.unique {x y : Number} {cause cause' : Overflow} (h : QuotientOverflows x y cause)
    (h' : QuotientOverflows x y cause') : cause = cause' := by
  cases h <;> cases h' <;> rfl

theorem DivisionOverflows.unique {ys : List Number} {cause cause' : Overflow} (h : DivisionOverflows ys cause)
    (h' : DivisionOverflows ys cause') : cause = cause' := by
  cases h with
  | first h =>
    cases h' with
    | first h' => exact h.unique h'
    | later passed => exact absurd h (passed _)
  | later passed =>
    cases h' with
    | first h' => exact absurd h' (passed _)
    | later => rfl

/-- One divided by a number does not overflow. -/
theorem not_quotientOverflows_one (x : Number) (cause : Overflow) : ¬ QuotientOverflows (int 1) x cause := by
  have large : 2 ≤ (2 ^ 54 - 1) * 2 ^ 970 :=
    le_trans (by norm_num) (Nat.le_mul_of_pos_right (2 ^ 54 - 1) (by positivity))
  intro h
  cases h with
  | @quotient _ n nonzero h =>
    have := Nat.mul_le_mul large (Int.natAbs_pos.mpr nonzero)
    have one : (1 : Int).natAbs = 1 := rfl
    omega
  | dividend h =>
    have one : (1 : Int).natAbs = 1 := rfl
    unfold IsTooLarge at h
    omega

end SmallLisp.Number
