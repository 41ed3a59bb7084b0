import SmallLisp.Evaluation
/-!
# Outcomes of computations

A computation takes a state to its outcome: a value or the reason why there is none, and the state that
is left. The laws below say what each building block does to the state.
-/
namespace SmallLisp

/-- A computation on states of any kind; `Run`, `Session.Act` and `Reader.Reading` are three. -/
abbrev Stateful (ε σ α : Type) := ExceptT ε (StateM σ) α

abbrev Outcome (α : Type) := Except Halt α × Machine

namespace Run

variable {ε σ α β : Type}

/-- The outcome of a computation from a state. -/
def outcome (a : Stateful ε σ α) (m : σ) : Except ε α × σ := a m

theorem ext {a b : Stateful ε σ α} (h : ∀ m, outcome a m = outcome b m) : a = b :=
  funext h

@[simp] theorem outcome_pure (x : α) (m : σ) :
    outcome (pure x : Stateful ε σ α) m = (.ok x, m) := rfl

@[simp] theorem outcome_fail (f : Failure) (m : Machine) :
    outcome (fail f : Run α) m = (.error (.failed f), m) := rfl

@[simp] theorem outcome_throw (e : ε) (m : σ) :
    outcome (throw e : Stateful ε σ α) m = (.error e, m) := rfl

@[simp] theorem outcome_get (m : σ) : outcome (get : Stateful ε σ σ) m = (.ok m, m) := rfl

@[simp] theorem outcome_modify (g : σ → σ) (m : σ) :
    outcome (modify g : Stateful ε σ PUnit) m = (.ok ⟨⟩, g m) := rfl

@[simp] theorem outcome_modifyGet (g : σ → α × σ) (m : σ) :
    outcome (modifyGet g : Stateful ε σ α) m = (.ok (g m).1, (g m).2) := rfl

theorem outcome_bind (a : Stateful ε σ α) (k : α → Stateful ε σ β) (m : σ) :
    outcome (a >>= k) m = match outcome a m with
      | (.ok x, n) => outcome (k x) n
      | (.error h, n) => (.error h, n) := by
  change (StateT.bind a fun r => ExceptT.bindCont k r) m = _
  unfold StateT.bind outcome
  rcases a m with ⟨h | x, n⟩ <;> rfl

theorem outcome_bind_of_ok {a : Stateful ε σ α} {x : α} {m n : σ} (h : outcome a m = (.ok x, n))
    (k : α → Stateful ε σ β) : outcome (a >>= k) m = outcome (k x) n := by
  rw [outcome_bind, h]

theorem outcome_bind_of_error {a : Stateful ε σ α} {e : ε} {m n : σ}
    (h : outcome a m = (.error e, n)) (k : α → Stateful ε σ β) :
    outcome (a >>= k) m = (.error e, n) := by
  rw [outcome_bind, h]

/-- A sequence gives a value just when its first part gives one from which the rest does. -/
theorem outcome_bind_ok {a : Stateful ε σ α} {k : α → Stateful ε σ β} {m m' : σ} {y : β} :
    outcome (a >>= k) m = (.ok y, m') ↔
      ∃ x n, outcome a m = (.ok x, n) ∧ outcome (k x) n = (.ok y, m') := by
  rw [outcome_bind]
  rcases outcome a m with ⟨h | x, n⟩
  · simp
  · constructor
    · intro h
      exact ⟨x, n, rfl, h⟩
    · rintro ⟨x, n, ⟨⟩, h⟩
      exact h

/-- A computation whose value is passed on in another form. -/
theorem outcome_bind_pure (a : Stateful ε σ α) (g : α → β) (m : σ) :
    outcome (a >>= fun x => pure (g x)) m = ((outcome a m).1.map g, (outcome a m).2) := by
  rw [outcome_bind]
  rcases outcome a m with ⟨e | x, n⟩
  · rfl
  · rfl

/-- Sequences have the same outcome when their first parts have, and the rest has after the value that these
give. -/
theorem outcome_bind_congr {a a' : Stateful ε σ α} {k k' : α → Stateful ε σ β}
    {m m' : σ} (first : outcome a m = outcome a' m')
    (rest : ∀ x n, outcome a m = (.ok x, n) → outcome (k x) n = outcome (k' x) n) :
    outcome (a >>= k) m = outcome (a' >>= k') m' := by
  rw [outcome_bind, outcome_bind, ← first]
  rcases given : outcome a m with ⟨h | x, n⟩
  · rfl
  · exact rest x n given

@[simp] theorem outcome_newObject (m : Machine) :
    outcome newObject m = (.ok m.nextObject, { m with nextObject := m.nextObject + 1 }) := rfl

@[simp] theorem outcome_newList (items : List Value) (m : Machine) :
    outcome (newList items) m =
      (.ok (.list m.nextObject items), { m with nextObject := m.nextObject + 1 }) := rfl

@[simp] theorem outcome_openContinuation (m : Machine) :
    outcome openContinuation m =
      (.ok m.continuations.size, { m with continuations := m.continuations.push true }) := rfl

/-- A continuation is spent whatever the outcome. -/
theorem outcome_spending (k : Nat) (a : Run α) (m : Machine) :
    outcome (spending k a) m =
      ((outcome a m).1, { (outcome a m).2 with
        continuations := (outcome a m).2.continuations.setIfInBounds k false }) := rfl

end Run

end SmallLisp
