import SmallLisp.Proofs.Expansion
/-!
# Where escapes may be

An escape is a value on its way out. The evaluator looks for it wherever it takes a value from an
evaluation. The expander does not: what a transformer gives is expanded further, and an escape stays as it
is in the tree. The guarded operations stop where a transformer gives an escape. They are the operations
otherwise, and they keep all code and data free of escapes.
-/
namespace SmallLisp

open Run

namespace Value

mutual

/-- Whether there is an escape anywhere in a value. -/
def hasEscape : Value → Bool
  | list _ items => anyEscape items
  | closure _ parameters body _ => parameters.hasEscape || body.hasEscape
  | escape .. => true
  | _ => false

def anyEscape : List Value → Bool
  | [] => false
  | v :: vs => v.hasEscape || anyEscape vs

end

theorem anyEscape_eq_false {vs : List Value} :
    anyEscape vs = false ↔ ∀ v ∈ vs, v.hasEscape = false := by
  induction vs with
  | nil => simp [anyEscape]
  | cons v vs ih => simp [anyEscape, ih]

theorem isEscape_eq_false {v : Value} (h : v.hasEscape = false) : v.isEscape = false := by
  cases v with
  | escape k w => cases h
  | _ => rfl

end Value

/-- No value holds an escape, and every continuation that is live before is live after and no other. -/
def escapeFree : Discipline where
  Good v := v.hasEscape = false
  Moves m n := (∀ k, n.isLive k = m.isLive k) ∧ m.continuations.size ≤ n.continuations.size
  hereditary := by
    refine ⟨fun _ => rfl, fun _ => rfl, fun _ => rfl, fun _ => rfl, fun _ => rfl, fun _ => rfl, rfl, ?_⟩
    intro i items
    exact Value.anyEscape_eq_false
  closure := by simp [Value.hasEscape]
  escape h := by cases h
  continuation _ := rfl
  primitive _ := rfl
  control _ := rfl
  trans h h' := ⟨fun k => (h'.1 k).trans (h.1 k), Nat.le_trans h.2 h'.2⟩
  quiet h := by simp [Machine.isLive, h.continuations]
  define _ _ _ := ⟨fun _ => rfl, Nat.le_refl _⟩
  frame _ _ _ := ⟨fun _ => rfl, Nat.le_refl _⟩
  owner {m n} h := by
    obtain ⟨live, size⟩ := h
    rw [Array.size_push] at size
    refine ⟨fun k => ?_, by simp; omega⟩
    have same := live k
    unfold Machine.isLive at same ⊢
    simp only [Array.getD_eq_getD_getElem?, Array.getElem?_push] at same
    simp only [Array.getD_eq_getD_getElem?, Array.getElem?_setIfInBounds]
    by_cases own : k = m.continuations.size
    · subst own
      have inside : m.continuations.size < n.continuations.size := by omega
      simp [inside]
    · rw [if_neg own] at same
      rw [if_neg (Ne.symm own)]
      exact same

theorem escapeFree_registers : escapeFree.Registers :=
  fun _ _ => ⟨fun _ => rfl, Nat.le_refl _⟩

namespace Calls

variable {c c' : Calls}

/-- The operations with an application that stops at an escape. -/
def guarded (c : Calls) : Calls :=
  { c with
    apply := fun room procedure args caller => do
      let v ← c.apply room procedure args caller
      if v.isEscape then throw .outOfSteps else return v }

/-- One more step; only expansion is guarded. -/
def guardedNext (c : Calls) : Calls :=
  ⟨c.evaluation, c.application, c.guarded.expansion⟩

namespace Approximates

theorem guarded_left (h : Approximates .none c c') : Approximates .none c.guarded c' := by
  refine ⟨h.evaluate, ?_, h.expand⟩
  intro room room' fits procedure args caller m
  have run : outcome (c.guarded.apply room procedure args caller) m = _ := outcome_bind _ _ _
  rcases h.apply fits procedure args caller m with ⟨e, n, ends, early⟩ | same
  · rw [run, ends]
    exact Or.inl ⟨e, n, rfl, early⟩
  · rw [run, ← same]
    rcases outcome (c.apply room procedure args caller) m with ⟨e | v, n⟩
    · exact Or.inr rfl
    · dsimp only
      split
      · exact Or.inl ⟨_, n, rfl, rfl⟩
      · exact Or.inr rfl

theorem guardedNext (h : Approximates .none c c') : Approximates .none c.guardedNext c'.next :=
  ⟨h.evaluation, h.application, h.guarded_left.expansion⟩

end Approximates

end Calls

/-- The operations that stop where a transformer gives an escape. -/
def guardedCalls (fuel : Nat) : Calls :=
  Calls.iterate Calls.guardedNext fuel

/-- But for that stop nothing differs, the room included. -/
theorem guardedCalls_approximates (fuel : Nat) :
    Calls.Approximates .none (guardedCalls fuel) (calls fuel) := by
  induction fuel with
  | zero => exact Calls.halted_approximates .none _
  | succ fuel ih => exact ih.guardedNext

/-- What a guarded call of a transformer gives is no escape. -/
theorem Calls.Respects.guarded {c : Calls} (h : Respects escapeFree c) :
    Expands escapeFree.regime (fun _ => c.guarded) c.guarded where
  expand := h.obeys.expand
  transform room hprocedure hargs := by
    refine (h.obeys.apply room _ hprocedure hargs).bind fun n _ v final => ?_
    cases here : v.isEscape with
    | true => exact Regime.throw_beside _
    | false => exact Regime.pure_beside (final.good here)
  evaluate room _ hform := h.obeys.evaluate room trivial hform

/-- Every call that a guarded run makes on code and data without escapes keeps them so. -/
theorem guardedCalls_respects (fuel : Nat) : Calls.Respects escapeFree (guardedCalls fuel) := by
  induction fuel with
  | zero => exact Calls.Respects.halted
  | succ fuel ih =>
    exact .of_obeys {
      evaluate := fun _ here hform => ih.obeys.evaluation escapeFree.regime_bindsFreely here hform
      apply := fun _ caller hp hargs => ih.obeys.application (fun _ => escapeFree.regime_owns) caller hp hargs
      expand := fun _ registers hform => ih.guarded.expansion registers hform }

/-- Where the guarded operations stop, the expander gives the escape for a core form. -/
theorem expand_of_escaped_use {fuel room i k : Nat} {head t v : Value} {rest : List Value}
    {toplevel : Bool} {m n : Machine} (noKeyword : Keyword.ofHead? head = none)
    (found : m.transformerOf? head = some t)
    (escaped : (deeper room fun room => apply fuel room t rest Machine.root).Ends m (.escape k v) n) :
    (expand (fuel + 1) room (.list i (head :: rest)) toplevel).Ends m (.escape k v) n := by
  refine expand_succ_ends.mpr (.use noKeyword found escaped ?_)
  obtain ⟨room, rfl, escaped⟩ := ends_deeper.mp escaped
  cases fuel with
  | zero => cases escaped
  | succ fuel =>
    have atom : Expansion (calls fuel) room false (.escape k v) n (.escape k v) n :=
      .atom fun _ _ => nofun
    exact expand_succ_ends.mpr atom

end SmallLisp
