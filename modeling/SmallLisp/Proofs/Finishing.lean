import SmallLisp.Proofs.Application
/-!
# Finished runs

A run with some room finishes when enough steps bring it to an outcome. More steps do not change that
outcome. The room is part of the run, so a run that nests too deep finishes with that failure.
-/
namespace SmallLisp

open Run

variable {α β : Type}

/-- Goes on with a value; an escape stops the form. -/
def Run.passing (stop : Value → α) (a : Run Value) (k : Value → Run α) : Run α := do
  let v ← a
  if v.isEscape then return stop v
  k v

theorem Run.Approximates.passing {Early : Halt → Prop} {stop : Value → α} {a a' : Run Value}
    {k k' : Value → Run α} (ha : Approximates Early a a')
    (hk : ∀ v, v.isEscape = false → Approximates Early (k v) (k' v)) :
    Approximates Early (passing stop a k) (passing stop a' k') := by
  refine .bind ha fun v => ?_
  cases here : v.isEscape with
  | true => exact .refl _
  | false => exact hk v here

/-- The evaluation of a part of a form, one level deeper. -/
def Form.part (frame : FrameId) (room fuel : Nat) (e : Value) : Run Value :=
  deeper room fun room => evaluate fuel room e frame

/-- Enough steps bring a run to an outcome. -/
def Finishes (run : (fuel : Nat) → Run α) (m : Machine) (o : Outcome α) : Prop :=
  ∃ fuel, outcome (run fuel) m = o ∧ ¬ Stopped Slack.none.Early o

/-- More steps make a run a better approximation. -/
def Growing (run : (fuel : Nat) → Run α) : Prop :=
  ∀ fuel fuel', fuel ≤ fuel' → Approximates Slack.none.Early (run fuel) (run fuel')

namespace Growing

theorem const (a : Run α) : Growing fun _ => a := fun _ _ _ => .refl a

theorem bind {first : (fuel : Nat) → Run α} {rest : (fuel : Nat) → α → Run β}
    (hfirst : Growing first) (hrest : ∀ x, Growing fun fuel => rest fuel x) :
    Growing fun fuel => first fuel >>= rest fuel :=
  fun _ _ h => .bind (hfirst _ _ h) fun x => hrest x _ _ h

theorem deeper {run : (fuel room : Nat) → Run α} (h : ∀ room, Growing fun fuel => run fuel room)
    (room : Nat) : Growing fun fuel => deeper room (run fuel) := by
  intro fuel fuel' le
  cases room with
  | zero => exact .refl _
  | succ room => exact h room fuel fuel' le

theorem passing {stop : Value → α} {first : (fuel : Nat) → Run Value}
    {rest : (fuel : Nat) → Value → Run α} (hfirst : Growing first)
    (hrest : ∀ v, Growing fun fuel => rest fuel v) :
    Growing fun fuel => passing stop (first fuel) (rest fuel) :=
  fun _ _ h => .passing (hfirst _ _ h) fun v _ => hrest v _ _ h

end Growing

theorem growing_evaluate (room : Nat) (form : Value) (frame : FrameId) :
    Growing fun fuel => evaluate fuel room form frame :=
  fun _ _ h => (calls_approximates h).evaluate (.refl room) form frame

theorem growing_apply (room : Nat) (procedure : Value) (args : List Value) (caller : FrameId) :
    Growing fun fuel => apply fuel room procedure args caller :=
  fun _ _ h => (calls_approximates h).apply (.refl room) procedure args caller

theorem growing_part (frame : FrameId) (room : Nat) (e : Value) :
    Growing fun fuel => Form.part frame room fuel e :=
  .deeper (fun room => growing_evaluate room e frame) room

theorem growing_operandValues (es : List Value) (frame : FrameId) (room : Nat) :
    Growing fun fuel => operandValues es frame fuel room :=
  fun _ _ h => Form.operands_approximates (fun e => growing_part frame room e _ _ h) es

theorem growing_sequence (es : List Value) (frame : FrameId) (room : Nat) :
    Growing fun fuel => Form.sequence (Form.part frame room fuel) frame es :=
  fun _ _ h => Form.sequence_approximates (fun e => growing_part frame room e _ _ h) frame es

theorem growing_callInPlace (room : Nat) (caller : FrameId) (procedure : Value) (args : List Value) :
    Growing fun fuel => (calls fuel).callInPlace room caller procedure args :=
  fun _ _ h => (calls_approximates h).callInPlace (.refl room) caller procedure args

theorem growing_expand (room : Nat) (form : Value) (toplevel : Bool) :
    Growing fun fuel => expand fuel room form toplevel :=
  fun _ _ h => (calls_approximates h).expand (.refl room) form toplevel

namespace Finishes

variable {run run' : (fuel : Nat) → Run α} {m n : Machine} {o o' : Outcome α} {x : α}

theorem of_approximates
    (h : ∀ fuel, ∃ fuel', Approximates Slack.none.Early (run fuel) (run' fuel'))
    (finishes : Finishes run m o) : Finishes run' m o := by
  obtain ⟨fuel, ends, conclusive⟩ := finishes
  obtain ⟨fuel', approximates⟩ := h fuel
  exact ⟨fuel', approximates.outcome_eq ends conclusive, conclusive⟩

/-- From some number of steps on the outcome is there. -/
theorem eventually (growing : Growing run) (finishes : Finishes run m o) :
    ∃ fuel, ∀ fuel', fuel ≤ fuel' → outcome (run fuel') m = o := by
  obtain ⟨fuel, ends, conclusive⟩ := finishes
  exact ⟨fuel, fun _ h => (growing _ _ h).outcome_eq ends conclusive⟩

/-- A run finishes with one outcome at most. -/
theorem unique (growing : Growing run) (h : Finishes run m o) (h' : Finishes run m o') : o = o' := by
  obtain ⟨fuel, ends⟩ := h.eventually growing
  obtain ⟨fuel', ends'⟩ := h'.eventually growing
  exact (ends (max fuel fuel') (Nat.le_max_left ..)).symm.trans (ends' _ (Nat.le_max_right ..))

/-- What finishes does not depend on the last step. -/
theorem succ_iff (growing : Growing run) :
    Finishes (fun fuel => run (fuel + 1)) m o ↔ Finishes run m o := by
  constructor
  · rintro ⟨fuel, ends, conclusive⟩
    exact ⟨fuel + 1, ends, conclusive⟩
  · exact of_approximates fun fuel => ⟨fuel, growing _ _ (Nat.le_succ fuel)⟩

/-- A run that is done with its first part goes on with the rest. -/
theorem bind_iff {first : (fuel : Nat) → Run α} {rest : (fuel : Nat) → α → Run β} {o : Outcome β}
    (growingFirst : Growing first) (growingRest : ∀ x, Growing fun fuel => rest fuel x) :
    Finishes (fun fuel => first fuel >>= rest fuel) m o ↔
      (∃ x n, Finishes first m (.ok x, n) ∧ Finishes (fun fuel => rest fuel x) n o) ∨
      ∃ h n, Finishes first m (.error h, n) ∧ o = (.error h, n) := by
  constructor
  · rintro ⟨fuel, ends, conclusive⟩
    rcases hfirst : outcome (first fuel) m with ⟨h | x, n⟩
    · rw [outcome_bind_of_error hfirst] at ends
      subst ends
      exact Or.inr ⟨h, n, ⟨fuel, hfirst, mt Stopped.of_error conclusive⟩, rfl⟩
    · rw [outcome_bind_of_ok hfirst] at ends
      exact Or.inl ⟨x, n, ⟨fuel, hfirst, not_stopped_ok⟩, fuel, ends, conclusive⟩
  · rintro (⟨x, n, done, rest⟩ | ⟨h, n, ⟨fuel, ends, conclusive⟩, rfl⟩)
    · obtain ⟨fuel, ends⟩ := done.eventually growingFirst
      obtain ⟨fuel', hrest, conclusive⟩ := rest
      refine ⟨max fuel fuel', ?_, conclusive⟩
      rw [outcome_bind_of_ok (ends _ (Nat.le_max_left ..))]
      exact (growingRest x _ _ (Nat.le_max_right ..)).outcome_eq hrest conclusive
    · exact ⟨fuel, outcome_bind_of_error ends _, mt Stopped.of_error conclusive⟩

/-- What comes first can be taken as done. -/
theorem bind_ok {first : (fuel : Nat) → Run α} {rest : (fuel : Nat) → α → Run β} {o : Outcome β}
    (growingFirst : Growing first) (growingRest : ∀ x, Growing fun fuel => rest fuel x)
    (done : Finishes first m (.ok x, n)) :
    Finishes (fun fuel => first fuel >>= rest fuel) m o ↔ Finishes (fun fuel => rest fuel x) n o := by
  rw [bind_iff growingFirst growingRest]
  constructor
  · rintro (⟨y, l, hfirst, rest⟩ | ⟨h, l, hfirst, _⟩)
    · cases done.unique growingFirst hfirst
      exact rest
    · cases done.unique growingFirst hfirst
  · exact fun rest => Or.inl ⟨x, n, done, rest⟩

/-- Sequences finish alike when their first parts do and the rests do from there. -/
theorem bind_congr {first first' : (fuel : Nat) → Run α} {rest rest' : (fuel : Nat) → α → Run β}
    {o : Outcome β} (hf : Growing first) (hf' : Growing first')
    (hr : ∀ x, Growing fun fuel => rest fuel x) (hr' : ∀ x, Growing fun fuel => rest' fuel x)
    (same : ∀ o, Finishes first m o ↔ Finishes first' m o)
    (next : ∀ x n, Finishes first m (.ok x, n) →
      (Finishes (fun fuel => rest fuel x) n o ↔ Finishes (fun fuel => rest' fuel x) n o)) :
    Finishes (fun fuel => first fuel >>= rest fuel) m o ↔
      Finishes (fun fuel => first' fuel >>= rest' fuel) m o := by
  rw [bind_iff hf hr, bind_iff hf' hr']
  constructor
  · rintro (⟨x, n, done, go⟩ | ⟨h, n, failed, rfl⟩)
    · exact Or.inl ⟨x, n, (same _).mp done, (next x n done).mp go⟩
    · exact Or.inr ⟨h, n, (same _).mp failed, rfl⟩
  · rintro (⟨x, n, done, go⟩ | ⟨h, n, failed, rfl⟩)
    · have done := (same _).mpr done
      exact Or.inl ⟨x, n, done, (next x n done).mpr go⟩
    · exact Or.inr ⟨h, n, (same _).mpr failed, rfl⟩

/-- A value that is no escape is passed on. -/
theorem passing_ok {stop : Value → α} {first : (fuel : Nat) → Run Value}
    {rest : (fuel : Nat) → Value → Run α} {v : Value} (hf : Growing first)
    (hr : ∀ v, Growing fun fuel => rest fuel v) (done : Finishes first m (.ok v, n))
    (here : v.isEscape = false) :
    Finishes (fun fuel => passing stop (first fuel) (rest fuel)) m o ↔
      Finishes (fun fuel => rest fuel v) n o := by
  have ends : Finishes (fun fuel => passing stop (first fuel) (rest fuel)) m o ↔ _ :=
    bind_ok hf ?_ done
  · rw [ends, here]
    exact Iff.rfl
  · intro v
    cases v.isEscape with
    | true => exact .const _
    | false => exact hr v

theorem passing_congr {stop : Value → α} {first first' : (fuel : Nat) → Run Value}
    {rest rest' : (fuel : Nat) → Value → Run α} (hf : Growing first) (hf' : Growing first')
    (hr : ∀ v, Growing fun fuel => rest fuel v) (hr' : ∀ v, Growing fun fuel => rest' fuel v)
    (same : ∀ o, Finishes first m o ↔ Finishes first' m o)
    (next : ∀ v n, Finishes first m (.ok v, n) → v.isEscape = false →
      (Finishes (fun fuel => rest fuel v) n o ↔ Finishes (fun fuel => rest' fuel v) n o)) :
    Finishes (fun fuel => passing stop (first fuel) (rest fuel)) m o ↔
      Finishes (fun fuel => passing stop (first' fuel) (rest' fuel)) m o := by
  refine bind_congr hf hf' ?_ ?_ same fun v n done => ?_
  · intro v
    cases v.isEscape with
    | true => exact .const _
    | false => exact hr v
  · intro v
    cases v.isEscape with
    | true => exact .const _
    | false => exact hr' v
  · cases here : v.isEscape with
    | true => exact Iff.rfl
    | false => exact next v n done here

/-- What is no stop comes from the rest, after a value that is no escape. -/
theorem of_passing {stop : Value → α} {first : (fuel : Nat) → Run Value}
    {rest : (fuel : Nat) → Value → Run α} (goes : ∀ v, v.isEscape = true → stop v ≠ x)
    (h : Finishes (fun fuel => passing stop (first fuel) (rest fuel)) m (.ok x, n)) :
    ∃ v l, Finishes first m (.ok v, l) ∧ v.isEscape = false ∧
      Finishes (fun fuel => rest fuel v) l (.ok x, n) := by
  obtain ⟨fuel, ends, conclusive⟩ := h
  obtain ⟨v, l, hfirst, ends⟩ := outcome_bind_ok.mp ends
  cases here : v.isEscape with
  | true =>
    rw [here] at ends
    cases ends
    exact absurd rfl (goes v here)
  | false =>
    rw [here] at ends
    exact ⟨v, l, ⟨fuel, hfirst, not_stopped_ok⟩, here, fuel, ends, conclusive⟩

theorem of_deeper {run : (fuel room : Nat) → Run α} {room : Nat}
    (h : Finishes (fun fuel => Run.deeper room (run fuel)) m (.ok x, n)) :
    ∃ r, room = r + 1 ∧ Finishes (fun fuel => run fuel r) m (.ok x, n) := by
  cases room with
  | zero =>
    obtain ⟨fuel, ends, _⟩ := h
    cases ends
  | succ room => exact ⟨room, rfl, h⟩

end Finishes

end SmallLisp
