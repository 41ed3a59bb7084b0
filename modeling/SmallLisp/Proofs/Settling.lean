import SmallLisp.Proofs.Levels
/-!
# Settled runs

With enough steps and room a run settles on an outcome. More of either does not change it, so runs with
different demands can be given the same limits.
-/
namespace SmallLisp

open Run

variable {α β : Type}

/-- With enough steps and room a run settles on an outcome, which no limit brought about. -/
def Settles (run : (fuel room : Nat) → Run α) (m : Machine) (o : Outcome α) : Prop :=
  ∃ fuel room, outcome (run fuel room) m = o ∧ ¬ o.IsEarly

/-- More steps and more room make a run a better approximation. -/
def Improving (run : (fuel room : Nat) → Run α) : Prop :=
  ∀ {fuel fuel' room room'}, fuel ≤ fuel' → room ≤ room' →
    Approximates Halt.IsEarly (run fuel room) (run fuel' room')

namespace Settles

variable {run run' : (fuel room : Nat) → Run α} {m : Machine} {o o' : Outcome α}

theorem of_approximates
    (h : ∀ fuel room, ∃ fuel' room', Approximates Halt.IsEarly (run fuel room) (run' fuel' room'))
    (settles : Settles run m o) : Settles run' m o := by
  obtain ⟨fuel, room, ends, conclusive⟩ := settles
  obtain ⟨fuel', room', approximates⟩ := h fuel room
  exact ⟨fuel', room', approximates.outcome_eq ends conclusive, conclusive⟩

/-- From some limits on the outcome is there. -/
theorem eventually (improving : Improving run) (settles : Settles run m o) :
    ∃ fuel room, ∀ fuel' room', fuel ≤ fuel' → room ≤ room' → outcome (run fuel' room') m = o := by
  obtain ⟨fuel, room, ends, conclusive⟩ := settles
  exact ⟨fuel, room, fun _ _ hf hr => (improving hf hr).outcome_eq ends conclusive⟩

/-- With any limits a run has that outcome, unless it is stopped by them. -/
theorem early_or_eq (improving : Improving run) (settles : Settles run m o) (fuel room : Nat) :
    Outcome.IsEarly (outcome (run fuel room) m) ∨ outcome (run fuel room) m = o := by
  obtain ⟨fuel', room', ends⟩ := settles.eventually improving
  have later := ends (max fuel fuel') (max room room') (Nat.le_max_right ..) (Nat.le_max_right ..)
  rw [← later]
  exact improving (Nat.le_max_left ..) (Nat.le_max_left ..) m

/-- A run settles on one outcome at most. -/
theorem unique (improving : Improving run) (h : Settles run m o) (h' : Settles run m o') :
    o = o' := by
  obtain ⟨fuel, room, ends⟩ := h.eventually improving
  obtain ⟨fuel', room', ends'⟩ := h'.eventually improving
  have left := ends (max fuel fuel') (max room room') (by omega) (by omega)
  have right := ends' (max fuel fuel') (max room room') (by omega) (by omega)
  exact left.symm.trans right

/-- A run that settles does so in what comes first. -/
theorem first {a : (fuel room : Nat) → Run α} {k : (fuel room : Nat) → α → Run β} {o : Outcome β}
    (settles : Settles (fun fuel room => a fuel room >>= k fuel room) m o) : ∃ o, Settles a m o := by
  obtain ⟨fuel, room, rfl, conclusive⟩ := settles
  refine ⟨outcome (a fuel room) m, fuel, room, rfl, ?_⟩
  rintro ⟨h, n, ended, limit⟩
  rw [outcome_bind_of_error ended] at conclusive
  exact conclusive ⟨h, n, rfl, limit⟩

/-- What comes first can be taken as done. -/
theorem bind_iff {first : (fuel room : Nat) → Run α} {rest : (fuel room : Nat) → α → Run β}
    {x : α} {n : Machine} {o : Outcome β} (improvingFirst : Improving first)
    (improvingRest : Improving fun fuel room => rest fuel room x)
    (done : Settles first m (.ok x, n)) :
    Settles (fun fuel room => first fuel room >>= rest fuel room) m o ↔
      Settles (fun fuel room => rest fuel room x) n o := by
  obtain ⟨fuel₀, room₀, ends⟩ := done.eventually improvingFirst
  constructor
  · rintro ⟨fuel, room, hrun, conclusive⟩
    obtain early | same := improvingFirst (Nat.le_max_left fuel fuel₀) (Nat.le_max_left room room₀) m
    · obtain ⟨h, n', hfirst, limit⟩ := early
      rw [outcome_bind_of_error hfirst] at hrun
      exact absurd ⟨h, n', hrun.symm, limit⟩ conclusive
    · rw [ends _ _ (Nat.le_max_right ..) (Nat.le_max_right ..)] at same
      rw [outcome_bind_of_ok same] at hrun
      exact ⟨fuel, room, hrun, conclusive⟩
  · rintro ⟨fuel, room, hrun, conclusive⟩
    refine ⟨max fuel fuel₀, max room room₀, ?_, conclusive⟩
    rw [outcome_bind_of_ok (ends _ _ (Nat.le_max_right ..) (Nat.le_max_right ..))]
    exact (improvingRest (Nat.le_max_left ..) (Nat.le_max_left ..)).outcome_eq hrun conclusive

end Settles

theorem improving_evaluate (form : Value) (frame : FrameId) :
    Improving fun fuel room => evaluate fuel room form frame :=
  fun hf hr => (calls_approximates (s := .more 0) hf).evaluate hr form frame

theorem improving_apply (procedure : Value) (args : List Value) (caller : FrameId) :
    Improving fun fuel room => apply fuel room procedure args caller :=
  fun hf hr => (calls_approximates (s := .more 0) hf).apply hr procedure args caller

theorem improving_expand (form : Value) (toplevel : Bool) :
    Improving fun fuel room => expand fuel room form toplevel :=
  fun hf hr => (calls_approximates (s := .more 0) hf).expand hr form toplevel

theorem improving_callInPlace (caller : FrameId) (procedure : Value) (args : List Value) :
    Improving fun fuel room => (calls fuel).callInPlace room caller procedure args :=
  fun hf hr => (calls_approximates (s := .more 0) hf).callInPlace hr caller procedure args

/-- The operands of a form in a frame. -/
def operandValues (es : List Value) (frame : FrameId) (fuel room : Nat) : Run Operands :=
  Form.operands (fun e => deeper room fun room => evaluate fuel room e frame) es

theorem improving_operandValues (es : List Value) (frame : FrameId) :
    Improving (operandValues es frame) :=
  fun hf hr => Form.operands_approximates (s := .more 0)
    (fun e => .deeper hr fun _ _ h => (calls_approximates hf).evaluate h e frame) es

end SmallLisp
