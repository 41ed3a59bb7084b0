import SmallLisp.Proofs.Raising
/-!
# Agreement along a run

Two families of operations that agree in the states which a discipline allows after a given one. Nothing
else is ever asked of them in a run from there, so one more step of each agrees as well. Under the
disciplines considered every value is good. The call that owns a continuation stands apart: its body begins
in a state that the discipline does not allow, one with a continuation opened.
-/
namespace SmallLisp

open Run

namespace Discipline

variable {α β : Type} {D : Discipline} {start : Machine} {room : Nat} {a b : Run α}

/-- Two computations have the same outcome wherever the discipline allows the state to have moved. -/
def Agree (D : Discipline) (start : Machine) (a b : Run α) : Prop :=
  ∀ m, D.Moves start m → outcome a m = outcome b m

theorem holds_of_all (all : ∀ v, D.Good v) (m : Machine) : D.Holds m :=
  ⟨fun _ _ _ => all _, fun _ _ => all _⟩

/-- To agree from a state on is to follow where the discipline leads from there. -/
def agreeing (D : Discipline) (start : Machine) : Regime Unit :=
  D.following (D.Moves start) (fun _ => False) D.Registers (fun moves here => D.trans here moves) id

namespace Agree

theorem refl (a : Run α) : D.Agree start a a := fun _ _ => rfl

theorem beside {m : Machine} {Q : Machine → α → Prop} (h : D.Agree start a b) (judged : D.judgement.Holds m b Q) :
    (D.agreeing start).Beside m (fun _ => a) b Q :=
  ⟨judged, fun _ here => Or.inr (h m here)⟩

theorem of_beside {Q : Machine → α → Prop} (all : ∀ v, D.Good v)
    (h : ∀ m, (D.agreeing start).Beside m (fun _ => a) b Q) : D.Agree start a b := by
  intro m moves
  rcases (h m).2 (holds_of_all all m) moves with ⟨_, _, _, never⟩ | same
  · exact never.elim
  · exact same

theorem deeper {go go' : Nat → Run α} (h : ∀ r, D.Agree start (go r) (go' r)) :
    D.Agree start (Run.deeper room go) (Run.deeper room go') := by
  cases room with
  | zero => exact fun _ _ => rfl
  | succ room => exact h room

end Agree

end Discipline

namespace Calls

open Discipline

/-- Two families of operations agree along a run. -/
structure Agree (D : Discipline) (start : Machine) (c c' : Calls) : Prop where
  evaluate : ∀ room form frame,
    D.Agree start (c.evaluate room form frame) (c'.evaluate room form frame)
  apply : ∀ room procedure args caller,
    D.Agree start (c.apply room procedure args caller) (c'.apply room procedure args caller)
  expand : ∀ room form toplevel,
    D.Agree start (c.expand room form toplevel) (c'.expand room form toplevel)

namespace Agree

theorem refl {D : Discipline} {start : Machine} (c : Calls) : Agree D start c c :=
  ⟨fun _ _ _ => .refl _, fun _ _ _ _ => .refl _, fun _ _ _ => .refl _⟩

variable {D : Discipline} {start : Machine} {c c' : Calls} {room : Nat} (all : ∀ v, D.Good v)
  (registers : D.Registers) (respects : Respects D c')
include respects

theorem obeys (h : Agree D start c c') : Obeys (D.agreeing start) (fun _ => c) c' where
  evaluate _ _ hform := (h.evaluate _ _ _).beside (respects.evaluate _ _ hform _)
  apply _ _ hprocedure hargs := (h.apply _ _ _ _).beside (respects.apply _ _ hprocedure hargs _)
  expand _ registers hform := (h.expand _ _ _).beside (respects.expand _ registers hform _)

include all

theorem evaluation (h : Agree D start c c') (form : Value) (frame : FrameId) :
    D.Agree start (c.evaluation room form frame) (c'.evaluation room form frame) :=
  .of_beside all fun _ => (h.obeys respects).evaluation D.regime_bindsFreely trivial (all form)

/-- The application of a procedure that owns no continuation. -/
theorem application (h : Agree D start c c') {procedure : Value} (args : List Value)
    (caller : FrameId) (notOwner : procedure ≠ .control .callWithEscape) :
    D.Agree start (c.application room procedure args caller)
      (c'.application room procedure args caller) :=
  .of_beside all fun _ =>
    (h.obeys respects).application (fun owner => absurd owner notOwner) caller (all _) fun _ _ => all _

include registers

theorem expansion (h : Agree D start c c') (form : Value) (toplevel : Bool) :
    D.Agree start (c.expansion room form toplevel) (c'.expansion room form toplevel) :=
  .of_beside all fun _ => ((h.obeys respects).expands fun _ => all _).expansion (fun _ => registers) (all form)

end Agree

/-- The body of a call that owns a continuation begins in a state with the continuation opened. -/
theorem outcome_application_owner (c : Calls) (room : Nat) (f : Value) (caller : FrameId)
    (m : Machine) :
    outcome (c.application room (.control .callWithEscape) [f] caller) m =
      outcome (do
        let v ← spending m.continuations.size
          (deeper room fun room => c.apply room f [.continuation m.continuations.size] caller)
        return v.received m.continuations.size) m.opened := rfl

theorem application_owner_agree {D : Discipline} {c c' : Calls} {m : Machine}
    (h : Agree D m.opened c c') (room : Nat) (args : List Value) (caller : FrameId) :
    outcome (c.application room (.control .callWithEscape) args caller) m =
      outcome (c'.application room (.control .callWithEscape) args caller) m := by
  rcases args with _ | ⟨f, _ | ⟨g, rest⟩⟩
  · rfl
  · rw [outcome_application_owner, outcome_application_owner]
    refine outcome_bind_congr ?_ fun _ _ _ => rfl
    rw [outcome_spending, outcome_spending]
    have body : D.Agree m.opened
        (deeper room fun room => c.apply room f [.continuation m.continuations.size] caller)
        (deeper room fun room => c'.apply room f [.continuation m.continuations.size] caller) :=
      .deeper fun r => h.apply r _ _ _
    rw [body m.opened (D.moves_refl m.opened)]
  · rfl

end Calls

end SmallLisp
