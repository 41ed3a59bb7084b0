import SmallLisp.Proofs.Obedience
import SmallLisp.Proofs.Territory
/-!
# Patrolled runs

The operations are watched where each of them begins and where a form is about to bind its target. What they
are asked about lies in a territory as long as what they begin with does, so from there a watched run comes to
an event that the watch is set for, or it is the run itself and has stayed in the territory. This is shown form
by form for one step of each operation, and by induction for any number of steps.
-/
namespace SmallLisp

open Run

namespace Run

open Classical in
/-- Raises an alarm if an event occurs that the watch is set for. -/
noncomputable def check (stops : Event → Machine → Prop) (alarm : Alarm) (event : Event) : Run Unit :=
  fun m => if event.Occurs m ∧ stops event m then (.error (alarm event m), m) else (.ok (), m)

/-- The value that a binding form has got, and that it binds its target to unless it is an escape. -/
noncomputable def announced (stops : Event → Machine → Prop) (alarm : Alarm) (form : Value)
    (frame : FrameId) (v : Value) : Run Value := do
  if v.isEscape then return v
  check stops alarm (.binds form frame)
  return v

end Run

/-- One more step of every operation, watched where it begins and where it binds. -/
noncomputable def Calls.patrolled (stops : Event → Machine → Prop) (alarm : Alarm) (c : Calls) : Calls where
  evaluate room form frame := do
    check stops alarm (.evaluates form frame)
    Form.evaluateBy
      (fun e => deeper room (fun room => c.evaluate room e frame) >>= announced stops alarm form frame)
      (c.evaluate room) (c.callInPlace room frame) room frame form
  apply room procedure args caller := do
    check stops alarm (.applies procedure args)
    c.application room procedure args caller
  expand room form toplevel := do
    check stops alarm (.expands form toplevel)
    c.expansion room form toplevel

/-- The operations with some steps left, watched all along. -/
noncomputable def patrol (stops : Event → Machine → Prop) (alarm : Alarm) (fuel : Nat) : Calls :=
  Calls.iterate (Calls.patrolled stops alarm) fuel

namespace Territory

variable {T : Territory} {m n : Machine} {room : Nat} {frame : FrameId} {form : Value}

/-- No binding that a form is about to make is one that the watch is set for. -/
def Free (T : Territory) (form : Value) (frame : FrameId) (m : Machine) : Prop :=
  ∀ owner key, m.Binds form frame owner key → ¬ T.Stops (.binds form frame) m

namespace Heeds

variable {α : Type} {a : Run α} {b : Alarm → Run α} {Q : Machine → α → Prop}

theorem checked (event : Event) (hw : T.Within m) (admits : T.Admits m event)
    (h : (event.Occurs m → ¬ T.Stops event m) → T.Heeds m b a Q) :
    T.Heeds m (fun alarm => do check T.Stops alarm event; b alarm) a Q := by
  by_cases stops : event.Occurs m ∧ T.Stops event m
  · refine Or.inl ⟨event, m, .refl hw, admits, stops.1, stops.2, fun alarm => ?_⟩
    have halts : outcome (check T.Stops alarm event) m = (.error (alarm event m), m) := if_pos stops
    rw [outcome_bind_of_error halts]
  · have goes (alarm : Alarm) : outcome (do check T.Stops alarm event; b alarm) m = outcome (b alarm) m := by
      have passes : outcome (check T.Stops alarm event) m = (.ok (), m) := if_neg stops
      rw [outcome_bind_of_ok passes]
    rcases h fun occurs set => stops ⟨occurs, set⟩ with
      ⟨event', l, onward, admits', occurs, set, halts⟩ | ⟨same, rest⟩
    · exact Or.inl ⟨event', l, onward, admits', occurs, set, fun alarm => goes alarm ▸ halts alarm⟩
    · exact Or.inr ⟨fun alarm => (goes alarm).trans (same alarm), rest⟩

/-- The value of a part. Unless it is an escape the form may now bind its target to it. -/
theorem announced {a : Run Value} {b : Alarm → Run Value} (has : T.Has m frame)
    (h : T.Heeds m b a T.Holds) :
    T.Heeds m (fun alarm => b alarm >>= announced T.Stops alarm form frame) a
      fun n v => T.Holds n v ∧ (v.isEscape = false → T.Free form frame n) := by
  rw [← bind_pure a]
  refine h.bind fun n v onward holds => ?_
  have hw := onward.within
  unfold Run.announced
  cases here : v.isEscape with
  | true => exact same (.pure hw ⟨holds, fun no => by cases here.symm.trans no⟩)
  | false =>
    refine checked (.binds form frame) hw (has.mono onward.grown) fun free => same (.pure hw ⟨holds, ?_⟩)
    exact fun _ owner key binds => free ⟨owner, key, binds⟩

end Heeds

/-- A continuation is never what leads out, so what is held may be applied to a new one. -/
theorem owns (T : Territory) : T.regime.Owns :=
  fun _ _ _ body hw => .owner hw fun k n onward =>
    body n k (fun _ holds => holds.mono onward.grown) nofun onward.within

end Territory

namespace Form

open Territory

variable {T : Territory} {m : Machine} {room : Nat} {frame : FrameId} {form : Value}
  {nested : Alarm → Value → Run Value} {plain : Value → Run Value}

/-- The parts of a form are evaluated in the territory, each when the run has got to it. Unless one gives an escape,
the form may then bind its target. -/
def PartsHeed (T : Territory) (form : Value) (frame : FrameId) (nested : Alarm → Value → Run Value)
    (plain : Value → Run Value) : Prop :=
  ∀ m e, T.Within m → T.Has m frame → T.Holds m e → T.Heeds m (fun alarm => nested alarm e) (plain e)
    fun n v => T.Holds n v ∧ (v.isEscape = false → T.Free form frame n)

theorem PartsHeed.beside (parts : PartsHeed T form frame nested plain) :
    PartsBeside T.regime frame nested plain :=
  fun m e has he hw => (parts m e hw has he).mono fun _ _ h => h.1

theorem bindingParts_stays (hw : T.Within m) {parts : List Value} (hparts : ∀ e ∈ parts, T.Holds m e) :
    T.Stays m (bindingParts parts) fun n part => n = m ∧ parts = [part.1, part.2] ∧ T.Holds m part.2 := by
  unfold bindingParts
  split
  · exact .pure hw ⟨rfl, rfl, hparts _ (by simp)⟩
  · split
    · exact .fail hw _
    · exact .fail hw _

theorem define_heeds {i : Nat} {parts : List Value}
    (heeds : PartsHeed T (.list i (CoreKeyword.define.symbol :: parts)) frame nested plain)
    (hw : T.Within m) (has : T.Has m frame) (hparts : ∀ e ∈ parts, T.Holds m e) :
    T.Heeds m (fun alarm => define (nested alarm) room frame parts) (define plain room frame parts)
      (fun n next => next.Judged T.regime n) := by
  refine (Heeds.same (bindingParts_stays hw hparts)).bind fun n (target, e) _ hpart => ?_
  obtain ⟨rfl, rfl, he⟩ := hpart
  refine (heeds n e hw has he).bind fun l v onward hv => ?_
  cases here : v.isEscape with
  | true => exact .same (.pure onward.within hv.1)
  | false =>
    have bound : T.Stays l (Run.define room frame target v) fun _ _ => True :=
      define_stays onward.within (has.mono onward.grown) hv.1 (hv.2 here)
    exact (Heeds.same bound).bind fun k _ onward' _ => .same (.pure onward'.within (hv.1.mono onward'.grown))

theorem assign_heeds {i : Nat} {parts : List Value}
    (heeds : PartsHeed T (.list i (CoreKeyword.assign.symbol :: parts)) frame nested plain)
    (hw : T.Within m) (has : T.Has m frame) (hparts : ∀ e ∈ parts, T.Holds m e) :
    T.Heeds m (fun alarm => assign (nested alarm) room frame parts) (assign plain room frame parts)
      (fun n next => next.Judged T.regime n) := by
  refine (Heeds.same (bindingParts_stays hw hparts)).bind fun n (target, e) _ hpart => ?_
  obtain ⟨rfl, rfl, he⟩ := hpart
  refine (heeds n e hw has he).bind fun l v onward hv => ?_
  cases here : v.isEscape with
  | true => exact .same (.pure onward.within hv.1)
  | false =>
    have bound : T.Stays l (Run.assign room frame target v) fun _ _ => True :=
      assign_stays onward.within (has.mono onward.grown) hv.1 (hv.2 here)
    exact (Heeds.same bound).bind fun k _ onward' _ => .same (.pure onward'.within (T.hereditary k).unspecified)

theorem PartsHeed.binds (parts : PartsHeed T form frame nested plain) (has : T.Has m frame)
    (hform : T.Holds m form) : BindsBeside T.regime m nested plain room frame form where
  define i es same hw := by
    subst same
    exact define_heeds parts hw has fun e mem => Holds.list.mp hform e (by simp [mem])
  assign i es same hw := by
    subst same
    exact assign_heeds parts hw has fun e mem => Holds.list.mp hform e (by simp [mem])

end Form

namespace Calls

open Territory

variable {T : Territory} {c : Alarm → Calls} {c' : Calls}

/-- The parts of a form are announced to its watch. -/
theorem Obeys.partsHeed (h : Obeys T.regime c c') (room : Nat) (form : Value) (frame : FrameId) :
    Form.PartsHeed T form frame
      (fun alarm e => deeper room (fun room => (c alarm).evaluate room e frame) >>=
        announced T.Stops alarm form frame)
      fun e => deeper room fun room => c'.evaluate room e frame :=
  fun _ _ hw has he => .announced has (Regime.Beside.deeper (R := T.regime) (fun r => h.evaluate r has he) hw)

/-- One more step of each operation, watched. -/
theorem Obeys.patrolled (h : Obeys T.regime c c') :
    Obeys T.regime (fun alarm => (c alarm).patrolled T.Stops alarm) c'.next where
  evaluate {_ form frame} room has hform hw := by
    have parts := h.partsHeed room form frame
    refine .checked (.evaluates _ _) hw ⟨hform, has⟩ fun _ => ?_
    exact Form.evaluateBy_beside parts.beside (h.evaluate room) (h.callInPlace _) has hform (parts.binds has hform) hw
  apply room caller hprocedure hargs hw := .checked (.applies _ _) hw ⟨hprocedure, hargs⟩ fun _ =>
    h.application (fun _ => T.owns) caller hprocedure hargs hw
  expand room registers hform hw := .checked (.expands _ _) hw hform fun _ =>
    (h.expands fun holds => holds).expansion registers hform hw

/-- However many steps there are, the watched operations heed the territory. -/
theorem patrol_obeys (T : Territory) (fuel : Nat) :
    Obeys T.regime (fun alarm => patrol T.Stops alarm fuel) (calls fuel) := by
  induction fuel with
  | zero => exact .halted
  | succ fuel ih => exact ih.patrolled

end Calls

end SmallLisp
