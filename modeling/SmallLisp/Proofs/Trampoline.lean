import SmallLisp.Proofs.Settling
/-!
# Evaluation without a loop

The evaluator continues in place where a form is in tail position and where it applies a closure. The
plain evaluator makes a nested call at each of these places and has one way of applying a procedure. Both
give the same outcomes, limits apart, and so do a direct application and `apply` on a list.
-/
namespace SmallLisp

open Run

namespace Calls

/-- One more step of the operations when evaluation has no loop. -/
def plainly (c : Calls) : Calls :=
  { c.next with
    evaluate := fun room form frame =>
      Form.evaluateBy (fun e => deeper room fun room => c.evaluate room e frame)
        (fun e frame => deeper room fun room => c.evaluate room e frame)
        (fun procedure args => deeper room fun room => c.apply room procedure args frame)
        room frame form }

end Calls

/-- The operations when evaluation has no loop. -/
def plainCalls (fuel : Nat) : Calls :=
  Calls.iterate Calls.plainly fuel

theorem Calls.Approximates.plainly {c c' : Calls} {s : Slack} (h : Approximates s c c') :
    Approximates s c.plainly c'.plainly where
  evaluate hroom form frame :=
    Form.evaluateBy_approximates (fun e => .deeper hroom fun _ _ hr => h.evaluate hr e frame)
      (fun e frame => .deeper hroom fun _ _ hr => h.evaluate hr e frame)
      (fun p args => .deeper hroom fun _ _ hr => h.apply hr p args frame) hroom frame form
  apply := h.application
  expand := h.expansion

theorem plainCalls_approximates {fuel fuel' : Nat} (h : fuel ≤ fuel') :
    Calls.Approximates (.more 0) (plainCalls fuel) (plainCalls fuel') :=
  Calls.iterate_approximates Calls.Approximates.plainly h

/-- A nested call is a call with less room. -/
theorem Run.Approximates.deeper_left {α : Type} {room : Nat} {go : Nat → Run α} {b : Run α}
    (h : ∀ r, r < room → Approximates Halt.IsEarly (go r) b) :
    Approximates Halt.IsEarly (Run.deeper room go) b := by
  cases room with
  | zero => exact .halt trivial _
  | succ room => exact h room (by omega)

/-- Two nested calls of the plain evaluator stand for one step of the loop, so twice the steps and as
many more levels of room suffice. -/
theorem calls_approximates_plainCalls (fuel : Nat) :
    Calls.Approximates (.more (2 * fuel)) (calls fuel) (plainCalls (2 * fuel)) := by
  induction fuel with
  | zero => exact Calls.halted_approximates _ _
  | succ fuel ih =>
    have one : Calls.Approximates (.more (2 * fuel)) (calls fuel) (plainCalls (2 * fuel + 1)) :=
      ih.trans (plainCalls_approximates (by omega))
    have rest := one.next
    -- Each step leaves over the two levels that its nested calls may take.
    have wider {room room' : Nat} (fits : (Slack.more (2 * (fuel + 1))).Fits room room') :
        room + 2 * fuel + 2 ≤ room' := by
      have le : room + 2 * (fuel + 1) ≤ room' := fits
      omega
    have narrower {room room' : Nat} (fits : (Slack.more (2 * (fuel + 1))).Fits room room') :
        (Slack.more (2 * fuel)).Fits room room' := by
      have le := wider fits
      change room + 2 * fuel ≤ room'
      omega
    constructor
    · intro room room' fits form frame
      have le := wider fits
      obtain ⟨room', rfl⟩ : ∃ r, room' = r + 2 := ⟨room' - 2, by omega⟩
      have here : (Slack.more (2 * fuel)).Fits room (room' + 1) := by
        change room + 2 * fuel ≤ room' + 1
        omega
      refine Form.evaluateBy_approximates ?_ ?_ ?_ (narrower fits) frame form
      · intro e
        exact .deeper (narrower fits) fun _ _ hr => one.evaluate hr e frame
      · intro e frame
        exact one.evaluate here e frame
      · intro procedure args
        change Run.Approximates _ ((calls fuel).callInPlace room frame procedure args)
          ((plainCalls (2 * fuel)).application (room' + 1) procedure args frame)
        cases procedure with
        | closure i parameters body home =>
          have inside : (Slack.more (2 * fuel)).Fits room room' := by
            change room + 2 * fuel ≤ room'
            omega
          exact .bind (newFrame_approximates here _ _ _) fun _ => ih.evaluate inside _ _
        | _ => exact one.apply here _ _ _
    · intro room room' fits
      exact rest.apply (narrower fits)
    · intro room room' fits
      exact rest.expand (narrower fits)

/-- A nested application is at best an application in place. -/
theorem plainCalls_apply_callInPlace (fuel : Nat)
    (h : ∀ n, n ≤ fuel → Calls.Approximates (.more 0) (plainCalls n) (calls n)) {r room : Nat}
    (hr : r ≤ room) (caller : FrameId) (procedure : Value) (args : List Value) :
    Run.Approximates Halt.IsEarly ((plainCalls fuel).apply r procedure args caller)
      ((calls fuel).callInPlace room caller procedure args) := by
  have fits : (Slack.more 0).Fits r room := hr
  cases procedure with
  | closure i parameters body home =>
    cases fuel with
    | zero => exact .halt trivial _
    | succ fuel =>
      refine .bind (newFrame_approximates fits _ _ _) fun inside => .deeper_left fun s hs => ?_
      have below : Calls.Approximates (.more 0) (plainCalls fuel) (calls (fuel + 1)) :=
        (h fuel (by omega)).trans (calls_approximates (s := .more 0) (Nat.le_succ fuel))
      have fits : (Slack.more 0).Fits s room := by
        change s ≤ room
        omega
      exact below.evaluate fits body inside
  | _ => exact (h fuel (Nat.le_refl _)).apply fits _ _ _

theorem plainCalls_approximates_calls (fuel : Nat) :
    Calls.Approximates (.more 0) (plainCalls fuel) (calls fuel) := by
  induction fuel using Nat.strongRecOn with
  | ind fuel ih =>
    cases fuel with
    | zero => exact Calls.halted_approximates _ _
    | succ fuel =>
      have below := ih fuel (Nat.lt_succ_self _)
      have rest := below.next
      refine ⟨?_, rest.apply, rest.expand⟩
      intro room room' hroom form frame
      have lower {r : Nat} (hr : r < room) : (Slack.more 0).Fits r room' := by
        have le : room ≤ room' := hroom
        change r ≤ room'
        omega
      refine Form.evaluateBy_approximates ?_ ?_ ?_ hroom frame form
      · intro e
        exact .deeper hroom fun _ _ hr => below.evaluate hr e frame
      · intro e frame
        exact .deeper_left fun r hr => below.evaluate (lower hr) e frame
      · intro procedure args
        refine .deeper_left fun r hr => ?_
        exact plainCalls_apply_callInPlace fuel (fun n hn => ih n (by omega)) (lower hr) _ _ _

theorem settles_evaluate_iff (form : Value) (frame : FrameId) (m : Machine) (o : Outcome Value) :
    Settles (fun fuel room => evaluate fuel room form frame) m o ↔
      Settles (fun fuel room => (plainCalls fuel).evaluate room form frame) m o := by
  constructor
  · exact Settles.of_approximates fun fuel room =>
      ⟨_, _, (calls_approximates_plainCalls fuel).evaluate (Nat.le_refl (room + 2 * fuel)) form frame⟩
  · exact Settles.of_approximates fun fuel room =>
      ⟨_, _, (plainCalls_approximates_calls fuel).evaluate (Nat.le_refl room) form frame⟩

theorem settles_apply_iff (procedure : Value) (args : List Value) (caller : FrameId) (m : Machine)
    (o : Outcome Value) :
    Settles (fun fuel room => apply fuel room procedure args caller) m o ↔
      Settles (fun fuel room => (plainCalls fuel).apply room procedure args caller) m o := by
  constructor
  · exact Settles.of_approximates fun fuel room =>
      ⟨_, _, (calls_approximates_plainCalls fuel).apply (Nat.le_refl (room + 2 * fuel)) procedure args caller⟩
  · exact Settles.of_approximates fun fuel room =>
      ⟨_, _, (plainCalls_approximates_calls fuel).apply (Nat.le_refl room) procedure args caller⟩

theorem settles_expand_iff (form : Value) (toplevel : Bool) (m : Machine) (o : Outcome Value) :
    Settles (fun fuel room => expand fuel room form toplevel) m o ↔
      Settles (fun fuel room => (plainCalls fuel).expand room form toplevel) m o := by
  constructor
  · exact Settles.of_approximates fun fuel room =>
      ⟨_, _, (calls_approximates_plainCalls fuel).expand (Nat.le_refl (room + 2 * fuel)) form toplevel⟩
  · exact Settles.of_approximates fun fuel room =>
      ⟨_, _, (plainCalls_approximates_calls fuel).expand (Nat.le_refl room) form toplevel⟩

end SmallLisp
