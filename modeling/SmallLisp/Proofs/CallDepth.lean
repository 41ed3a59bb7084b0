import SmallLisp.Proofs.SettledForms
/-!
# Evaluation within a depth

Depth counts the activations of the evaluator that stand inside one another. One begins where a part of a form
is evaluated, and where an application or an expansion evaluates something. Where the evaluator goes on in
place none begins. A bound on the depth only withholds outcomes: what is settled within it is settled without.
-/
namespace SmallLisp

open Run

variable {m : Machine} {o : Outcome Value} {form : Value} {frame : FrameId}

namespace Calls

/-- One more step of every operation. Its loop goes on with the operations `outer`; those that it calls from within
are `inner`. -/
def nextWith (inner outer : Calls) : Calls where
  evaluate room form frame :=
    Form.evaluateBy (fun e => deeper room fun room => inner.evaluate room e frame) (outer.evaluate room)
      (outer.callInPlace room frame) room frame form
  apply := inner.application
  expand := inner.expansion

/-- The operations inside an activation that has some depth left. An evaluation is an activation of its own. -/
def inside (c : Nat → Calls) : (depth : Nat) → Calls
  | 0 => { c 0 with evaluate := fun _ _ _ => fail .tooDeep }
  | depth + 1 => { c (depth + 1) with evaluate := (c depth).evaluate }

namespace Approximates

variable {s : Slack} {inner inner' outer outer' : Calls} {c c' : Nat → Calls} {depth depth' : Nat}

theorem nextWith (hi : Approximates s inner inner') (ho : Approximates s outer outer') :
    Approximates s (inner.nextWith outer) (inner'.nextWith outer') where
  evaluate hroom form frame :=
    Form.evaluateBy_approximates (fun e => .deeper hroom fun _ _ hr => hi.evaluate hr e frame)
      (ho.evaluate hroom) (ho.callInPlace hroom frame) hroom frame form
  apply := hi.application
  expand := hi.expansion

/-- Less depth withholds more. -/
theorem inside (h : ∀ {d d'}, d ≤ d' → Approximates (.more 0) (c d) (c' d')) (le : depth ≤ depth') :
    Approximates (.more 0) (Calls.inside c depth) (Calls.inside c' depth') := by
  obtain ⟨_, apply, expand⟩ := h le
  cases depth with
  | zero =>
    cases depth' with
    | zero => exact ⟨fun _ _ _ => .halt trivial _, apply, expand⟩
    | succ depth' => exact ⟨fun _ _ _ => .halt trivial _, apply, expand⟩
  | succ depth =>
    obtain ⟨depth', rfl⟩ : ∃ d, depth' = d + 1 := ⟨depth' - 1, by omega⟩
    exact ⟨(h (Nat.le_of_succ_le_succ le)).evaluate, apply, expand⟩

theorem inside_left {c' : Calls} (h : ∀ d, Approximates (.more 0) (c d) c') :
    Approximates (.more 0) (Calls.inside c depth) c' := by
  cases depth with
  | zero => exact ⟨fun _ _ _ => .halt trivial _, (h 0).apply, (h 0).expand⟩
  | succ depth => exact ⟨(h depth).evaluate, (h (depth + 1)).apply, (h (depth + 1)).expand⟩

theorem inside_right {c' : Calls} (h : Approximates (.more 0) c' (c depth))
    (h' : Approximates (.more 0) c' (c (depth + 1))) : Approximates (.more 0) c' (Calls.inside c (depth + 1)) :=
  ⟨h.evaluate, h'.apply, h'.expand⟩

end Approximates

end Calls

/-- The operations with some steps and some depth left. -/
def callsWithin : (fuel depth : Nat) → Calls
  | 0, _ => .halted
  | fuel + 1, depth => .nextWith (.inside (callsWithin fuel) depth) (callsWithin fuel depth)

theorem callsWithin_approximates {fuel fuel' depth depth' : Nat} (hf : fuel ≤ fuel') (hd : depth ≤ depth') :
    Calls.Approximates (.more 0) (callsWithin fuel depth) (callsWithin fuel' depth') := by
  induction fuel generalizing fuel' depth depth' with
  | zero => exact Calls.halted_approximates _ _
  | succ fuel ih =>
    obtain ⟨fuel', rfl⟩ : ∃ n, fuel' = n + 1 := ⟨fuel' - 1, by omega⟩
    have below {d d' : Nat} (hd : d ≤ d') := ih (Nat.le_of_succ_le_succ hf) hd
    exact (Calls.Approximates.inside below hd).nextWith (below hd)

theorem callsWithin_approximates_calls (fuel depth : Nat) :
    Calls.Approximates (.more 0) (callsWithin fuel depth) (calls fuel) := by
  induction fuel generalizing depth with
  | zero => exact Calls.halted_approximates _ _
  | succ fuel ih => exact (Calls.Approximates.inside_left ih).nextWith (ih depth)

/-- Every activation takes a step, so as much depth as there are steps is no bound. -/
theorem calls_approximates_callsWithin {fuel depth : Nat} (le : fuel ≤ depth) :
    Calls.Approximates (.more 0) (calls fuel) (callsWithin fuel depth) := by
  induction fuel generalizing depth with
  | zero => exact Calls.halted_approximates _ _
  | succ fuel ih =>
    obtain ⟨depth, rfl⟩ : ∃ d, depth = d + 1 := ⟨depth - 1, by omega⟩
    have here := ih (Nat.le_of_succ_le le)
    exact (Calls.Approximates.inside_right (ih (Nat.le_of_succ_le_succ le)) here).nextWith here

/-- The value of a form when activations may stand inside this one to some depth only. -/
def evaluateWithin (depth : Nat) (form : Value) (frame : FrameId) : Limited Value :=
  fun fuel room => (callsWithin fuel depth).evaluate room form frame

theorem improving_evaluateWithin (depth : Nat) (form : Value) (frame : FrameId) :
    Improving (evaluateWithin depth form frame) :=
  fun hf hr => (callsWithin_approximates hf (Nat.le_refl depth)).evaluate hr form frame

/-- The bound on the depth is the one thing that keeps a settled evaluation from its outcome. -/
theorem settles_evaluate_iff_within :
    Settles (fun fuel room => evaluate fuel room form frame) m o ↔
      ∃ depth, Settles (evaluateWithin depth form frame) m o := by
  constructor
  · rintro ⟨fuel, room, ends, conclusive⟩
    have approximates := (calls_approximates_callsWithin (Nat.le_refl fuel)).evaluate (Nat.le_refl room) form frame
    exact ⟨fuel, fuel, room, approximates.outcome_eq ends conclusive, conclusive⟩
  · rintro ⟨depth, settles⟩
    refine settles.of_approximates fun fuel room => ⟨fuel, room, ?_⟩
    exact (callsWithin_approximates_calls fuel depth).evaluate (Nat.le_refl room) form frame

end SmallLisp
