import SmallLisp.Proofs.Room
/-!
# The operations level by level

With no step left every operation is out of steps; with one more, each is one step over the calls of the
level below. Other families of operations are built in the same way from other steps. A step over
calls that approximate others approximates the step over those, so limits are monotone at every level.
-/
namespace SmallLisp

open Run

namespace Form

variable {nested nested' : Value → Run Value} {tail tail' : Value → FrameId → Run Value}
  {call call' : Value → List Value → Run Value} {s : Slack} {room room' : Nat}

theorem operands_approximates (h : ∀ e, Approximates s.Early (nested e) (nested' e)) (es : List Value) :
    Approximates s.Early (operands nested es) (operands nested' es) := by
  induction es with
  | nil => exact Approximates.refl _
  | cons e es ih =>
    refine Approximates.bind (h e) fun v => ?_
    split
    · exact Approximates.refl _
    · exact Approximates.bind ih fun _ => Approximates.refl _

theorem sequence_approximates (h : ∀ e, Approximates s.Early (nested e) (nested' e)) (frame : FrameId)
    (es : List Value) : Approximates s.Early (sequence nested frame es) (sequence nested' frame es) := by
  induction es with
  | nil => exact Approximates.refl _
  | cons e es ih =>
    cases es with
    | nil => exact Approximates.refl _
    | cons e' es =>
      refine Approximates.bind (h e) fun v => ?_
      split
      · exact Approximates.refl _
      · exact ih

theorem test_approximates (h : ∀ e, Approximates s.Early (nested e) (nested' e)) (frame : FrameId)
    (parts : List Value) : Approximates s.Early (test nested frame parts) (test nested' frame parts) := by
  cases parts with
  | nil => exact Approximates.refl _
  | cons condition branches => exact Approximates.bind (h condition) fun _ => Approximates.refl _

theorem define_approximates (h : ∀ e, Approximates s.Early (nested e) (nested' e)) (hroom : s.Fits room room')
    (frame : FrameId) (parts : List Value) :
    Approximates s.Early (define nested room frame parts) (define nested' room' frame parts) := by
  refine Approximates.bind (Approximates.refl _) fun (target, e) =>
    Approximates.bind (h e) fun v => ?_
  split
  · exact Approximates.refl _
  · exact Approximates.bind (Run.define_approximates hroom frame target v) fun _ =>
      Approximates.refl _

theorem assign_approximates (h : ∀ e, Approximates s.Early (nested e) (nested' e)) (hroom : s.Fits room room')
    (frame : FrameId) (parts : List Value) :
    Approximates s.Early (assign nested room frame parts) (assign nested' room' frame parts) := by
  refine Approximates.bind (Approximates.refl _) fun (target, e) =>
    Approximates.bind (h e) fun v => ?_
  split
  · exact Approximates.refl _
  · exact Approximates.bind (Run.assign_approximates hroom frame target v) fun _ =>
      Approximates.refl _

theorem step_approximates (h : ∀ e, Approximates s.Early (nested e) (nested' e)) (hroom : s.Fits room room')
    (frame : FrameId) (k : CoreKeyword) (parts : List Value) :
    Approximates s.Early (step nested room frame k parts) (step nested' room' frame k parts) := by
  cases k with
  | quote => exact Approximates.refl _
  | test => exact test_approximates h frame parts
  | assign => exact assign_approximates h hroom frame parts
  | define => exact define_approximates h hroom frame parts
  | lambda => exact Approximates.refl _
  | sequence => exact sequence_approximates h frame parts

theorem evaluateBy_approximates (hn : ∀ e, Approximates s.Early (nested e) (nested' e))
    (ht : ∀ e f, Approximates s.Early (tail e f) (tail' e f))
    (hc : ∀ p args, Approximates s.Early (call p args) (call' p args)) (hroom : s.Fits room room')
    (frame : FrameId) (form : Value) :
    Approximates s.Early (evaluateBy nested tail call room frame form)
      (evaluateBy nested' tail' call' room' frame form) := by
  unfold evaluateBy
  split
  · exact lookup_approximates hroom frame _
  · exact Approximates.refl _
  · split
    · refine Approximates.bind (step_approximates hn hroom frame _ _) fun next => ?_
      cases next with
      | done v => exact Approximates.refl _
      | tail form frame => exact ht form frame
    · refine Approximates.bind (operands_approximates hn _) fun vs => ?_
      split
      · exact Approximates.refl _
      · exact hc _ _
      · exact Approximates.refl _
  · exact Approximates.refl _

end Form

namespace Calls

/-- Operations without a step left. -/
def halted : Calls :=
  ⟨fun _ _ _ => throw .outOfSteps, fun _ _ _ _ => throw .outOfSteps,
    fun _ _ _ => throw .outOfSteps⟩

def iterate (step : Calls → Calls) : Nat → Calls
  | 0 => halted
  | fuel + 1 => step (iterate step fuel)

/-- One more step of every operation. -/
def next (c : Calls) : Calls :=
  ⟨c.evaluation, c.application, c.expansion⟩

/-- The second operations have the room that the slack gives them, and then approximate the first. -/
structure Approximates (s : Slack) (c c' : Calls) : Prop where
  evaluate : ∀ {room room'}, s.Fits room room' → ∀ form frame,
    Run.Approximates s.Early (c.evaluate room form frame) (c'.evaluate room' form frame)
  apply : ∀ {room room'}, s.Fits room room' → ∀ procedure args caller,
    Run.Approximates s.Early (c.apply room procedure args caller)
      (c'.apply room' procedure args caller)
  expand : ∀ {room room'}, s.Fits room room' → ∀ form toplevel,
    Run.Approximates s.Early (c.expand room form toplevel) (c'.expand room' form toplevel)

variable {c c' : Calls} {s : Slack} {room room' : Nat}

theorem halted_approximates (s : Slack) (c : Calls) : Approximates s halted c :=
  ⟨fun _ _ _ => Run.Approximates.outOfSteps _, fun _ _ _ _ => Run.Approximates.outOfSteps _,
    fun _ _ _ => Run.Approximates.outOfSteps _⟩

namespace Approximates

theorem callInPlace (h : Approximates s c c') (hroom : s.Fits room room')
    (caller : FrameId) (procedure : Value) (args : List Value) :
    Run.Approximates s.Early (c.callInPlace room caller procedure args)
      (c'.callInPlace room' caller procedure args) := by
  unfold Calls.callInPlace
  split
  · exact .bind (newFrame_approximates hroom _ _ _) fun _ => h.evaluate hroom _ _
  · exact h.apply hroom _ _ _

theorem evaluation (h : Approximates s c c') (hroom : s.Fits room room')
    (form : Value) (frame : FrameId) :
    Run.Approximates s.Early (c.evaluation room form frame) (c'.evaluation room' form frame) :=
  Form.evaluateBy_approximates (fun e => .deeper hroom fun _ _ hr => h.evaluate hr e frame)
    (h.evaluate hroom) (h.callInPlace hroom frame) hroom frame form

theorem application (h : Approximates s c c') (hroom : s.Fits room room')
    (procedure : Value) (args : List Value) (caller : FrameId) :
    Run.Approximates s.Early (c.application room procedure args caller)
      (c'.application room' procedure args caller) := by
  unfold Calls.application
  split
  · exact .bind (newFrame_approximates hroom _ _ _) fun inside =>
      .deeper hroom fun _ _ hr => h.evaluate hr _ _
  · exact .refl _
  · refine .bind (.refl _) fun (f, operands) => ?_
    exact .bind (listOperand_approximates hroom _ _) fun operands =>
      .deeper hroom fun _ _ hr => h.apply hr _ _ _
  · refine .bind (.refl _) fun form => ?_
    exact .bind (.deeper hroom fun _ _ hr => h.expand hr _ _) fun core =>
      .deeper hroom fun _ _ hr => h.evaluate hr _ _
  · refine .bind (.refl _) fun f => .bind (.refl _) fun k => ?_
    exact .bind (.spending k (.deeper hroom fun _ _ hr => h.apply hr _ _ _)) fun v => .refl _
  · exact Primitive.run_approximates _ hroom _
  · exact .bind (source_approximates hroom _) fun _ => .refl _

theorem definition (h : Approximates s c c') (hroom : s.Fits room room')
    (form head : Value) (rest : List Value) (toplevel : Bool) :
    Run.Approximates s.Early (c.definition room form head rest toplevel)
      (c'.definition room' form head rest toplevel) := by
  unfold Calls.definition
  dsimp only
  split
  · exact Form.refuse_approximates hroom _ _
  · refine .bind (Form.require_approximates hroom _ _ _) fun _ => ?_
    refine .bind (.refl _) fun parameters => .bind (.refl _) fun closure => ?_
    exact .bind (.refl _) fun plain => .deeper hroom fun _ _ hr => h.expand hr _ _
  · refine .bind (.deeper hroom fun _ _ hr => h.expand hr _ _) fun core => ?_
    split
    · refine .bind (Form.require_approximates hroom _ _ _) fun _ => ?_
      refine .bind (.deeper hroom fun _ _ hr => h.evaluate hr _ _) fun transformer => ?_
      exact .bind (Form.require_approximates hroom _ _ _) fun _ => .refl _
    · exact .refl _
  · exact Form.refuse_approximates hroom _ _
  · exact Form.refuse_approximates hroom _ _

theorem expansion (h : Approximates s c c') (hroom : s.Fits room room')
    (form : Value) (toplevel : Bool) :
    Run.Approximates s.Early (c.expansion room form toplevel)
      (c'.expansion room' form toplevel) := by
  have inner (toplevel : Bool) (e : Value) :
      Run.Approximates s.Early (deeper room fun room => c.expand room e toplevel)
        (deeper room' fun room => c'.expand room e toplevel) :=
    .deeper hroom fun _ _ hr => h.expand hr _ _
  have list (toplevel : Bool) (es : List Value) : Run.Approximates s.Early
      (es.mapM (fun e => deeper room fun room => c.expand room e toplevel) >>= newList)
      (es.mapM (fun e => deeper room' fun room => c'.expand room e toplevel) >>= newList) :=
    .bind (.mapM es (inner toplevel)) fun _ => .refl _
  unfold Calls.expansion
  dsimp only
  split
  · exact Form.refuse_approximates hroom _ _
  · split
    · exact .bind (Form.require_approximates hroom _ _ _) fun _ => .refl _
    · split
      · exact list false _
      · exact list false _
      · exact Form.refuse_approximates hroom _ _
    · split
      · exact .bind (Form.require_approximates hroom _ _ _) fun _ =>
          .bind (inner false _) fun _ => .refl _
      · exact Form.refuse_approximates hroom _ _
    · exact h.definition hroom _ _ _ _
    · exact h.definition hroom _ _ _ _
    · split
      · exact .refl _
      · exact list toplevel _
    · split
      · exact .bind (Form.require_approximates hroom _ _ _) fun _ => .bind (.refl _) fun _ =>
          .bind (inner false _) fun _ => .refl _
      · exact Form.refuse_approximates hroom _ _
    · split
      · exact .bind (Form.ofTemplate_approximates hroom _) fun _ => inner false _
      · exact Form.refuse_approximates hroom _ _
    · refine .bind (.refl _) fun transformer => ?_
      cases transformer with
      | some transformer =>
        exact .bind (.deeper hroom fun _ _ hr => h.apply hr _ _ _) fun _ => inner false _
      | none => exact list false _
  · exact .refl _

/-- One more step on both sides. -/
theorem next (h : Approximates s c c') : Approximates s c.next c'.next :=
  ⟨h.evaluation, h.application, h.expansion⟩

theorem trans {c'' : Calls} {offset offset' : Nat} (h : Approximates (.more offset) c c')
    (h' : Approximates (.more offset') c' c'') : Approximates (.more (offset + offset')) c c'' := by
  have between {room room' : Nat} (fits : (Slack.more (offset + offset')).Fits room room') :
      (Slack.more offset').Fits (room + offset) room' := by
    have le : room + (offset + offset') ≤ room' := fits
    change room + offset + offset' ≤ room'
    omega
  have first (room : Nat) : (Slack.more offset).Fits room (room + offset) := Nat.le_refl _
  constructor
  · intro room room' fits form frame
    exact (h.evaluate (first room) form frame).trans (h'.evaluate (between fits) form frame)
  · intro room room' fits procedure args caller
    exact (h.apply (first room) procedure args caller).trans (h'.apply (between fits) _ _ _)
  · intro room room' fits form toplevel
    exact (h.expand (first room) form toplevel).trans (h'.expand (between fits) _ _)

end Approximates

/-- A step that keeps approximation makes every level approximate the levels above it. -/
theorem iterate_approximates {step : Calls → Calls}
    (hstep : ∀ {c c'}, Approximates s c c' → Approximates s (step c) (step c'))
    {fuel fuel' : Nat} (h : fuel ≤ fuel') :
    Approximates s (iterate step fuel) (iterate step fuel') := by
  induction fuel generalizing fuel' with
  | zero => exact halted_approximates s _
  | succ fuel ih =>
    obtain ⟨fuel', rfl⟩ : ∃ n, fuel' = n + 1 := ⟨fuel' - 1, by omega⟩
    exact hstep (ih (by omega))

end Calls

theorem calls_succ (fuel : Nat) : calls (fuel + 1) = (calls fuel).next := rfl

theorem calls_eq_iterate (fuel : Nat) : calls fuel = Calls.iterate Calls.next fuel := by
  induction fuel with
  | zero => rfl
  | succ fuel ih => rw [calls_succ, ih]; rfl

theorem calls_approximates {s : Slack} {fuel fuel' : Nat} (h : fuel ≤ fuel') :
    Calls.Approximates s (calls fuel) (calls fuel') := by
  rw [calls_eq_iterate, calls_eq_iterate]
  exact Calls.iterate_approximates Calls.Approximates.next h

end SmallLisp
