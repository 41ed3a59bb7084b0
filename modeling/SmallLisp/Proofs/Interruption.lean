import SmallLisp.Proofs.Finishing
import SmallLisp.Proofs.Raising
/-!
# Interruptions

Work on a form leads to work on one of its parts, once the parts before it have their values. When that part
ends in a failure or an escape, so does the form, in the same state. Only a call that opened a continuation
does something then: it spends the continuation, and it takes the value out of an escape to it.
-/
namespace SmallLisp

open Run

variable {α β : Type}

namespace Outcome

/-- A failure or an escape. -/
def Interrupts (o : Outcome Value) : Prop :=
  ∀ v, o.1 = .ok v → v.isEscape = true

def mapped (f : α → β) (o : Outcome α) : Outcome β :=
  (o.1.map f, o.2)

theorem stopped_mapped {Early : Halt → Prop} {f : α → β} {o : Outcome α} :
    Stopped Early (o.mapped f) ↔ Stopped Early o := by
  obtain ⟨e | x, n⟩ := o
  · exact stopped_error_iff.trans stopped_error_iff.symm
  · exact iff_of_false not_stopped_ok not_stopped_ok

theorem mapped_id (o : Outcome α) : o.mapped id = o := by
  obtain ⟨e | x, n⟩ := o
  · rfl
  · rfl

end Outcome

namespace Finishes

variable {m : Machine} {o : Outcome Value} {stop : Value → α}

/-- An interruption of a part passes over all that comes after it. -/
theorem interrupted {first : (fuel : Nat) → Run Value} {rest : (fuel : Nat) → Value → Run α}
    (h : Finishes first m o) (hi : o.Interrupts) :
    Finishes (fun fuel => passing stop (first fuel) (rest fuel)) m (o.mapped stop) := by
  obtain ⟨fuel, ends, conclusive⟩ := h
  refine ⟨fuel, ?_, mt Outcome.stopped_mapped.mp conclusive⟩
  unfold passing
  obtain ⟨e | v, n⟩ := o
  · exact outcome_bind_of_error ends _
  · rw [outcome_bind_of_ok ends, hi v rfl]
    rfl

/-- What follows an interruption hands it on. -/
theorem handed {first : (fuel : Nat) → Run α} {stop' : Value → β} {rest : (fuel : Nat) → α → Run β}
    (h : Finishes first m (o.mapped stop)) (hands : ∀ fuel v, rest fuel (stop v) = pure (stop' v)) :
    Finishes (fun fuel => first fuel >>= rest fuel) m (o.mapped stop') := by
  obtain ⟨fuel, ends, conclusive⟩ := h
  refine ⟨fuel, ?_, mt Outcome.stopped_mapped.mp (mt Outcome.stopped_mapped.mpr conclusive)⟩
  obtain ⟨e | v, n⟩ := o
  · exact outcome_bind_of_error ends _
  · rw [outcome_bind_of_ok ends, hands]
    rfl

end Finishes

/-- Forms have values one after another, none of them an escape. -/
def Yield (es : List Value) (frame : FrameId) (room : Nat) (m : Machine) (vs : List Value)
    (n : Machine) : Prop :=
  Finishes (fun fuel => operandValues es frame fuel room) m (.ok (.values vs), n)

namespace Yield

variable {frame : FrameId} {room : Nat} {m n : Machine} {e : Value} {es more vs : List Value}
  {o : Outcome Value}

theorem nil (h : Yield [] frame room m vs n) : n = m := by
  obtain ⟨_, ends, _⟩ := h
  cases ends
  rfl

theorem cons (h : Yield (e :: es) frame room m vs n) : ∃ v vs l,
    Finishes (fun fuel => Form.part frame room fuel e) m (.ok v, l) ∧ v.isEscape = false ∧
      Yield es frame room l vs n := by
  have goes (v : Value) (_ : v.isEscape = true) : Operands.escaped v ≠ .values vs := nofun
  obtain ⟨v, l, first, here, fuel, ends, _⟩ := Finishes.of_passing goes h
  obtain ⟨rest, l', later, ends⟩ := outcome_bind_ok.mp ends
  cases rest with
  | values vs' =>
    cases ends
    exact ⟨v, vs', l, first, here, fuel, later, not_stopped_ok⟩
  | escaped w => cases ends

/-- An interruption of one operand is that of all. -/
theorem operands_interrupted (before : Yield es frame room m vs n)
    (h : Finishes (fun fuel => Form.part frame room fuel e) n o) (hi : o.Interrupts) :
    Finishes (fun fuel => operandValues (es ++ e :: more) frame fuel room) m
      (o.mapped .escaped) := by
  induction es generalizing m vs with
  | nil =>
    rw [before.nil] at h
    exact h.interrupted hi
  | cons e' es ih =>
    obtain ⟨v, vs, l, first, here, before⟩ := before.cons
    have rest := ih before
    refine (Finishes.passing_ok (growing_part frame room e') ?_ first here).mpr ?_
    · exact fun v => .bind (growing_operandValues _ _ _) fun _ => .const _
    · exact rest.handed fun _ _ => rfl

/-- A sequence goes on when the forms before are done. -/
theorem sequence_iff {o : Outcome Next} (before : Yield es frame room m vs n) :
    Finishes (fun fuel => Form.sequence (Form.part frame room fuel) frame (es ++ e :: more)) m o ↔
      Finishes (fun fuel => Form.sequence (Form.part frame room fuel) frame (e :: more)) n o := by
  induction es generalizing m vs with
  | nil =>
    rw [before.nil]
    exact Iff.rfl
  | cons e' es ih =>
    obtain ⟨v, vs, l, first, here, before⟩ := before.cons
    have step (fuel : Nat) : Form.sequence (Form.part frame room fuel) frame (e' :: es ++ e :: more) =
        passing .done (Form.part frame room fuel e') fun _ =>
          Form.sequence (Form.part frame room fuel) frame (es ++ e :: more) := by
      cases es with
      | nil => rfl
      | cons e'' es => rfl
    simp only [step]
    rw [← ih before]
    refine Finishes.passing_ok (growing_part frame room e') (fun _ => ?_) first here
    exact growing_sequence _ _ _

end Yield

/-- What there is to do: a form to evaluate in a frame, or a procedure to apply to values. -/
inductive Task where
  | evaluate (form : Value) (frame : FrameId)
  | apply (procedure : Value) (args : List Value) (caller : FrameId)

def Task.run : Task → (fuel room : Nat) → Run Value
  | evaluate form frame, fuel, room => SmallLisp.evaluate fuel room form frame
  | apply procedure args caller, fuel, room => SmallLisp.apply fuel room procedure args caller

/-- A task with the room that it has and the state in which it begins. -/
structure Point where
  task : Task
  room : Nat
  state : Machine

def Point.Finishes (p : Point) (o : Outcome Value) : Prop :=
  SmallLisp.Finishes (fun fuel => p.task.run fuel p.room) p.state o

/-- Whether a form that is no core form has these parts. -/
def Form.isApplication : List Value → Bool
  | [] => false
  | head :: _ => (CoreKeyword.ofHead? head).isNone

/-- How a form goes on after its step. -/
def Next.go (fuel room : Nat) : Next → Run Value
  | done v => return v
  | tail form frame => evaluate fuel room form frame

/-- One task leads to another, whose outcome it waits for. A call that opens a continuation is its owner while
it waits. -/
inductive Leads : Point → Option Nat → Point → Prop
  | condition {i c branches frame room m} :
      Leads ⟨.evaluate (.list i (.symbol "if" :: c :: branches)) frame, room + 1, m⟩ none
        ⟨.evaluate c frame, room, m⟩
  | consequent {i c e rest frame room m v n} :
      Finishes (fun fuel => evaluate fuel room c frame) m (.ok v, n) → v.isEscape = false →
      v.isFalse = false →
      Leads ⟨.evaluate (.list i (.symbol "if" :: c :: e :: rest)) frame, room + 1, m⟩ none
        ⟨.evaluate e frame, room + 1, n⟩
  | alternative {i c e e' rest frame room m n} :
      Finishes (fun fuel => evaluate fuel room c frame) m (.ok (.bool false), n) →
      Leads ⟨.evaluate (.list i (.symbol "if" :: c :: e :: e' :: rest)) frame, room + 1, m⟩ none
        ⟨.evaluate e' frame, room + 1, n⟩
  | assigned {i target e frame room m} :
      Leads ⟨.evaluate (.list i [.symbol "set!", target, e]) frame, room + 1, m⟩ none
        ⟨.evaluate e frame, room, m⟩
  | defined {i target e frame room m} :
      Leads ⟨.evaluate (.list i [.symbol "define", target, e]) frame, room + 1, m⟩ none
        ⟨.evaluate e frame, room, m⟩
  | former {i es vs e e' more frame room m n} : Yield es frame (room + 1) m vs n →
      Leads ⟨.evaluate (.list i (.symbol "begin" :: (es ++ e :: e' :: more))) frame, room + 1, m⟩ none
        ⟨.evaluate e frame, room, n⟩
  | last {i es vs e frame room m n} : Yield es frame room m vs n →
      Leads ⟨.evaluate (.list i (.symbol "begin" :: (es ++ [e]))) frame, room, m⟩ none
        ⟨.evaluate e frame, room, n⟩
  | operand {i es vs e more frame room m n} : Form.isApplication (es ++ e :: more) = true →
      Yield es frame (room + 1) m vs n →
      Leads ⟨.evaluate (.list i (es ++ e :: more)) frame, room + 1, m⟩ none
        ⟨.evaluate e frame, room, n⟩
  | body {i parts j ps form home args frame inside room m n l} : Form.isApplication parts = true →
      Yield parts frame room m (.closure j ps form home :: args) n →
      (newFrame room ps args (some home)).Ends n inside l →
      Leads ⟨.evaluate (.list i parts) frame, room, m⟩ none ⟨.evaluate form inside, room, l⟩
  | call {i parts procedure args frame room m n} : Form.isApplication parts = true →
      Yield parts frame room m (procedure :: args) n →
      (∀ j ps form home, procedure ≠ .closure j ps form home) →
      Leads ⟨.evaluate (.list i parts) frame, room, m⟩ none ⟨.apply procedure args frame, room, n⟩
  | applied {j ps form home args caller inside room m n} :
      (newFrame (room + 1) ps args (some home)).Ends m inside n →
      Leads ⟨.apply (.closure j ps form home) args caller, room + 1, m⟩ none
        ⟨.evaluate form inside, room, n⟩
  | spread {f i args caller room m} :
      Leads ⟨.apply (.control .apply) [f, .list i args] caller, room + 1, m⟩ none
        ⟨.apply f args caller, room, m⟩
  | evaluated {form core caller room m n} :
      Finishes (fun fuel => expand fuel room form false) m (.ok core, n) →
      Leads ⟨.apply (.control .eval) [form] caller, room + 1, m⟩ none
        ⟨.evaluate core Machine.root, room, n⟩
  | extent {f caller room m} :
      Leads ⟨.apply (.control .callWithEscape) [f] caller, room + 1, m⟩ (some m.continuations.size)
        ⟨.apply f [.continuation m.continuations.size] caller, room, m.opened⟩

/-- The outcome of a task from the outcome that it waited for. -/
def Outcome.through : Option Nat → Outcome Value → Outcome Value
  | none, o => o
  | some k, o => (o.1.map (Value.received k), o.2.spent k)

/-- The step of a core form, and how it goes on. -/
theorem evaluate_core {i : Nat} {frame : FrameId} (k : CoreKeyword) (parts : List Value)
    (fuel room : Nat) : evaluate (fuel + 1) room (.list i (k.symbol :: parts)) frame =
      Form.step (Form.part frame room fuel) room frame k parts >>= Next.go fuel room := by
  cases k with
  | _ => rfl

section Core

variable {frame : FrameId} {room i : Nat} {m n : Machine} {o : Outcome Value} {k : CoreKeyword}
  {parts : List Value}

theorem growing_step (frame : FrameId) (room : Nat) (k : CoreKeyword) (parts : List Value) :
    Growing fun fuel => Form.step (Form.part frame room fuel) room frame k parts :=
  fun _ _ h => Form.step_approximates (fun e => growing_part frame room e _ _ h) (.refl room) frame k parts

theorem growing_go (room : Nat) (next : Next) : Growing fun fuel => next.go fuel room := by
  cases next with
  | done v => exact .const _
  | tail form frame => exact growing_evaluate room form frame

theorem finishes_core_iff : Finishes (fun fuel => evaluate fuel room (.list i (k.symbol :: parts)) frame) m o ↔
    Finishes (fun fuel => Form.step (Form.part frame room fuel) room frame k parts >>= Next.go fuel room)
      m o := by
  rw [← Finishes.succ_iff (growing_evaluate _ _ _)]
  simp only [evaluate_core]

/-- A core form whose step is interrupted. -/
theorem finishes_core_of_done
    (h : Finishes (fun fuel => Form.step (Form.part frame room fuel) room frame k parts) m
      (o.mapped .done)) :
    Finishes (fun fuel => evaluate fuel room (.list i (k.symbol :: parts)) frame) m o := by
  rw [finishes_core_iff, ← o.mapped_id]
  exact h.handed fun _ _ => rfl

/-- A core form that goes on in tail position. -/
theorem finishes_core_iff_tail {form : Value} {frame' : FrameId}
    (h : Finishes (fun fuel => Form.step (Form.part frame room fuel) room frame k parts) m
      (.ok (.tail form frame'), n)) :
    Finishes (fun fuel => evaluate fuel room (.list i (k.symbol :: parts)) frame) m o ↔
      Finishes (fun fuel => evaluate fuel room form frame') n o := by
  rw [finishes_core_iff]
  exact Finishes.bind_ok (growing_step _ _ _ _) (growing_go room) h

variable {c e e' v : Value} {rest : List Value}

theorem test_consequent (done : Finishes (fun fuel => evaluate fuel room c frame) m (.ok v, n))
    (here : v.isEscape = false) (truth : v.isFalse = false) :
    Finishes (fun fuel => Form.step (Form.part frame (room + 1) fuel) (room + 1) frame .test
      (c :: e :: rest)) m (.ok (.tail e frame), n) := by
  obtain ⟨fuel, ends, _⟩ := done
  refine ⟨fuel, ?_, not_stopped_ok⟩
  have condition : outcome (Form.part frame (room + 1) fuel c) m = (.ok v, n) := ends
  change outcome (Form.part frame (room + 1) fuel c >>= _) m = _
  rw [outcome_bind_of_ok condition, here, truth]
  rfl

theorem test_alternative
    (done : Finishes (fun fuel => evaluate fuel room c frame) m (.ok (.bool false), n)) :
    Finishes (fun fuel => Form.step (Form.part frame (room + 1) fuel) (room + 1) frame .test
      (c :: e :: e' :: rest)) m (.ok (.tail e' frame), n) := by
  obtain ⟨fuel, ends, _⟩ := done
  refine ⟨fuel, ?_, not_stopped_ok⟩
  have condition : outcome (Form.part frame (room + 1) fuel c) m = (.ok (.bool false), n) := ends
  change outcome (Form.part frame (room + 1) fuel c >>= _) m = _
  rw [outcome_bind_of_ok condition]
  rfl

end Core

section Application

variable {frame : FrameId} {room i : Nat} {m n : Machine} {o : Outcome Value} {parts : List Value}

theorem growing_operandsGo (frame : FrameId) (room : Nat) (vs : Operands) :
    Growing fun fuel => vs.go frame fuel room := by
  rcases vs with (_ | ⟨procedure, args⟩) | v
  · exact .const _
  · exact growing_callInPlace room frame procedure args
  · exact .const _

theorem finishes_application_iff (here : Form.isApplication parts = true) :
    Finishes (fun fuel => evaluate fuel room (.list i parts) frame) m o ↔
      Finishes (fun fuel => operandValues parts frame fuel room >>= Operands.go frame fuel room)
        m o := by
  cases parts with
  | nil => cases here
  | cons head rest =>
    rw [← Finishes.succ_iff (growing_evaluate _ _ _)]
    simp only [evaluate_application (Option.isNone_iff_eq_none.mp here)]

theorem finishes_application_of_escaped (here : Form.isApplication parts = true)
    (h : Finishes (fun fuel => operandValues parts frame fuel room) m (o.mapped .escaped)) :
    Finishes (fun fuel => evaluate fuel room (.list i parts) frame) m o := by
  rw [finishes_application_iff here, ← o.mapped_id]
  exact h.handed fun _ _ => rfl

theorem finishes_application_iff_call {procedure : Value} {args : List Value}
    (here : Form.isApplication parts = true) (h : Yield parts frame room m (procedure :: args) n) :
    Finishes (fun fuel => evaluate fuel room (.list i parts) frame) m o ↔
      Finishes (fun fuel => (calls fuel).callInPlace room frame procedure args) n o := by
  rw [finishes_application_iff here]
  exact Finishes.bind_ok (growing_operandValues _ _ _) (growing_operandsGo frame room) h

end Application

namespace Leads

variable {p q : Point} {own : Option Nat} {o : Outcome Value}

/-- The call that owns a continuation. -/
theorem finishes_extent {f : Value} {caller : FrameId} {room : Nat} {m : Machine}
    (h : Finishes (fun fuel => apply fuel room f [.continuation m.continuations.size] caller) m.opened
      o) :
    Finishes (fun fuel => apply fuel (room + 1) (.control .callWithEscape) [f] caller) m
      (o.through (some m.continuations.size)) := by
  obtain ⟨fuel, ends, conclusive⟩ := h
  refine ⟨fuel + 1, ?_, ?_⟩
  · have call : outcome (apply (fuel + 1) (room + 1) (.control .callWithEscape) [f] caller) m =
        outcome (spending m.continuations.size
          (apply fuel room f [.continuation m.continuations.size] caller) >>= fun v =>
            pure (v.received m.continuations.size)) m.opened := rfl
    rw [call, outcome_bind, outcome_spending, ends]
    obtain ⟨e | v, n⟩ := o
    · rfl
    · rfl
  · obtain ⟨e | v, n⟩ := o
    · exact mt Stopped.of_error conclusive
    · exact not_stopped_ok

/-- An interruption passes one task. -/
theorem finishes (h : Leads p own q) (hi : o.Interrupts) (hq : q.Finishes o) :
    p.Finishes (o.through own) := by
  cases h with
  | condition => exact finishes_core_of_done (k := .test) (hq.interrupted hi)
  | consequent done here truth =>
    exact (finishes_core_iff_tail (k := .test) (test_consequent done here truth)).mpr hq
  | alternative done => exact (finishes_core_iff_tail (k := .test) (test_alternative done)).mpr hq
  | assigned => exact finishes_core_of_done (k := .assign) (hq.interrupted hi)
  | defined => exact finishes_core_of_done (k := .define) (hq.interrupted hi)
  | former before =>
    exact finishes_core_of_done (k := .sequence) (before.sequence_iff.mpr (hq.interrupted hi))
  | last before =>
    refine (finishes_core_iff_tail (k := .sequence) (before.sequence_iff.mpr ?_)).mpr hq
    exact ⟨0, rfl, not_stopped_ok⟩
  | operand here before =>
    exact finishes_application_of_escaped here (before.operands_interrupted hq hi)
  | body here values inside =>
    refine (finishes_application_iff_call here values).mpr ?_
    exact (Finishes.bind_ok (.const _) (growing_evaluate _ _) ⟨0, inside, not_stopped_ok⟩).mpr hq
  | call here values notClosure =>
    refine (finishes_application_iff_call here values).mpr ?_
    rename_i procedure _ _ _ _ _
    cases procedure with
    | closure j ps form home => exact absurd rfl (notClosure j ps form home)
    | _ => exact hq
  | applied inside =>
    refine (Finishes.succ_iff (growing_apply _ _ _ _)).mp ?_
    exact (Finishes.bind_ok (.const _) (growing_part · _ _) ⟨0, inside, not_stopped_ok⟩).mpr hq
  | spread => exact (Finishes.succ_iff (growing_apply _ _ _ _)).mp hq
  | evaluated expanded =>
    refine (Finishes.succ_iff (growing_apply _ _ _ _)).mp ?_
    exact (Finishes.bind_ok (growing_expand _ _ _) (growing_part _ _) expanded).mpr hq
  | extent => exact finishes_extent hq

end Leads

end SmallLisp
