import Mathlib.Data.List.Forall2
import SmallLisp.Proofs.Trampoline
/-!
# Two ways of applying a procedure

An application whose operands are evaluated goes on in place, as a nested call, or by way of `apply` and a
list. All three settle on the same outcomes, failures and escapes among them.
-/
namespace SmallLisp

open Run

variable {m n : Machine} {o : Outcome Value} {frame caller : FrameId}

/-- What is settled does not depend on the last step. -/
theorem Settles.succ_iff {α : Type} {run : (fuel room : Nat) → Run α} {o : Outcome α}
    (improving : Improving run) :
    Settles (fun fuel room => run (fuel + 1) room) m o ↔ Settles run m o := by
  constructor
  · rintro ⟨fuel, room, ends, conclusive⟩
    exact ⟨fuel + 1, room, ends, conclusive⟩
  · exact Settles.of_approximates fun fuel room =>
      ⟨fuel, room, improving (Nat.le_succ fuel) (Nat.le_refl room)⟩

/-- An application in place is one step ahead of a nested one. -/
theorem callInPlace_approximates_apply (fuel : Nat) {room : Nat} (procedure : Value)
    (args : List Value) :
    Approximates Halt.IsEarly ((calls fuel).callInPlace room caller procedure args)
      (apply (fuel + 1) (room + 1) procedure args caller) := by
  have more : Calls.Approximates (.more 0) (calls fuel) (calls (fuel + 1)) :=
    calls_approximates (Nat.le_succ fuel)
  have le : (Slack.more 0).Fits room (room + 1) := Nat.le_succ room
  cases procedure with
  | closure i parameters body home =>
    exact .bind (newFrame_approximates le _ _ _) fun inside => .refl _
  | _ => exact more.apply le _ _ _

theorem apply_approximates_callInPlace (fuel room : Nat) (procedure : Value) (args : List Value) :
    Approximates Halt.IsEarly (apply fuel room procedure args caller)
      ((calls fuel).callInPlace room caller procedure args) := by
  cases procedure with
  | closure i parameters body home =>
    cases fuel with
    | zero => exact .halt trivial _
    | succ fuel =>
      refine .bind (.refl _) fun inside => .deeper_left fun r hr => ?_
      exact improving_evaluate body inside (Nat.le_succ fuel) (Nat.le_of_lt hr)
  | _ => exact .refl _

theorem settles_callInPlace_iff (procedure : Value) (args : List Value) :
    Settles (fun fuel room => (calls fuel).callInPlace room caller procedure args) m o ↔
      Settles (fun fuel room => apply fuel room procedure args caller) m o := by
  constructor
  · exact Settles.of_approximates fun fuel room =>
      ⟨_, _, callInPlace_approximates_apply fuel procedure args⟩
  · exact Settles.of_approximates fun fuel room =>
      ⟨_, _, apply_approximates_callInPlace fuel room procedure args⟩

/-- `apply` hands its list over as the arguments, one level deeper. -/
theorem apply_control (fuel room i : Nat) (f : Value) (vs : List Value) :
    apply (fuel + 1) room (.control .apply) [f, .list i vs] caller =
      deeper room fun room => apply fuel room f vs caller := rfl

theorem settles_apply_control_iff (f : Value) (i : Nat) (vs : List Value) :
    Settles (fun fuel room => apply fuel room (.control .apply) [f, .list i vs] caller) m o ↔
      Settles (fun fuel room => apply fuel room f vs caller) m o := by
  rw [← Settles.succ_iff (improving_apply _ _ _)]
  simp only [apply_control]
  constructor
  · exact Settles.of_approximates fun fuel room =>
      ⟨fuel, room, .deeper_left fun r hr => improving_apply f vs caller (Nat.le_refl _) (by omega)⟩
  · exact Settles.of_approximates fun fuel room => ⟨fuel, room + 1, .refl _⟩

namespace Form

variable {nested : Value → Run Value} {e v : Value} {es vs : List Value}

theorem outcome_operands_cons {n' : Machine} (first : outcome (nested e) m = (.ok v, n))
    (here : v.isEscape = false)
    (rest : outcome (operands nested es) n = (.ok (.values vs), n')) :
    outcome (operands nested (e :: es)) m = (.ok (.values (v :: vs)), n') := by
  rw [operands, outcome_bind_of_ok first, here]
  exact outcome_bind_of_ok rest _

end Form

/-- What a form does with the values of its operands. -/
def Operands.go (frame : FrameId) (fuel room : Nat) : Operands → Run Value
  | .values [] => fail (.type .emptyApplication)
  | .values (procedure :: args) => (calls fuel).callInPlace room frame procedure args
  | .escaped v => return v

theorem evaluate_application {i : Nat} {head : Value} {rest : List Value}
    (noKeyword : CoreKeyword.ofHead? head = none) (fuel room : Nat) :
    evaluate (fuel + 1) room (.list i (head :: rest)) frame =
      operandValues (head :: rest) frame fuel room >>= Operands.go frame fuel room := by
  change (calls fuel).evaluation room (.list i (head :: rest)) frame = _
  unfold Calls.evaluation Form.evaluateBy
  simp only [noKeyword]
  refine congrArg (Bind.bind _) (funext fun vs => ?_)
  rcases vs with (_ | ⟨procedure, args⟩) | v
  · rfl
  · rfl
  · rfl

/-- A form that is headed by no keyword applies the value of its head. -/
theorem settles_application_iff {i : Nat} {head procedure : Value} {rest args : List Value}
    (noKeyword : CoreKeyword.ofHead? head = none)
    (done : Settles (operandValues (head :: rest) frame) m
      (.ok (.values (procedure :: args)), n)) :
    Settles (fun fuel room => evaluate fuel room (.list i (head :: rest)) frame) m o ↔
      Settles (fun fuel room => apply fuel room procedure args frame) n o := by
  rw [← Settles.succ_iff (improving_evaluate _ _)]
  simp only [evaluate_application noKeyword]
  rw [Settles.bind_iff (improving_operandValues _ _) (improving_callInPlace _ _ _) done]
  exact settles_callInPlace_iff procedure args

/-- An expression whose value is given: a quotation of it. -/
def Value.Quotes (q v : Value) : Prop :=
  ∃ i, q = .list i [CoreKeyword.quote.symbol, v]

theorem outcome_quotation {q v : Value} (h : q.Quotes v) (fuel room : Nat) :
    outcome (evaluate (fuel + 1) room q frame) m = (.ok v, m) := by
  obtain ⟨i, rfl⟩ := h
  rfl

theorem outcome_quotations {qs vs : List Value} (h : List.Forall₂ Value.Quotes qs vs)
    (here : ∀ v ∈ vs, v.isEscape = false) (fuel room : Nat) :
    outcome (operandValues qs frame (fuel + 1) (room + 1)) m = (.ok (.values vs), m) := by
  induction h with
  | nil => rfl
  | cons hq _ ih =>
    refine Form.outcome_operands_cons (outcome_quotation hq fuel room) ?_ ?_
    · exact here _ (by simp)
    · exact ih fun v hv => here v (by simp [hv])

theorem outcome_lookup {name : String} {v : Value}
    (found : m.frames.lookup? frame (.name name) = some v) (room : Nat) :
    outcome (lookup room frame (.symbol name)) m = (.ok v, m) := by
  simp [lookup, keyOf, Key.ofValue?, outcome_bind, found]

/-- The list that `list` makes of given values is one more object. -/
theorem outcome_list {i : Nat} {qs vs : List Value} (h : List.Forall₂ Value.Quotes qs vs)
    (here : ∀ v ∈ vs, v.isEscape = false)
    (found : m.frames.lookup? frame (.name "list") = some (.primitive .list)) :
    outcome (evaluate 2 1 (.list i (.symbol "list" :: qs)) frame) m =
      (.ok (.list m.nextObject vs), { m with nextObject := m.nextObject + 1 }) := by
  have procedure : outcome (deeper 1 fun room => evaluate 1 room (.symbol "list") frame) m =
      (.ok (.primitive .list), m) := outcome_lookup found 0
  have operands := Form.outcome_operands_cons procedure rfl (outcome_quotations h here 0 0)
  change outcome (Form.operands _ _ >>= _) m = _
  rw [outcome_bind_of_ok operands]
  rfl

/-- Applying to a list made on the way is applying to its elements, with one object more. -/
theorem settles_apply_list_iff {i j : Nat} {f : Value} {qf : Value} {qs vs : List Value}
    (hf : qf.Quotes f) (hs : List.Forall₂ Value.Quotes qs vs)
    (here : ∀ v ∈ f :: vs, v.isEscape = false)
    (foundApply : m.frames.lookup? frame (.name "apply") = some (.control .apply))
    (foundList : m.frames.lookup? frame (.name "list") = some (.primitive .list)) :
    Settles (fun fuel room => evaluate fuel room
        (.list i [.symbol "apply", qf, .list j (.symbol "list" :: qs)]) frame) m o ↔
      Settles (fun fuel room => evaluate fuel room (.list i (qf :: qs)) frame)
        { m with nextObject := m.nextObject + 1 } o := by
  have late : ∀ v ∈ vs, v.isEscape = false := fun v hv => here v (by simp [hv])
  have operands : outcome (operandValues [.symbol "apply", qf, .list j (.symbol "list" :: qs)] frame
      2 2) m = (.ok (.values [.control .apply, f, .list m.nextObject vs]),
        { m with nextObject := m.nextObject + 1 }) := by
    refine Form.outcome_operands_cons (outcome_lookup foundApply 1) rfl ?_
    refine Form.outcome_operands_cons (outcome_quotation hf 1 1) (here f (by simp)) ?_
    exact Form.outcome_operands_cons (outcome_list hs late foundList) rfl rfl
  have direct : outcome (operandValues (qf :: qs) frame 1 1)
      { m with nextObject := m.nextObject + 1 } =
        (.ok (.values (f :: vs)), { m with nextObject := m.nextObject + 1 }) :=
    outcome_quotations (.cons hf hs) here 0 0
  have noKeyword : CoreKeyword.ofHead? qf = none := by
    obtain ⟨k, rfl⟩ := hf
    rfl
  rw [settles_application_iff (by decide) ⟨_, _, operands, not_stopped_ok⟩,
    settles_application_iff noKeyword ⟨_, _, direct, not_stopped_ok⟩]
  exact settles_apply_control_iff f _ vs

/-- Evaluation without a loop has the outcomes of the evaluator, and the ways of applying a procedure
agree: in place, by a nested call, by `apply`, and by `apply` to a list made on the way. -/
theorem plain_evaluation_agrees :
    (∀ form frame m o, Settles (fun fuel room => evaluate fuel room form frame) m o ↔
      Settles (fun fuel room => (plainCalls fuel).evaluate room form frame) m o) ∧
    (∀ procedure args caller m o,
      Settles (fun fuel room => apply fuel room procedure args caller) m o ↔
        Settles (fun fuel room => (plainCalls fuel).apply room procedure args caller) m o) ∧
    (∀ form toplevel m o, Settles (fun fuel room => expand fuel room form toplevel) m o ↔
      Settles (fun fuel room => (plainCalls fuel).expand room form toplevel) m o) ∧
    (∀ f i vs caller m o,
      (Settles (fun fuel room => (calls fuel).callInPlace room caller f vs) m o ↔
        Settles (fun fuel room => apply fuel room f vs caller) m o) ∧
      (Settles (fun fuel room => apply fuel room (.control .apply) [f, .list i vs] caller) m o ↔
        Settles (fun fuel room => apply fuel room f vs caller) m o)) ∧
    ∀ (i j : Nat) (f qf : Value) (vs qs : List Value) (frame : FrameId) (m : Machine)
      (o : Outcome Value), qf.Quotes f → List.Forall₂ Value.Quotes qs vs →
      (∀ v ∈ f :: vs, v.isEscape = false) →
      m.frames.lookup? frame (.name "apply") = some (.control .apply) →
      m.frames.lookup? frame (.name "list") = some (.primitive .list) →
      (Settles (fun fuel room => evaluate fuel room
          (.list i [.symbol "apply", qf, .list j (.symbol "list" :: qs)]) frame) m o ↔
        Settles (fun fuel room => evaluate fuel room (.list i (qf :: qs)) frame)
          { m with nextObject := m.nextObject + 1 } o) := by
  refine ⟨?_, ?_, ?_, ?_, ?_⟩
  · exact settles_evaluate_iff
  · exact settles_apply_iff
  · exact settles_expand_iff
  · intro f i vs caller m o
    exact ⟨settles_callInPlace_iff f vs, settles_apply_control_iff f i vs⟩
  · intro i j f qf vs qs frame m o hf hs here foundApply foundList
    exact settles_apply_list_iff hf hs here foundApply foundList

/-- `(apply '+ (list '1 '2))` at the start of a session. -/
theorem plain_evaluation_agrees_on_sum :
    Settles (fun fuel room => evaluate fuel room
      (.list 0 [.symbol "apply", .list 0 [.symbol "quote", .primitive .add],
        .list 0 [.symbol "list", .list 0 [.symbol "quote", .int 1],
          .list 0 [.symbol "quote", .int 2]]]) Machine.root) (Machine.start .zeros)
      (.ok (.int 3), { Machine.start .zeros with nextObject := 1 }) := by
  obtain ⟨_, _, _, _, agrees⟩ := plain_evaluation_agrees
  refine (agrees 0 0 (.primitive .add) _ [.int 1, .int 2] _ _ _ _ ⟨0, rfl⟩
    (.cons ⟨0, rfl⟩ (.cons ⟨0, rfl⟩ .nil)) (by simp [Value.isEscape]) ?_ ?_).mpr ?_
  · rfl
  · rfl
  · exact ⟨2, 2, rfl, not_stopped_ok⟩

end SmallLisp
