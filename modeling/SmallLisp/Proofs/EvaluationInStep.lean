import SmallLisp.Proofs.PrimitivesInStep
import SmallLisp.Proofs.Levels
/-!
# Operations in step

A form is evaluated in step with its expansion, part by part. Where a part is missing, an alternative or the
forms of a sequence, the value of the whole is the one that the expansion has there.
-/
namespace SmallLisp

open Run Value

variable {p : Pace} {w : Matching} {room room' : Nat} {frame : FrameId} {r : Reading}

inductive LikeOperands (w : Matching) : Operands → Operands → Prop
  | values {vs vs'} : LikeLists w vs vs' → LikeOperands w (.values vs) (.values vs')
  | escaped {v v'} : LikeValues w v v' → LikeOperands w (.escaped v) (.escaped v')

inductive LikeNext (r : Reading) (w : Matching) : Next → Next → Prop
  | done {v v'} : LikeValues w v v' → LikeNext r w (.done v) (.done v')
  | tail {form form' frame} : Like w r form form' → LikeNext r w (.tail form frame) (.tail form' frame)

/-- The target of a binding form, and the expression in some reading. -/
abbrev LikeBinding (r : Reading) (w : Matching) : Value × Value → Value × Value → Prop :=
  fun x y => LikeValues w x.1 y.1 ∧ Like w r x.2 y.2

namespace Form

/-- The parts of a form are evaluated in step. -/
abbrev PartsInStep (p : Pace) (r : Reading) (nested nested' : Value → Run Value) : Prop :=
  ∀ {w e e'}, r.Allowed w → Like w r e e' → InStep p w (nested e) (nested' e') LikeValues

variable {nested nested' : Value → Run Value} (hn : PartsInStep p r nested nested')

section Parts

include hn

theorem operands_inStep (allowed : r.Allowed w) {es es' : List Value}
    (h : List.Forall₂ (Like w r) es es') :
    InStep p w (operands nested es) (operands nested' es') LikeOperands := by
  induction es generalizing w es' with
  | nil =>
    cases h
    exact .pure (.values .nil)
  | cons e es ih =>
    cases h with
    | cons first rest =>
      refine (hn allowed first).bind fun w' le v v' like => ?_
      rw [like.isEscape_eq]
      split
      · exact .pure (.escaped like)
      · refine (ih (allowed.mono le) (rest.imp fun _ _ h => h.mono le)).bind ?_
        intro w'' le' vs vs' likes
        cases likes with
        | values likes => exact .pure (.values (.cons (like.mono le') likes))
        | escaped like => exact .pure (.escaped like)

theorem sequence_inStep (allowed : r.Allowed w) {es es' : List Value}
    (h : List.Forall₂ (Like w r) es es') :
    InStep p w (sequence nested frame es) (sequence nested' frame es') (LikeNext r) := by
  induction es generalizing w es' with
  | nil =>
    cases h
    exact .pure (.done (.atom rfl))
  | cons e es ih =>
    cases h with
    | cons first rest =>
      cases rest with
      | nil => exact .pure (.tail first)
      | cons second rest =>
        refine (hn allowed first).bind fun w' le v v' like => ?_
        rw [like.isEscape_eq]
        split
        · exact .pure (.done like)
        · exact ih (allowed.mono le) (.cons (second.mono le) (rest.imp fun _ _ h => h.mono le))

theorem test_inStep (allowed : r.Allowed w) {parts parts' : List Value}
    (h : List.Forall₂ (Like w r) parts parts') :
    InStep p w (test nested frame parts) (test nested' frame parts') (LikeNext r) := by
  cases h with
  | nil => exact .fail_same _
  | cons condition branches =>
    refine (hn allowed condition).bind fun w' le v v' like => ?_
    rw [like.isEscape_eq, like.isFalse_eq]
    split
    · exact .pure (.done like)
    · split
      · rcases branches with _ | ⟨_, _ | ⟨alternative, _⟩⟩
        · exact .pure (.done (.atom rfl))
        · exact .pure (.done (.atom rfl))
        · exact .pure (.tail (alternative.mono le))
      · cases branches with
        | nil => exact .fail_same _
        | cons consequent _ => exact .pure (.tail (consequent.mono le))

variable (fits : p.Fits room room')
include fits

theorem define_inStep (allowed : r.Allowed w) {parts parts' : List Value}
    (h : InStep p w (bindingParts parts) (bindingParts parts') (LikeBinding r)) :
    InStep p w (define nested room frame parts) (define nested' room' frame parts') (LikeNext r) := by
  refine h.bind fun w' le (target, e) (target', e') ⟨htarget, he⟩ => ?_
  refine (hn (allowed.mono le) he).bind fun w' le v v' like => ?_
  rw [like.isEscape_eq]
  split
  · exact .pure (.done like)
  · exact (Run.define_inStep fits frame (htarget.mono le) like).bind fun w' le _ _ _ =>
      .pure (.done (like.mono le))

theorem assign_inStep (allowed : r.Allowed w) {parts parts' : List Value}
    (h : InStep p w (bindingParts parts) (bindingParts parts') (LikeBinding r)) :
    InStep p w (assign nested room frame parts) (assign nested' room' frame parts') (LikeNext r) := by
  refine h.bind fun w' le (target, e) (target', e') ⟨htarget, he⟩ => ?_
  refine (hn (allowed.mono le) he).bind fun w' le v v' like => ?_
  rw [like.isEscape_eq]
  split
  · exact .pure (.done like)
  · exact (Run.assign_inStep fits frame (htarget.mono le) like).bind fun _ _ _ _ _ =>
      .pure (.done (.atom rfl))

end Parts

theorem bindingParts_inStep {parts parts' : List Value} (h : LikeLists w parts parts') :
    InStep p w (bindingParts parts) (bindingParts parts') (LikeBinding .plain) := by
  have length := h.length_eq
  rcases h with _ | ⟨target, _ | ⟨e, _ | ⟨_, _⟩⟩⟩
  · exact .fail_same _
  · exact .fail_same _
  · exact .pure ⟨target, e⟩
  · dsimp only [bindingParts]
    rw [length]
    split <;> exact .fail_same _

theorem body_inStep {forms forms' : List Value} (h : LikeLists w forms forms') :
    InStep p w (body forms) (body forms') LikeValues := by
  rcases h with _ | ⟨first, _ | ⟨second, rest⟩⟩
  · exact newList_inStep (.cons (.atom rfl) .nil)
  · exact .pure first
  · exact newList_inStep (.cons (.atom rfl) (.cons first (.cons second rest)))

theorem lambda_inStep {r' : Reading} (allowed : r'.Allowed w) {ps ps' : Value}
    {forms forms' : List Value} (hps : LikeValues w ps ps')
    (h : InStep p w (body forms) (body forms') fun w => Like w r') :
    InStep p w (lambda frame (ps :: forms)) (lambda frame (ps' :: forms')) (LikeNext r) := by
  refine h.bind fun w' le form form' hform => newObject_inStep.bind fun w'' le' i j matched => ?_
  have le := le.trans le'
  exact .pure (.done (.closure matched (allowed.mono le) (hps.mono le) (hform.mono le')))

/-- The forms of a body become a sequence where the expansion has one. -/
theorem longBody_inStep {e e' : Value} {es es' : List Value} (k : Nat)
    (h : List.Forall₂ (Like w .expanded) (e :: e' :: es) es') :
    InStep p w (body (e :: e' :: es)) (body [.list k (.symbol "begin" :: es')])
      fun w => Like w .expanded := by
  cases h with
  | cons first rest =>
    have alone : InStep p w (newList (.symbol "begin" :: e :: e' :: es) >>= pure)
        (pure (.list k (.symbol "begin" :: _ :: _))) fun w => Like w .expanded :=
      .newList_alone fun i => .pure (.sequence first rest)
    rwa [bind_pure] at alone

theorem step_inStep (hn : PartsInStep p .plain nested nested') (fits : p.Fits room room')
    (k : CoreKeyword) {parts parts' : List Value} (h : LikeLists w parts parts') :
    InStep p w (step nested room frame k parts) (step nested' room' frame k parts')
      (LikeNext .plain) := by
  have allowed := Reading.allowed_plain w
  cases k with
  | quote =>
    cases h with
    | nil => exact .fail_same _
    | cons first _ => exact .pure (.done first)
  | test => exact test_inStep hn allowed h
  | assign => exact assign_inStep hn fits allowed (bindingParts_inStep h)
  | define => exact define_inStep hn fits allowed (bindingParts_inStep h)
  | lambda =>
    cases h with
    | nil => exact .fail_same _
    | cons hps hforms => exact lambda_inStep allowed hps (body_inStep hforms)
  | sequence => exact sequence_inStep hn allowed h

end Form

theorem coreOfHead?_none {head : Value} (h : Keyword.ofHead? head = none) :
    CoreKeyword.ofHead? head = none := by
  cases head with
  | symbol name =>
    simp only [Keyword.ofHead?, Keyword.ofName?, CoreKeyword.ofHead?] at h ⊢
    split at h
    · cases h
    · split at h
      · cases h
      · exact Option.map_eq_none_iff.mp h
  | _ => rfl

namespace Calls

variable {c c' : Calls}

/-- The operations of two runs are in step. Where bodies are expanded, the second run evaluates what stands
for a missing part. -/
structure InStep (p : Pace) (c c' : Calls) : Prop where
  evaluate : ∀ {w room room' r form form'}, p.Fits room room' → r.Allowed w → Like w r form form' →
    ∀ frame, Run.InStep p w (c.evaluate room form frame) (c'.evaluate room' form' frame) LikeValues
  apply : ∀ {w room room' procedure procedure' args args'}, p.Fits room room' →
    LikeValues w procedure procedure' → LikeLists w args args' → ∀ caller,
    Run.InStep p w (c.apply room procedure args caller) (c'.apply room' procedure' args' caller)
      LikeValues
  expand : ∀ {w room room' form form'}, p.Fits room room' → LikeValues w form form' → ∀ toplevel,
    Run.InStep p w (c.expand room form toplevel) (c'.expand room' form' toplevel) LikeValues
  unspecified : ∀ {w}, w.expanding → ∀ room frame, Run.InStep p w (pure .unspecified : Run Value)
    (c'.evaluate room .unspecified frame) LikeValues

/-- How an evaluation goes on after a step of a core form. -/
def continued (c : Calls) (room : Nat) : Next → Run Value
  | .done v => return v
  | .tail form frame => c.evaluate room form frame

theorem evaluation_of_keyword (c : Calls) (room i : Nat) {head : Value} {k : CoreKeyword}
    (keyword : CoreKeyword.ofHead? head = some k) (rest : List Value) (frame : FrameId) :
    c.evaluation room (.list i (head :: rest)) frame =
      Form.step (fun e => deeper room fun room => c.evaluate room e frame) room frame k rest >>=
        c.continued room := by
  unfold evaluation Form.evaluateBy
  simp only [keyword]
  congr 1

/-- How an application goes on after its operands. -/
def applied (c : Calls) (room : Nat) (frame : FrameId) : Operands → Run Value
  | .escaped v => return v
  | .values (procedure :: args) => c.callInPlace room frame procedure args
  | .values [] => fail (.type .emptyApplication)

theorem evaluation_of_application (c : Calls) (room i : Nat) {head : Value}
    (noKeyword : CoreKeyword.ofHead? head = none) (rest : List Value) (frame : FrameId) :
    c.evaluation room (.list i (head :: rest)) frame =
      Form.operands (fun e => deeper room fun room => c.evaluate room e frame) (head :: rest) >>=
        c.applied room frame := by
  unfold evaluation Form.evaluateBy
  simp only [noKeyword]
  congr 1

namespace InStep

variable (h : InStep p c c') (fits : p.Fits room room')
include h fits

theorem parts (frame : FrameId) (r : Reading) :
    Form.PartsInStep p r (fun e => deeper room fun room => c.evaluate room e frame)
      (fun e => deeper room' fun room => c'.evaluate room e frame) :=
  fun allowed like => .deeper fits fun _ _ _ fits => h.evaluate fits allowed like frame

theorem continued (allowed : r.Allowed w) {next next' : Next} (like : LikeNext r w next next') :
    Run.InStep p w (c.continued room next) (c'.continued room' next') LikeValues := by
  cases like with
  | done like => exact .pure like
  | tail like => exact h.evaluate fits allowed like _

theorem callInPlace {procedure procedure' : Value} {args args' : List Value}
    (like : LikeValues w procedure procedure') (hargs : LikeLists w args args') (caller : FrameId) :
    Run.InStep p w (c.callInPlace room caller procedure args)
      (c'.callInPlace room' caller procedure' args') LikeValues := by
  have applied := h.apply fits like hargs caller
  cases like with
  | atom isAtom => cases procedure <;> first | exact applied | cases isAtom
  | closure _ allowed hps hbody =>
    exact (newFrame_inStep fits hps hargs _).bind_same fun w le inside =>
      h.evaluate fits (allowed.mono le) (hbody.mono le) inside
  | _ => exact applied

theorem applied {vs vs' : Operands} (like : LikeOperands w vs vs') (frame : FrameId) :
    Run.InStep p w (c.applied room frame vs) (c'.applied room' frame vs') LikeValues := by
  cases like with
  | escaped like => exact .pure like
  | values likes =>
    cases likes with
    | nil => exact .fail_same _
    | cons procedure args => exact h.callInPlace fits procedure args frame

/-- A form of a core keyword, when a step of it is in step. -/
theorem evaluation_of_step (allowed : r.Allowed w) {i j : Nat} {head head' : Value}
    {k : CoreKeyword} (hk : CoreKeyword.ofHead? head = some k)
    (hk' : CoreKeyword.ofHead? head' = some k) {rest rest' : List Value} {frame : FrameId}
    (step : Run.InStep p w
      (Form.step (fun e => deeper room fun room => c.evaluate room e frame) room frame k rest)
      (Form.step (fun e => deeper room' fun room => c'.evaluate room e frame) room' frame k rest')
      (LikeNext r)) :
    Run.InStep p w (c.evaluation room (.list i (head :: rest)) frame)
      (c'.evaluation room' (.list j (head' :: rest')) frame) LikeValues := by
  rw [evaluation_of_keyword c room i hk, evaluation_of_keyword c' room' j hk']
  exact step.bind fun w' le _ _ like => h.continued fits (allowed.mono le) like

theorem evaluation_of_operands (allowed : r.Allowed w) {i j : Nat} {head head' : Value}
    {rest rest' : List Value} (noKeyword : CoreKeyword.ofHead? head = none)
    (hhead : Like w r head head') (hrest : List.Forall₂ (Like w r) rest rest') (frame : FrameId) :
    Run.InStep p w (c.evaluation room (.list i (head :: rest)) frame)
      (c'.evaluation room' (.list j (head' :: rest')) frame) LikeValues := by
  rw [evaluation_of_application c room i noKeyword,
    evaluation_of_application c' room' j (hhead.coreOfHead?_eq ▸ noKeyword)]
  refine (Form.operands_inStep (h.parts fits frame r) allowed (.cons hhead hrest)).bind ?_
  exact fun w' _ _ _ like => h.applied fits like frame

/-- A test without an alternative, and its expansion. -/
theorem shortTest (allowed : Reading.expanded.Allowed w) {i j : Nat} {t t' e e' : Value}
    (ht : Like w .expanded t t') (he : Like w .expanded e e') (frame : FrameId) :
    Run.InStep p w (c.evaluation room (.list i [.symbol "if", t, e]) frame)
      (c'.evaluation room' (.list j [.symbol "if", t', e', .unspecified]) frame) LikeValues := by
  rw [evaluation_of_keyword c room i (k := .test) rfl,
    evaluation_of_keyword c' room' j (k := .test) rfl]
  dsimp only [Form.step, Form.test]
  rw [bind_assoc, bind_assoc]
  refine (h.parts fits frame .expanded allowed ht).bind fun w' le v v' like => ?_
  rw [like.isEscape_eq, like.isFalse_eq]
  split
  · exact .pure like
  · split
    · exact h.unspecified (allowed.mono le rfl) room' frame
    · exact h.evaluate fits (allowed.mono le) (he.mono le) frame

theorem evaluation (allowed : r.Allowed w) {form form' : Value} (like : Like w r form form')
    (frame : FrameId) :
    Run.InStep p w (c.evaluation room form frame) (c'.evaluation room' form' frame) LikeValues := by
  have parts := h.parts fits frame
  cases like with
  | atom isAtom =>
    cases form with
    | symbol name => exact lookup_inStep fits frame (.atom rfl)
    | nan | list | closure | escape => cases isAtom
    | _ => exact .pure (.atom rfl)
  | nan matched => exact .pure (.nan matched)
  | closure matched allowed hps hbody => exact .pure (.closure matched allowed hps hbody)
  | escape like => exact .pure (.escape like)
  | list _ items =>
    cases items with
    | nil => exact .fail_same _
    | @cons head head' _ _ hhead hrest =>
      cases keyword : CoreKeyword.ofHead? head with
      | none => exact h.evaluation_of_operands fits allowed keyword hhead hrest frame
      | some k =>
        have keyword' := hhead.coreOfHead?_eq ▸ keyword
        exact h.evaluation_of_step fits allowed keyword keyword'
          (Form.step_inStep (parts .plain) fits k hrest)
  | quote hd =>
    exact h.evaluation_of_step fits allowed (k := .quote) rfl rfl (.pure (.done hd))
  | shortTest ht he => exact h.shortTest fits allowed ht he frame
  | test ht he ho =>
    exact h.evaluation_of_step fits allowed (k := .test) rfl rfl
      (Form.test_inStep (parts _) allowed (.cons ht (.cons he (.cons ho .nil))))
  | @binding _ _ _ target e e' hk isAtom he =>
    have bound : Run.InStep p w (Form.bindingParts [target, e]) (Form.bindingParts [target, e'])
        (LikeBinding .expanded) := .pure ⟨.atom isAtom, he⟩
    obtain rfl | rfl := hk
    · exact h.evaluation_of_step fits allowed (k := .assign) rfl rfl
        (Form.assign_inStep (parts _) fits allowed bound)
    · exact h.evaluation_of_step fits allowed (k := .define) rfl rfl
        (Form.define_inStep (parts _) fits allowed bound)
  | emptySequence => exact .pure (.atom rfl)
  | sequence he hes =>
    exact h.evaluation_of_step fits allowed (k := .sequence) rfl rfl
      (Form.sequence_inStep (parts _) allowed (.cons he hes))
  | lambda hps hbody =>
    exact h.evaluation_of_step fits allowed (k := .lambda) rfl rfl
      (Form.lambda_inStep allowed hps (.pure hbody))
  | longLambda hps hes =>
    exact h.evaluation_of_step fits allowed (k := .lambda) rfl rfl
      (Form.lambda_inStep allowed hps (Form.longBody_inStep _ hes))
  | application noKeyword hhead hargs =>
    exact h.evaluation_of_operands fits allowed (coreOfHead?_none noKeyword) hhead hargs frame

end InStep

end Calls

end SmallLisp
