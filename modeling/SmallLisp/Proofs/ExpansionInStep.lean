import SmallLisp.Proofs.EvaluationInStep
/-!
# Applications and expansions in step

A procedure is applied in step with itself, and so is a form expanded: what is expanded while the program
runs is the same in both runs. By induction on the steps, the operations with some steps left are in step.
-/
namespace SmallLisp

open Run Value

variable {p : Pace} {w : Matching} {room room' : Nat} {args args' : List Value}

theorem Value.Like.received {v v' : Value} (h : Like w .plain v v') (k : Nat) :
    Like w .plain (v.received k) (v'.received k) := by
  cases h with
  | atom isAtom => cases v <;> first | exact .atom rfl | cases isAtom
  | nan matched => exact .nan matched
  | closure matched allowed ps body => exact .closure matched allowed ps body
  | list matched items => exact .list matched items
  | escape inner =>
    simp only [Value.received]
    split
    · exact inner
    · exact .escape inner

theorem Value.Like.areParameters_eq {v v' : Value} (h : Like w .plain v v') :
    Form.areParameters v = Form.areParameters v' := by
  have isParameter {v v' : Value} (h : Like w .plain v v') :
      Form.isParameter v = Form.isParameter v' := by
    cases h <;> rfl
  cases h with
  | list _ items =>
    have all : ∀ {vs vs'}, LikeLists w vs vs' → vs.all Form.isParameter = vs'.all Form.isParameter := by
      intro vs vs' likes
      induction likes with
      | nil => rfl
      | cons first _ ih => simp only [List.all_cons, isParameter first, ih]
    exact all items
  | _ => rfl

namespace Calls.InStep

variable {c c' : Calls} (h : c.InStep p c') (fits : p.Fits room room')
include h fits

theorem application {procedure procedure' : Value} (like : LikeValues w procedure procedure')
    (hargs : LikeLists w args args') (caller : FrameId) :
    Run.InStep p w (c.application room procedure args caller)
      (c'.application room' procedure' args' caller) LikeValues := by
  have refused : Run.InStep p w (do Run.fail (.type (.notProcedure (← source room procedure))) : Run Value)
      (do Run.fail (.type (.notProcedure (← source room' procedure')))) LikeValues :=
    (source_inStep fits like.shown).bind fun _ _ _ _ texts => .fail (.type (.notProcedure texts))
  cases like with
  | closure _ allowed hps hbody =>
    refine (newFrame_inStep fits hps hargs _).bind_same fun w le inside => ?_
    refine .deeper fits fun _ _ _ fits => ?_
    exact h.evaluate fits (allowed.mono le) (hbody.mono le) inside
  | atom isAtom =>
    cases procedure with
    | continuation k => exact invoke_inStep k hargs
    | primitive q => exact q.run_inStep fits hargs
    | control name =>
      cases name with
      | apply =>
        refine (twoOperands_inStep "apply" hargs).bind fun w _ (f, v) (f', v') ⟨hf, hv⟩ => ?_
        refine (listOperand_inStep fits "apply" hv).bind fun w le vs vs' likes => ?_
        exact .deeper fits fun _ _ _ fits => h.apply fits (hf.mono le) likes caller
      | eval =>
        refine (oneOperand_inStep "eval" hargs).bind fun w _ form form' like => ?_
        refine .bind (.deeper fits fun _ _ _ fits => h.expand fits like false) fun w _ _ _ core => ?_
        exact .deeper fits fun _ _ _ fits => h.evaluate fits (Reading.allowed_plain _) core _
      | callWithEscape =>
        refine (oneOperand_inStep "call/cc" hargs).bind fun w _ f f' hf => ?_
        refine openContinuation_inStep.bind_same fun w le k => ?_
        refine .bind (.spending k (.deeper fits fun _ _ _ fits =>
          h.apply fits (hf.mono le) (.cons (.atom rfl) .nil) caller)) ?_
        exact fun w _ v v' like => .pure (like.received k)
    | nan | list | closure | escape => cases isAtom
    | _ => exact refused
  | _ => exact refused

theorem inner {form form' : Value} (like : LikeValues w form form') (toplevel : Bool) :
    Run.InStep p w (deeper room fun room => c.expand room form toplevel)
      (deeper room' fun room => c'.expand room form' toplevel) LikeValues :=
  .deeper fits fun _ _ _ fits => h.expand fits like toplevel

section Definitions

variable {form form' head head' : Value} (hform : LikeValues w form form')
  (hhead : LikeValues w head head') (toplevel : Bool)
include hform hhead

/-- A definition with a list target. -/
theorem closureDefinition {i j : Nat} {name name' : Value} {ps ps' body body' : List Value}
    (hname : LikeValues w name name') (hps : LikeLists w ps ps') (hbody : LikeLists w body body') :
    Run.InStep p w (c.definition room form head (.list i (name :: ps) :: body) toplevel)
      (c'.definition room' form' head' (.list j (name' :: ps') :: body') toplevel) LikeValues := by
  have empty : body.isEmpty = body'.isEmpty := by cases hbody <;> rfl
  simp only [Calls.definition, empty]
  refine (Form.require_inStep fits .wrongLength _ hform.shown).bind fun w₁ le₁ _ _ _ => ?_
  refine (newList_inStep (hps.imp fun _ _ h => h.mono le₁)).bind fun w₂ le₂ _ _ parameters => ?_
  have le₂ := le₁.trans le₂
  have forms : LikeLists w₂ body body' := hbody.imp fun _ _ h => h.mono le₂
  refine (newList_inStep (.cons (.atom rfl) (.cons parameters forms))).bind fun w₃ le₃ _ _ closure => ?_
  have le₃ := le₂.trans le₃
  refine (newList_inStep (.cons (hhead.mono le₃) (.cons (hname.mono le₃) (.cons closure .nil)))).bind ?_
  exact fun _ _ _ _ plain => h.inner fits plain toplevel

/-- A definition of a variable or a transformer. -/
theorem nameDefinition (name : String) {e e' : Value} (he : LikeValues w e e') :
    Run.InStep p w (c.definition room form head [.symbol name, e] toplevel)
      (c'.definition room' form' head' [.symbol name, e'] toplevel) LikeValues := by
  refine (h.inner fits he false).bind fun w₁ le₁ _ _ core => ?_
  rw [hhead.isSymbol_eq]
  split
  · refine (Form.require_inStep fits .notTopLevel toplevel (hform.mono le₁).shown).bind ?_
    intro w₂ le₂ _ _ _
    refine .bind (.deeper fits fun _ _ _ fits =>
      h.evaluate fits (Reading.allowed_plain _) (core.mono le₂) Machine.root) ?_
    intro w₃ le₃ t t' ht
    rw [ht.isProcedure_eq]
    have le := le₁.trans (le₂.trans le₃)
    refine (Form.require_inStep fits .notTransformer _ (hform.mono le).shown).bind ?_
    intro w₄ le₄ _ _ _
    exact (register_inStep name (ht.mono le₄)).bind fun _ _ _ _ _ => .pure (.atom rfl)
  · exact newList_inStep (.cons (hhead.mono le₁) (.cons (.atom rfl) (.cons core .nil)))

theorem definition {rest rest' : List Value} (hrest : LikeLists w rest rest') :
    Run.InStep p w (c.definition room form head rest toplevel)
      (c'.definition room' form' head' rest' toplevel) LikeValues := by
  have refused := fun fault => Form.refused_inStep fits fault hform
  rcases hrest with _ | @⟨target, _, more, more', htarget, hmore⟩
  · exact refused _
  cases htarget with
  | list _ items =>
    rcases items with _ | ⟨hname, hps⟩
    · cases hmore <;> exact refused _
    · exact h.closureDefinition fits hform hhead toplevel hname hps hmore
  | atom isAtom =>
    rcases hmore with _ | ⟨he, _ | _⟩
    · cases target <;> first | exact refused _ | cases isAtom
    · cases target with
      | symbol name => exact h.nameDefinition fits hform hhead toplevel name he
      | list => cases isAtom
      | _ => exact refused _
    · cases target <;> first | exact refused _ | cases isAtom
  | _ => rcases hmore with _ | ⟨_, _ | _⟩ <;> exact refused _

end Definitions

theorem expandedParts {es es' : List Value} (likes : LikeLists w es es') (toplevel : Bool) :
    Run.InStep p w (es.mapM fun e => deeper room fun room => c.expand room e toplevel)
      (es'.mapM fun e => deeper room' fun room => c'.expand room e toplevel) LikeLists :=
  .mapM (grows_like .plain) (grows_like .plain) likes fun _ _ _ _ like => h.inner fits like toplevel

/-- A list of expanded parts. -/
theorem partList {es es' : List Value} (likes : LikeLists w es es') (toplevel : Bool) :
    Run.InStep p w
      (es.mapM (fun e => deeper room fun room => c.expand room e toplevel) >>= newList)
      (es'.mapM (fun e => deeper room' fun room => c'.expand room e toplevel) >>= newList) LikeValues :=
  (h.expandedParts fits likes toplevel).bind fun _ _ _ _ likes => newList_inStep likes

theorem expansion {form form' : Value} (like : LikeValues w form form') (toplevel : Bool) :
    Run.InStep p w (c.expansion room form toplevel) (c'.expansion room' form' toplevel)
      LikeValues := by
  have hform := like
  have refused := fun fault => Form.refused_inStep fits fault hform
  cases like with
  | atom isAtom => cases form <;> first | exact .pure hform | cases isAtom
  | list _ items =>
    rcases items with _ | @⟨head, head', rest, rest', hhead, hrest⟩
    · exact refused _
    have all := List.Forall₂.cons hhead hrest
    unfold Calls.expansion
    dsimp only
    rw [hhead.ofHead?_eq]
    cases Keyword.ofHead? head' with
    | none =>
      refine (transformer?_inStep hhead).bind fun w le t t' transformers => ?_
      cases transformers with
      | none => exact h.partList fits (all.imp fun _ _ h => h.mono le) false
      | some ht =>
        refine .bind (.deeper fits fun _ _ _ fits =>
          h.apply fits ht (hrest.imp fun _ _ h => h.mono le) Machine.root) ?_
        exact fun _ _ _ _ e => h.inner fits e false
    | some keyword =>
      cases keyword with
      | defineTransformer => exact h.definition fits hform hhead toplevel hrest
      | template =>
        rcases hrest with _ | ⟨ht, _ | _⟩
        · exact refused _
        · exact (Form.ofTemplate_inStep fits ht).bind fun _ _ _ _ e => h.inner fits e false
        · exact refused _
      | core k =>
        cases k with
        | quote =>
          dsimp only
          rw [hrest.length_eq]
          exact (Form.require_inStep fits .wrongLength _ hform.shown).bind fun w le _ _ _ =>
            .pure (hform.mono le)
        | test =>
          rcases hrest with _ | ⟨ht, _ | ⟨hc, _ | ⟨ho, _ | _⟩⟩⟩
          · exact refused _
          · exact refused _
          · exact h.partList fits (.cons hhead (.cons ht (.cons hc (.cons (.atom rfl) .nil)))) false
          · exact h.partList fits all false
          · exact refused _
        | assign =>
          rcases hrest with _ | ⟨htarget, _ | ⟨he, _ | _⟩⟩
          · exact refused _
          · exact refused _
          · simp only [htarget.hasKind_eq]
            refine (Form.require_inStep fits .assignsNonSymbol _ hform.shown).bind fun w le _ _ _ => ?_
            refine (h.inner fits (he.mono le) false).bind fun w le' _ _ core => ?_
            have le := le.trans le'
            exact newList_inStep (.cons (hhead.mono le) (.cons (htarget.mono le) (.cons core .nil)))
          · exact refused _
        | define => exact h.definition fits hform hhead toplevel hrest
        | sequence =>
          rcases hrest with _ | ⟨_, _⟩
          · exact .pure (.atom rfl)
          · exact h.partList fits all toplevel
        | lambda =>
          rcases hrest with _ | ⟨hps, _ | ⟨hfirst, hmore⟩⟩
          · exact refused _
          · exact refused _
          · simp only [hps.areParameters_eq]
            refine (Form.require_inStep fits .illegalParameters _ hform.shown).bind fun w le _ _ _ => ?_
            have forms := List.Forall₂.cons (hfirst.mono le) (hmore.imp fun _ _ h => h.mono le)
            refine (Form.body_inStep forms).bind fun w le₁ _ _ body => ?_
            refine (h.inner fits body false).bind fun w le₂ _ _ core => ?_
            have le := le.trans (le₁.trans le₂)
            exact newList_inStep (.cons (hhead.mono le) (.cons (hps.mono le) (.cons core .nil)))
  | _ => exact .pure hform

omit fits in
theorem next : c.next.InStep p c'.next where
  evaluate fits allowed like frame := h.evaluation fits allowed like frame
  apply fits like hargs caller := h.application fits like hargs caller
  expand fits like toplevel := h.expansion fits like toplevel
  unspecified _ _ _ := .pure (.atom rfl)

end Calls.InStep

theorem Calls.InStep.of_second_spent (c : Calls) : c.InStep .second (calls 0) where
  evaluate _ _ _ _ := .second_stopped .outOfSteps trivial
  apply _ _ _ _ := .second_stopped .outOfSteps trivial
  expand _ _ _ := .second_stopped .outOfSteps trivial
  unspecified _ _ _ := .second_stopped .outOfSteps trivial

theorem Calls.InStep.of_first_spent (fuel : Nat) : (calls 0).InStep .first (calls (fuel + 1)) where
  evaluate _ _ _ _ := .first_stopped .outOfSteps trivial
  apply _ _ _ _ := .first_stopped .outOfSteps trivial
  expand _ _ _ := .first_stopped .outOfSteps trivial
  unspecified _ _ _ := .pure (.atom rfl)

theorem Calls.InStep.of_both_spent : (calls 0).InStep .even (calls 0) where
  evaluate _ _ _ _ := .outOfSteps
  apply _ _ _ _ := .outOfSteps
  expand _ _ _ := .outOfSteps
  unspecified expanding _ _ := fun allows => absurd expanding (allows rfl)

/-- The run with less room has no more steps. -/
def Pace.FitsSteps : Pace → (fuel fuel' : Nat) → Prop
  | even, fuel, fuel' => fuel = fuel'
  | first, fuel, fuel' => fuel < fuel'
  | second, fuel, fuel' => fuel' ≤ fuel

/-- The operations with some steps left are in step. -/
theorem calls_inStep {fuel fuel' : Nat} (steps : p.FitsSteps fuel fuel') :
    (calls fuel).InStep p (calls fuel') := by
  induction fuel generalizing fuel' with
  | zero =>
    cases p with
    | even =>
      obtain rfl : 0 = fuel' := steps
      exact .of_both_spent
    | first =>
      obtain ⟨fuel', rfl⟩ := Nat.exists_eq_add_one.mpr (show 0 < fuel' from steps)
      exact .of_first_spent fuel'
    | second =>
      obtain rfl : fuel' = 0 := Nat.le_zero.mp steps
      exact .of_second_spent _
  | succ fuel ih =>
    cases fuel' with
    | zero =>
      cases p with
      | second => exact .of_second_spent _
      | even | first => cases steps
    | succ fuel' =>
      refine Calls.InStep.next (ih ?_)
      cases p <;> simp only [Pace.FitsSteps] at steps ⊢ <;> omega

end SmallLisp
