import SmallLisp.Evaluation
import SmallLisp.Proofs.Rehoming
/-!
# Primitives with other homes

No primitive looks a key up, and neither do the helpers of expansion. With other homes each does the same.
-/
namespace SmallLisp

open Run

variable {α : Type} {φ ψ : FrameId → FrameId} {room : Nat}

namespace Form

theorem refuse_rehomes {tr : α → α} (form : Value) (fault : FormFault) :
    Rehomes φ tr (refuse room form fault) (refuse room (form.rehome ψ) fault) :=
  (source_rehomes form).bind_same fun _ => .fail _

theorem require_rehomes (form : Value) (fault : FormFault) (ok : Bool) :
    Rehomes φ id (require room form fault ok) (require room (form.rehome ψ) fault ok) := by
  cases ok with
  | true => exact .pure rfl
  | false => exact refuse_rehomes form fault

theorem quoteForm_rehomes (v : Value) : Rehomes φ (Value.rehome φ) (quoteForm v) (quoteForm (v.rehome φ)) :=
  newList_rehomes [CoreKeyword.quote.symbol, v]

theorem body_rehomes (es : List Value) :
    Rehomes φ (Value.rehome φ) (body es) (body (es.map (Value.rehome φ))) := by
  rcases es with _ | ⟨e, _ | ⟨e', es⟩⟩
  · exact newList_rehomes [CoreKeyword.sequence.symbol]
  · exact .pure rfl
  · exact newList_rehomes (CoreKeyword.sequence.symbol :: e :: e' :: es)

theorem ofTemplate_rehomes (template : Value) :
    Rehomes φ (Value.rehome φ) (ofTemplate room template) (ofTemplate room (template.rehome φ)) := by
  induction room generalizing template with
  | zero => exact .fail _
  | succ room ih =>
    have joined (name : String) (e : Value) (rest : List Value) :
        Rehomes φ (Value.rehome φ)
          (do let after ← ofTemplate room (← newList rest); newList [.symbol name, e, after])
          (do
            let after ← ofTemplate room (← newList (rest.map (Value.rehome φ)))
            newList [.symbol name, e.rehome φ, after]) :=
      (newList_rehomes rest).bind fun tail => (ih tail).bind fun after =>
        newList_rehomes [.symbol name, e, after]
    cases template with
    | list i items =>
      cases items with
      | nil =>
        rw [Value.rehome_list]
        exact newList_rehomes [CoreKeyword.quote.symbol, .list i []]
      | cons head rest =>
        have form : (Value.list i (head :: rest)).rehome φ =
            .list i (head.rehome φ :: rest.map (Value.rehome φ)) := Value.rehome_list i (head :: rest)
        rw [form]
        unfold ofTemplate
        dsimp only
        rw [Value.isSymbol_rehome, Value.isSymbol_rehome, Value.isHeadedBy_rehome, ← form]
        refine (require_rehomes _ _ _).bind_same fun _ => ?_
        split
        · rcases rest with _ | ⟨e, _ | ⟨e', rest⟩⟩
          · exact refuse_rehomes _ _
          · exact .pure rfl
          · exact refuse_rehomes _ _
        · split
          · have refused : Rehomes φ (Value.rehome φ) (refuse room head .wrongLength)
                (refuse room (head.rehome φ) .wrongLength) := refuse_rehomes head _
            cases head with
            | list j parts =>
              rw [Value.rehome_list] at refused ⊢
              rcases parts with _ | ⟨splice, _ | ⟨e, _ | ⟨e', parts⟩⟩⟩
              · exact refused
              · exact refused
              · exact joined "append" e rest
              · exact refused
            | _ => exact refused
          · exact (ih head).bind fun first => joined "cons" first rest
    | _ => exact quoteForm_rehomes _

theorem letBinding?_rehome (v : Value) : letBinding? (v.rehome φ) =
    (letBinding? v).map (Prod.map (Value.rehome φ) (Value.rehome φ)) := by
  cases v with
  | list i parts =>
    rw [Value.rehome_list]
    rcases parts with _ | ⟨name, _ | ⟨e, _ | ⟨e', parts⟩⟩⟩
    · rfl
    · cases name <;> rfl
    · cases name with
      | list j items => rw [List.map_cons, Value.rehome_list]; rfl
      | _ => rfl
    · cases name <;> rfl
  | _ => rfl

theorem letBindings?_rehome (v : Value) : letBindings? (v.rehome φ) =
    (letBindings? v).map (List.map (Prod.map (Value.rehome φ) (Value.rehome φ))) := by
  cases v with
  | list i bindings =>
    rw [Value.rehome_list]
    unfold letBindings?
    dsimp only
    induction bindings with
    | nil => rfl
    | cons b bs ih =>
      rw [List.map_cons, List.mapM_cons, List.mapM_cons, letBinding?_rehome, ih]
      cases letBinding? b with
      | none => rfl
      | some pair => cases bs.mapM letBinding? <;> rfl
  | _ => rfl

theorem expandLet_rehomes (operands : List Value) :
    Rehomes φ (Value.rehome φ) (expandLet room operands) (expandLet room (operands.map (Value.rehome φ))) := by
  have form := Value.rehome_list (φ := φ) 0 (.symbol "let" :: operands)
  have refused (fault : FormFault) : Rehomes φ (Value.rehome φ)
      (refuse room (.list 0 (.symbol "let" :: operands)) fault)
      (refuse room (.list 0 (.symbol "let" :: operands.map (Value.rehome φ))) fault) :=
    form ▸ refuse_rehomes _ fault
  rcases operands with _ | ⟨bindings, _ | ⟨first, more⟩⟩
  · exact refused _
  · exact refused _
  · unfold expandLet
    simp only [List.map_cons, letBindings?_rehome]
    cases letBindings? bindings with
    | none => exact refused _
    | some pairs =>
      simp only [Option.map_some]
      have names : (pairs.map (Prod.map (Value.rehome φ) (Value.rehome φ))).map (·.1) =
          (pairs.map (·.1)).map (Value.rehome φ) := by simp
      have values : (pairs.map (Prod.map (Value.rehome φ) (Value.rehome φ))).map (·.2) =
          (pairs.map (·.2)).map (Value.rehome φ) := by simp
      rw [names, values]
      refine (newList_rehomes _).bind fun names => ?_
      refine (newList_rehomes (CoreKeyword.lambda.symbol :: names :: first :: more)).bind fun closure => ?_
      exact newList_rehomes (closure :: pairs.map (·.2))

end Form

namespace Primitive

variable (args : List Value)

theorem ofMath_rehomes (name : String) (e : Except MathFault Number) :
    Rehomes φ (Value.rehome φ) (ofMath name e) (ofMath name e) := by
  cases e with
  | ok x => exact newNumber_rehomes x
  | error fault => exact .fail _

theorem ofDivision_rehomes (e : Except Number.DivisionFault Number) :
    Rehomes φ id (ofDivision e) (ofDivision e) := by
  rcases e with (_ | cause) | x
  · exact .fail _
  · exact .fail _
  · exact .pure rfl

theorem runSubtract_rehomes :
    Rehomes φ (Value.rehome φ) (runSubtract room args) (runSubtract room (args.map (Value.rehome φ))) := by
  refine (numbers_rehomes "-" args).bind_same fun xs => ?_
  rcases xs with _ | ⟨x, _ | ⟨y, xs⟩⟩
  · exact .fail _
  · exact newNumber_rehomes _
  · exact (ofOverflow_rehomes _).bind_same newNumber_rehomes

theorem runDivide_rehomes :
    Rehomes φ (Value.rehome φ) (runDivide room args) (runDivide room (args.map (Value.rehome φ))) := by
  refine (numbers_rehomes "/" args).bind_same fun xs => ?_
  rcases xs with _ | ⟨x, _ | ⟨y, xs⟩⟩
  · exact .fail _
  · exact (ofDivision_rehomes _).bind_same newNumber_rehomes
  · exact (ofDivision_rehomes _).bind_same newNumber_rehomes

theorem runEqual_rehomes :
    Rehomes φ (Value.rehome φ) (runEqual room args) (runEqual room (args.map (Value.rehome φ))) := by
  refine (twoOperands_rehomes "equal?" args).bind fun (v, w) => ?_
  simp only [Prod.map_apply, Value.equal?_rehome]
  cases v.equal? room w with
  | some b => exact .pure rfl
  | none => exact .fail _

theorem runSame_rehomes : Rehomes φ (Value.rehome φ) (runSame args) (runSame (args.map (Value.rehome φ))) := by
  refine (twoOperands_rehomes "eq?" args).bind fun (v, w) => ?_
  simp only [Prod.map_apply, Value.same_rehome]
  exact .pure rfl

theorem runCons_rehomes :
    Rehomes φ (Value.rehome φ) (runCons room args) (runCons room (args.map (Value.rehome φ))) :=
  (twoOperands_rehomes "cons" args).bind fun (head, tail) =>
    (listOperand_rehomes "cons" tail).bind fun items => newList_rehomes (head :: items)

theorem runCar_rehomes :
    Rehomes φ (Value.rehome φ) (runCar room args) (runCar room (args.map (Value.rehome φ))) := by
  refine (oneOperand_rehomes "car" args).bind fun v => (listOperand_rehomes "car" v).bind fun items => ?_
  cases items with
  | nil => exact .fail _
  | cons head _ => exact .pure rfl

theorem runCdr_rehomes :
    Rehomes φ (Value.rehome φ) (runCdr room args) (runCdr room (args.map (Value.rehome φ))) := by
  refine (oneOperand_rehomes "cdr" args).bind fun v => (listOperand_rehomes "cdr" v).bind fun items => ?_
  cases items with
  | nil => exact .fail _
  | cons _ tail => exact newList_rehomes tail

theorem runAppend_rehomes :
    Rehomes φ (Value.rehome φ) (runAppend room args) (runAppend room (args.map (Value.rehome φ))) := by
  refine (Rehomes.mapM args fun v => listOperand_rehomes "append" v).bind fun lists => ?_
  rw [← List.map_flatten]
  exact newList_rehomes lists.flatten

theorem runLength_rehomes :
    Rehomes φ (Value.rehome φ) (runLength room args) (runLength room (args.map (Value.rehome φ))) := by
  refine (oneOperand_rehomes "length" args).bind fun v => ?_
  have refused : Rehomes φ (Value.rehome φ)
      (do Run.fail (.type (.notListOrString (← source room v))) : Run Value)
      (do Run.fail (.type (.notListOrString (← source room (v.rehome φ)))) : Run Value) :=
    (source_rehomes v).bind_same fun _ => .fail _
  cases v with
  | list i items =>
    rw [Value.rehome_list]
    exact .pure (congrArg (fun n : Nat => Value.int n) (List.length_map _).symm)
  | string s => exact .pure rfl
  | _ => exact refused

theorem runDisplay_rehomes :
    Rehomes φ (Value.rehome φ) (runDisplay room args) (runDisplay room (args.map (Value.rehome φ))) := by
  refine (oneOperand_rehomes "display" args).bind fun v => ?_
  have shown : Rehomes φ (Value.rehome φ)
      (do writeLine (← source room v); return .unspecified : Run Value)
      (do writeLine (← source room (v.rehome φ)); return .unspecified : Run Value) :=
    (source_rehomes v).bind_same fun line => (writeLine_rehomes line).bind_same fun _ => .pure rfl
  cases v with
  | string s => exact (writeLine_rehomes s).bind_same fun _ => .pure rfl
  | _ => exact shown

theorem runElementary_rehomes (f : Elementary) :
    Rehomes φ (Value.rehome φ) (runElementary f room args) (runElementary f room (args.map (Value.rehome φ))) := by
  refine (oneOperand_rehomes f.name args).bind fun v => ?_
  rw [Value.number?_rehome]
  cases v.number? with
  | some x =>
    dsimp only
    split
    · exact .pure rfl
    · exact ofMath_rehomes _ _
  | none =>
    refine .get_bind fun m => ?_
    have live : (m.rehome φ).isLive = m.isLive := rfl
    rw [Value.text?_rehome, live]
    cases v.text? m.isLive room .source with
    | ok shown => exact .fail _
    | error failure => cases failure <;> exact .fail _

theorem runPower_rehomes :
    Rehomes φ (Value.rehome φ) (runPower room args) (runPower room (args.map (Value.rehome φ))) := by
  refine (twoOperands_rehomes "pow" args).bind fun (v, w) => ?_
  refine (numbers_rehomes "pow" [v, w]).bind_same fun xs => ?_
  rw [List.length_map]
  rcases xs with _ | ⟨x, _ | ⟨y, _ | ⟨z, xs⟩⟩⟩
  · exact .fail _
  · exact .fail _
  · exact ofMath_rehomes _ _
  · exact .fail _

theorem runAtan2_rehomes :
    Rehomes φ (Value.rehome φ) (runAtan2 room args) (runAtan2 room (args.map (Value.rehome φ))) := by
  refine (requireArity_rehomes "atan2" 2 args).bind_same fun _ => ?_
  refine (numbers_rehomes "atan2" args).bind_same fun xs => (ofOverflow_rehomes _).bind_same fun fs => ?_
  rw [List.length_map]
  rcases fs with _ | ⟨y, _ | ⟨x, _ | ⟨z, fs⟩⟩⟩
  · exact .fail _
  · exact .fail _
  · exact newNumber_rehomes _
  · exact .fail _

theorem runExtreme_rehomes (name : String) (beats : Number → Number → Bool) :
    Rehomes φ (Value.rehome φ) (runExtreme name beats room args)
      (runExtreme name beats room (args.map (Value.rehome φ))) := by
  have numbered : Rehomes φ (List.map (Prod.map id (Value.rehome φ))) (numbered room name args)
      (numbered room name (args.map (Value.rehome φ))) :=
    (numbers_rehomes name args).bind_same fun xs => .pure (by rw [List.zip_map_right])
  refine numbered.bind fun xs => ?_
  cases xs with
  | nil => exact .fail _
  | cons x xs =>
    refine .pure ?_
    induction xs generalizing x with
    | nil => rfl
    | cons y ys ih =>
      simp only [List.map_cons, List.foldl_cons, Prod.map_fst, id_eq]
      split
      · exact ih y
      · exact ih x

theorem runRandom_rehomes :
    Rehomes φ (Value.rehome φ) (runRandom args) (runRandom (args.map (Value.rehome φ))) := by
  refine (requireArity_rehomes "random" 0 args).bind_same fun _ => ?_
  have drawn : Rehomes φ id draw draw := fun _ => rfl
  exact drawn.bind_same fun number => .pure rfl

theorem run_rehomes (p : Primitive) :
    Rehomes φ (Value.rehome φ) (p.run room args) (p.run room (args.map (Value.rehome φ))) := by
  cases p with
  | add =>
    exact (numbers_rehomes "+" args).bind_same fun _ => (ofOverflow_rehomes _).bind_same newNumber_rehomes
  | multiply =>
    exact (numbers_rehomes "*" args).bind_same fun _ => (ofOverflow_rehomes _).bind_same newNumber_rehomes
  | hypotenuse =>
    exact (numbers_rehomes "hypot" args).bind_same fun _ => (ofOverflow_rehomes _).bind_same fun _ =>
      newNumber_rehomes _
  | compare c => exact (numbers_rehomes c.name args).bind_same fun _ => .pure rfl
  | not => exact (oneOperand_rehomes "not" args).bind fun v => .pure (by rw [Value.isFalse_rehome]; rfl)
  | isKind k => exact (oneOperand_rehomes k.name args).bind fun v => .pure (by rw [Value.hasKind_rehome]; rfl)
  | same => exact runSame_rehomes args
  | list => exact newList_rehomes args
  | subtract => exact runSubtract_rehomes args
  | divide => exact runDivide_rehomes args
  | equal => exact runEqual_rehomes args
  | length => exact runLength_rehomes args
  | cons => exact runCons_rehomes args
  | car => exact runCar_rehomes args
  | cdr => exact runCdr_rehomes args
  | append => exact runAppend_rehomes args
  | display => exact runDisplay_rehomes args
  | atan2 => exact runAtan2_rehomes args
  | power => exact runPower_rehomes args
  | greatest => exact runExtreme_rehomes args "max" Number.greater
  | least => exact runExtreme_rehomes args "min" fun a b => b.greater a
  | random => exact runRandom_rehomes args
  | elementary f => exact runElementary_rehomes args f
  | expandLet => exact Form.expandLet_rehomes args

end Primitive

/-! ## Frames and continuations -/

namespace Run

theorem bindParameters_rehomes (parameters : Value) (args : List Value) :
    Rehomes φ (Bindings.rehome φ) (bindParameters room parameters args)
      (bindParameters room (parameters.rehome fun _ => 0) (args.map (Value.rehome φ))) := by
  unfold bindParameters
  rw [Value.name?_rehome, Value.elements?_rehome, Value.kindName_rehome, List.length_map]
  cases parameters.name? with
  | some name => exact (newList_rehomes args).bind fun v => .pure rfl
  | none =>
    cases parameters.elements? with
    | none => exact .fail _
    | some ps =>
      simp only [Option.map_some, List.length_map]
      split
      · refine (Rehomes.mapM ps fun p => bare_rehomes p).bind fun names => ?_
        rw [List.map_id]
        exact .fail _
      · refine .ofExcept ?_
        rw [← Bindings.ofPairs_rehome, List.zip_map]
        rfl

theorem invoke_rehomes (k : Nat) (args : List Value) :
    Rehomes φ (Value.rehome φ) (invoke k args) (invoke k (args.map (Value.rehome φ))) := by
  refine .get_bind fun m => ?_
  change Rehomes φ (Value.rehome φ) _ (do
    if !m.isLive k then Run.fail .spentContinuation
    _)
  cases m.isLive k with
  | false => exact .fail _
  | true =>
    rcases args with _ | ⟨v, _ | ⟨w, rest⟩⟩
    · exact .pure rfl
    · exact .pure rfl
    · simp only [List.map_cons, List.length_cons, List.length_map]
      exact .fail _

theorem bind_rehomes (f : FrameId) (b : Binding) : Rehomes φ id (Run.bind f b) (Run.bind f (b.rehome φ)) := by
  intro m
  change (Except.ok (), { m.rehome φ with frames := (m.frames.rehome φ).define f (b.rehome φ) }) = _
  rw [← Frames.define_rehome]
  rfl

theorem register_rehomes (name : String) (t : Value) :
    Rehomes φ id (register name t) (register name (t.rehome φ)) := by
  intro m
  change (Except.ok (), { m.rehome φ with
    transformers := (m.transformers.rehome φ).put (Binding.rehome φ (.ofName name t)) }) = _
  rw [← Bindings.put_rehome]
  rfl

end Run

end SmallLisp
