import SmallLisp.Proofs.InStep
/-!
# Primitives in step

A primitive asks its operands for numbers, lists and texts, and makes new objects. Applied to operands that
are alike it is in step with itself.
-/
namespace SmallLisp

open Run Value

variable {α : Type} {p : Pace} {w : Matching} {room room' : Nat} {args args' : List Value}

namespace Run

theorem requireArity_inStep (name : String) (expected : Nat)
    (h : LikeLists w args args') :
    InStep p w (requireArity name expected args) (requireArity name expected args')
      fun _ _ _ => True := by
  unfold requireArity
  rw [h.length_eq]
  split
  · exact .pure trivial
  · exact .fail_same _

theorem oneOperand_inStep (name : String) (h : LikeLists w args args') :
    InStep p w (oneOperand name args) (oneOperand name args') LikeValues := by
  have length := h.length_eq
  rcases h with _ | ⟨first, _ | ⟨second, rest⟩⟩
  · exact .fail_same _
  · exact .pure first
  · dsimp only [oneOperand]
    rw [length]
    exact .fail_same _

theorem twoOperands_inStep (name : String) (h : LikeLists w args args') :
    InStep p w (twoOperands name args) (twoOperands name args')
      fun w x y => LikeValues w x.1 y.1 ∧ LikeValues w x.2 y.2 := by
  have length := h.length_eq
  rcases h with _ | ⟨first, _ | ⟨second, _ | ⟨third, rest⟩⟩⟩
  · exact .fail_same _
  · exact .fail_same _
  · exact .pure ⟨first, second⟩
  · dsimp only [twoOperands]
    rw [length]
    exact .fail_same _

theorem newNumber_inStep (x : Number) : InStep p w (newNumber x) (newNumber x) LikeValues := by
  cases x with
  | int n => exact .pure (.atom rfl)
  | float x =>
    dsimp only [newNumber]
    split
    · exact newObject_inStep.bind fun _ _ _ _ matched => .pure (.nan matched)
    · exact .pure (.atom rfl)

theorem ofOverflow_inStep (e : Except Overflow α) :
    InStep p w (ofOverflow e) (ofOverflow e) fun _ x y => x = y := by
  cases e with
  | ok x => exact .pure rfl
  | error cause => exact .fail_same _

section Rooms

variable (fits : p.Fits room room')
include fits

theorem numbers_inStep (name : String) (h : LikeLists w args args') :
    InStep p w (numbers room name args) (numbers room' name args') fun _ xs ys => xs = ys := by
  induction h with
  | nil => exact .pure rfl
  | @cons v v' vs vs' first _ ih =>
    unfold numbers
    rw [first.number?_eq]
    cases v'.number? with
    | some x => exact ih.bind_same fun _ _ _ => .pure rfl
    | none =>
      exact (source_inStep fits first.shown).bind fun _ _ _ _ texts => .fail (.type (.notNumber name texts))

theorem numbered_inStep (name : String) (h : LikeLists w args args') :
    InStep p w (numbered room name args) (numbered room' name args') fun w =>
      List.Forall₂ fun x y => x.1 = y.1 ∧ LikeValues w x.2 y.2 :=
  (numbers_inStep fits name h).bind_same fun _ le xs =>
    .pure (forall₂_zip_zip (List.forall₂_refl xs) (h.imp fun _ _ h => h.mono le))

theorem listOperand_inStep (name : String) {v v' : Value} (h : LikeValues w v v') :
    InStep p w (listOperand room name v) (listOperand room' name v') LikeLists := by
  have refused : InStep p w
      (do Run.fail (.type (.notList name (← source room v))) : Run (List Value))
      (do Run.fail (.type (.notList name (← source room' v'))) : Run (List Value)) LikeLists :=
    (source_inStep fits h.shown).bind fun _ _ _ _ texts => .fail (.type (.notList name texts))
  cases h with
  | atom isAtom => cases v <;> first | exact refused | cases isAtom
  | list _ items => exact .pure items
  | _ => exact refused

end Rooms

end Run

namespace Form

theorem isHeadedBy_eq {v v' : Value} (h : LikeValues w v v') (name : String) :
    isHeadedBy name v = isHeadedBy name v' := by
  cases h with
  | list _ items =>
    cases items with
    | nil => rfl
    | cons head _ => exact head.isSymbol_eq name
  | _ => rfl

section Rooms

variable (fits : p.Fits room room')
include fits

theorem refuse_inStep {P : Matching → α → α → Prop} {form form' : Value} (fault : FormFault)
    (h : ShownAlike w form form') :
    InStep p w (refuse room form fault) (refuse room' form' fault) P :=
  (source_inStep fits h).bind fun _ _ _ _ texts => .fail (.malformed fault texts)

theorem require_inStep {form form' : Value} (fault : FormFault) (ok : Bool)
    (h : ShownAlike w form form') :
    InStep p w (require room form fault ok) (require room' form' fault ok) fun _ _ _ => True := by
  cases ok with
  | true => exact .pure trivial
  | false => exact refuse_inStep fits fault h

/-- A form that is refused. -/
theorem refused_inStep {form form' : Value} (fault : FormFault) (h : LikeValues w form form') :
    InStep p w (refuse room form fault : Run Value) (refuse room' form' fault) LikeValues :=
  refuse_inStep fits fault h.shown

omit fits in
/-- A first part and the code of the rest of a template list. -/
theorem joined_inStep (h : ∀ {w t t'}, LikeValues w t t' →
      InStep p w (ofTemplate room t) (ofTemplate room' t') LikeValues)
    (name : String) {first first' : Value} {rest rest' : List Value} (hfirst : LikeValues w first first')
    (hrest : LikeLists w rest rest') :
    InStep p w
      (do let after ← ofTemplate room (← newList rest); newList [.symbol name, first, after])
      (do let after ← ofTemplate room' (← newList rest'); newList [.symbol name, first', after])
      LikeValues := by
  refine (newList_inStep hrest).bind fun w₁ le₁ v v' like => ?_
  refine (h like).bind fun w₂ le₂ after after' hafter => ?_
  exact newList_inStep (.cons (.atom rfl) (.cons (hfirst.mono (le₁.trans le₂)) (.cons hafter .nil)))

theorem ofTemplate_inStep {t t' : Value} (h : LikeValues w t t') :
    InStep p w (ofTemplate room t) (ofTemplate room' t') LikeValues := by
  induction room using Nat.strongRecOn generalizing w room' t t' with
  | ind room ih =>
    have unfolded (room : Nat) (t : Value) :
        ofTemplate room t = deeper room fun room => ofTemplate (room + 1) t := by
      cases room <;> rfl
    rw [unfolded room, unfolded room']
    refine .deeper fits fun r r' lt fits => ?_
    have quoted : InStep p w (quoteForm t) (quoteForm t') LikeValues :=
      newList_inStep (.cons (.atom rfl) (.cons h .nil))
    cases h with
    | atom isAtom => cases t <;> first | exact quoted | cases isAtom
    | list matched items =>
      rcases items with _ | @⟨head, head', rest, rest', hhead, hrest⟩
      · exact quoted
      have template : LikeValues w (.list _ (head :: rest)) (.list _ (head' :: rest')) :=
        .list matched (.cons hhead hrest)
      unfold ofTemplate
      dsimp only
      rw [hhead.isSymbol_eq, hhead.isSymbol_eq "unquote", isHeadedBy_eq hhead]
      refine (require_inStep fits _ _ template.shown).bind fun w le _ _ _ => ?_
      have template := template.mono le
      have hhead := hhead.mono le
      have hrest : LikeLists w rest rest' := hrest.imp fun _ _ h => h.mono le
      split
      · rcases hrest with _ | ⟨he, _ | _⟩
        · exact refused_inStep fits _ template
        · exact .pure he
        · exact refused_inStep fits _ template
      · split
        · have refused := refused_inStep fits .wrongLength hhead
          cases hhead with
          | atom isAtom => cases head <;> first | exact refused | cases isAtom
          | list _ items =>
            rcases items with _ | ⟨_, _ | ⟨he, _ | _⟩⟩
            · exact refused
            · exact refused
            · exact joined_inStep (ih r lt fits) "append" he hrest
            · exact refused
          | _ => exact refused
        · refine (ih r lt fits hhead).bind fun w le first first' hfirst => ?_
          exact joined_inStep (ih r lt fits) "cons" hfirst (hrest.imp fun _ _ h => h.mono le)
    | _ => exact quoted

/-- The name and the expression of a binding. -/
abbrev LikePairs (w : Matching) : Value × Value → Value × Value → Prop :=
  fun x y => LikeValues w x.1 y.1 ∧ LikeValues w x.2 y.2

omit fits in
theorem letBinding?_like {v v' : Value} (h : LikeValues w v v') :
    Option.Rel (LikePairs w) (letBinding? v) (letBinding? v') := by
  have one (i : Nat) (a : Value) : letBinding? (.list i [a]) = none := by cases a <;> rfl
  have many (i : Nat) (a b c : Value) (rest : List Value) :
      letBinding? (.list i (a :: b :: c :: rest)) = none := by cases a <;> rfl
  cases h with
  | atom isAtom => cases v <;> first | exact .none | cases isAtom
  | list _ items =>
    rcases items with _ | @⟨name, _, _, _, hname, _ | ⟨he, _ | ⟨_, _⟩⟩⟩
    · exact .none
    · rw [one, one]
      exact .none
    · cases hname with
      | atom => cases name <;> first | exact .none | exact .some ⟨.atom rfl, he⟩
      | _ => exact .none
    · rw [many, many]
      exact .none
  | _ => exact .none

omit fits in
theorem letBindings?_like {v v' : Value} (h : LikeValues w v v') :
    Option.Rel (List.Forall₂ (LikePairs w)) (letBindings? v) (letBindings? v') := by
  have all {vs vs' : List Value} (h : LikeLists w vs vs') :
      Option.Rel (List.Forall₂ (LikePairs w)) (vs.mapM letBinding?) (vs'.mapM letBinding?) := by
    induction h with
    | nil => exact .some .nil
    | @cons v v' vs vs' first _ ih =>
      rw [List.mapM_cons, List.mapM_cons]
      obtain ⟨none, none'⟩ | ⟨pair, pair', found, found', first⟩ := rel_cases (letBinding?_like first)
      · rw [none, none']
        exact .none
      · rw [found, found']
        obtain ⟨none, none'⟩ | ⟨pairs, pairs', found, found', rest⟩ := rel_cases ih
        · rw [none, none']
          exact .none
        · rw [found, found']
          exact .some (.cons first rest)
  cases h with
  | atom isAtom => cases v <;> first | exact .none | cases isAtom
  | list _ items => exact all items
  | _ => exact .none

theorem expandLet_inStep (h : LikeLists w args args') :
    InStep p w (expandLet room args) (expandLet room' args') LikeValues := by
  have shown : ShownAlike w (.list 0 (.symbol "let" :: args)) (.list 0 (.symbol "let" :: args')) := by
    have symbol : ShownAlike w (.symbol "let") (.symbol "let") := Like.shown (.atom rfl)
    exact .list (.cons symbol (h.imp fun _ _ h => h.shown)) 0 0
  have refused (fault : FormFault) :
      InStep p w (refuse room (.list 0 (.symbol "let" :: args)) fault : Run Value)
        (refuse room' (.list 0 (.symbol "let" :: args')) fault) LikeValues :=
    refuse_inStep fits fault shown
  rcases h with _ | ⟨hbindings, _ | ⟨hfirst, hmore⟩⟩
  · exact refused _
  · exact refused _
  · unfold expandLet
    dsimp only
    obtain ⟨none, none'⟩ | ⟨pairs, pairs', found, found', hpairs⟩ := rel_cases (letBindings?_like hbindings)
    · rw [none, none']
      exact refused _
    · rw [found, found']
      have names := List.forall₂_map_left_iff.mpr
        (List.forall₂_map_right_iff.mpr (hpairs.imp fun _ _ h => h.1))
      have values := List.forall₂_map_left_iff.mpr
        (List.forall₂_map_right_iff.mpr (hpairs.imp fun _ _ h => h.2))
      refine (newList_inStep names).bind fun w le names names' hnames => ?_
      have body := hmore.imp fun _ _ h => h.mono le
      refine (newList_inStep (.cons (.atom rfl) (.cons hnames (.cons (hfirst.mono le) body)))).bind ?_
      intro w le' closure closure' hclosure
      exact newList_inStep (.cons hclosure (values.imp fun _ _ h => h.mono (le.trans le')))

end Rooms

end Form

theorem writeLine_inStep {s s' : String} (h : TextLike w s s') :
    InStep p w (writeLine s) (writeLine s') fun _ _ _ => True :=
  .modify fun m m' like => { like with
    output := by simpa using List.rel_append like.output (.cons h .nil) }

namespace Primitive

theorem runNot_inStep (h : LikeLists w args args') :
    InStep p w (runNot args) (runNot args') LikeValues :=
  (oneOperand_inStep "not" h).bind fun w _ v v' like => by
    rw [like.isFalse_eq]
    exact .pure (.atom rfl)

theorem runSame_inStep (h : LikeLists w args args') :
    InStep p w (runSame args) (runSame args') LikeValues :=
  (twoOperands_inStep "eq?" h).bind fun w _ (v, u) (v', u') ⟨hv, hu⟩ => by
    dsimp only at hv hu ⊢
    rw [hv.same_eq hu]
    exact .pure (.atom rfl)

theorem runIsKind_inStep (k : Kind) (h : LikeLists w args args') :
    InStep p w (runIsKind k args) (runIsKind k args') LikeValues :=
  (oneOperand_inStep k.name h).bind fun w _ v v' like => by
    rw [like.hasKind_eq]
    exact .pure (.atom rfl)

theorem draw_inStep : InStep p w draw draw fun _ number number' => number = number' :=
  .modifyGet fun _ _ like => ⟨w, le_refl w, congrArg Draws.next like.draws,
    { like with draws := congrArg Draws.rest like.draws }⟩

theorem runRandom_inStep (h : LikeLists w args args') :
    InStep p w (runRandom args) (runRandom args') LikeValues := by
  refine (requireArity_inStep "random" 0 h).bind fun w le _ _ _ => ?_
  exact draw_inStep.bind_same fun w _ number => .pure (.atom rfl)

theorem ofMath_inStep (name : String) (e : Except MathFault Number) :
    InStep p w (ofMath name e) (ofMath name e) LikeValues := by
  cases e with
  | ok x => exact newNumber_inStep x
  | error fault => exact .fail_same _

theorem ofDivision_inStep (e : Except Number.DivisionFault Number) :
    InStep p w (ofDivision e) (ofDivision e) fun _ x y => x = y := by
  rcases e with (_ | cause) | x
  · exact .fail_same _
  · exact .fail_same _
  · exact .pure rfl

section Rooms

variable (fits : p.Fits room room') (h : LikeLists w args args')
include fits h

omit h in
/-- The run with less room is stopped at lists that are too deep, or the rooms make no difference. -/
theorem equal?_cases (v u : Value) :
    p = .first ∧ v.equal? room u = none ∨ p = .second ∧ v.equal? room' u = none ∨
      v.equal? room u = v.equal? room' u := by
  rcases fits.le_cases with rfl | ⟨slow, le⟩ | ⟨slow, le⟩
  · exact Or.inr (Or.inr rfl)
  · rcases v.equal?_of_le le u with stopped | same
    · exact Or.inl ⟨slow, stopped⟩
    · exact Or.inr (Or.inr same)
  · rcases v.equal?_of_le le u with stopped | same
    · exact Or.inr (Or.inl ⟨slow, stopped⟩)
    · exact Or.inr (Or.inr same.symm)

theorem runEqual_inStep : InStep p w (runEqual room args) (runEqual room' args') LikeValues := by
  refine (twoOperands_inStep "equal?" h).bind fun w _ (v, u) (v', u') ⟨hv, hu⟩ => ?_
  dsimp only at hv hu ⊢
  rw [hv.equal?_eq hu]
  rcases equal?_cases fits v' u' with ⟨rfl, stopped⟩ | ⟨rfl, stopped⟩ | same
  · rw [stopped]
    exact .first_stopped (.failed .tooDeep) trivial
  · rw [stopped]
    exact .second_stopped (.failed .tooDeep) trivial
  · rw [same]
    cases v'.equal? room' u' with
    | some b => exact .pure (.atom rfl)
    | none => exact .fail_same _

theorem runCons_inStep : InStep p w (runCons room args) (runCons room' args') LikeValues :=
  (twoOperands_inStep "cons" h).bind fun _ _ (_, _) (_, _) ⟨hhead, htail⟩ =>
    (listOperand_inStep fits "cons" htail).bind fun _ le _ _ items =>
      newList_inStep (.cons (hhead.mono le) items)

theorem runCar_inStep : InStep p w (runCar room args) (runCar room' args') LikeValues := by
  refine (oneOperand_inStep "car" h).bind fun _ _ v v' like => ?_
  refine (listOperand_inStep fits "car" like).bind fun _ _ items items' hitems => ?_
  cases hitems with
  | nil => exact .fail_same _
  | cons first _ => exact .pure first

theorem runCdr_inStep : InStep p w (runCdr room args) (runCdr room' args') LikeValues := by
  refine (oneOperand_inStep "cdr" h).bind fun _ _ v v' like => ?_
  refine (listOperand_inStep fits "cdr" like).bind fun _ _ items items' hitems => ?_
  cases hitems with
  | nil => exact .fail_same _
  | cons _ rest => exact newList_inStep rest

theorem runAppend_inStep : InStep p w (runAppend room args) (runAppend room' args') LikeValues := by
  have lists : InStep p w (args.mapM (listOperand room "append")) (args'.mapM (listOperand room' "append"))
      fun w => List.Forall₂ (LikeLists w) :=
    .mapM (grows_like .plain) (Grows.forall₂ (grows_like .plain)) h fun _ _ _ _ like =>
      listOperand_inStep fits "append" like
  exact lists.bind fun w _ vss vss' all => newList_inStep (List.rel_flatten all)

theorem runLength_inStep : InStep p w (runLength room args) (runLength room' args') LikeValues := by
  refine (oneOperand_inStep "length" h).bind fun w _ v v' like => ?_
  have refused : InStep p w (do Run.fail (.type (.notListOrString (← source room v))) : Run Value)
      (do Run.fail (.type (.notListOrString (← source room' v')))) LikeValues :=
    (source_inStep fits like.shown).bind fun _ _ _ _ texts => .fail (.type (.notListOrString texts))
  cases like with
  | atom isAtom =>
    cases v with
    | string s => exact .pure (.atom rfl)
    | list => cases isAtom
    | _ => exact refused
  | list _ items =>
    dsimp only
    rw [items.length_eq]
    exact .pure (.atom rfl)
  | _ => exact refused

theorem runDisplay_inStep : InStep p w (runDisplay room args) (runDisplay room' args') LikeValues := by
  refine (oneOperand_inStep "display" h).bind fun w _ v v' like => ?_
  have shown : InStep p w (do writeLine (← source room v); return .unspecified)
      (do writeLine (← source room' v'); return .unspecified) LikeValues :=
    (source_inStep fits like.shown).bind fun w _ _ _ texts =>
      (writeLine_inStep texts).bind fun _ _ _ _ _ => .pure (.atom rfl)
  cases like with
  | atom isAtom =>
    cases v with
    | string s => exact (writeLine_inStep (.same s)).bind fun _ _ _ _ _ => .pure (.atom rfl)
    | _ => exact shown
  | _ => exact shown

theorem runElementary_inStep (f : Elementary) :
    InStep p w (runElementary f room args) (runElementary f room' args') LikeValues := by
  refine (oneOperand_inStep f.name h).bind fun w _ v v' like => ?_
  rw [like.number?_eq]
  cases v'.number? with
  | some x =>
    dsimp only
    split
    · exact .pure like
    · exact ofMath_inStep _ _
  | none =>
    refine .ask fun l l' states => ?_
    rw [states.isLive_eq]
    refine .allowing fun allows => ?_
    rcases text?_cases fits allows l'.isLive .source like.shown with
      ⟨rfl, deep⟩ | ⟨rfl, deep⟩ | ⟨failure, failed, failed'⟩ | ⟨s, s', shown, shown', texts⟩
    · rw [deep]
      exact .first_stopped (.failed .tooDeep) trivial
    · rw [deep]
      exact .second_stopped (.failed .tooDeep) trivial
    · rw [failed, failed']
      cases failure with
      | longInteger => exact .fail_same _
      | _ => exact .fail_same _
    · rw [shown, shown']
      exact .fail (.type (.notNumber f.name texts))

theorem runPower_inStep : InStep p w (runPower room args) (runPower room' args') LikeValues := by
  refine (twoOperands_inStep "pow" h).bind fun w _ (v, u) (v', u') ⟨hv, hu⟩ => ?_
  refine (numbers_inStep fits "pow" (.cons hv (.cons hu .nil))).bind_same fun w _ xs => ?_
  rw [h.length_eq]
  split
  · exact ofMath_inStep _ _
  · exact .fail_same _

theorem runAtan2_inStep : InStep p w (runAtan2 room args) (runAtan2 room' args') LikeValues := by
  refine (requireArity_inStep "atan2" 2 h).bind fun w le _ _ _ => ?_
  refine (numbers_inStep fits "atan2" (h.imp fun _ _ h => h.mono le)).bind_same fun w _ xs => ?_
  refine (ofOverflow_inStep _).bind_same fun w _ floats => ?_
  rw [h.length_eq]
  split
  · exact newNumber_inStep _
  · exact .fail_same _

theorem runExtreme_inStep (name : String) (beats : Number → Number → Bool) :
    InStep p w (runExtreme name beats room args) (runExtreme name beats room' args') LikeValues := by
  refine (numbered_inStep fits name h).bind fun w _ xs xs' all => ?_
  cases all with
  | nil => exact .fail_same _
  | cons first rest =>
    have best {ys ys'} (all : List.Forall₂ (fun x y => x.1 = y.1 ∧ LikeValues w x.2 y.2) ys ys')
        {x x' : Number × Value} (first : x.1 = x'.1 ∧ LikeValues w x.2 x'.2) :
        LikeValues w (ys.foldl (fun best x => if beats x.1 best.1 then x else best) x).2
          (ys'.foldl (fun best x => if beats x.1 best.1 then x else best) x').2 := by
      induction all generalizing x x' with
      | nil => exact first.2
      | cons next _ ih =>
        simp only [List.foldl_cons, next.1, first.1]
        split
        · exact ih next
        · exact ih first
    exact .pure (best rest first)

/-- A primitive that only asks for numbers. -/
theorem numbers_bind_inStep (name : String) {k : List Number → Run Value}
    (rest : ∀ w' xs, InStep p w' (k xs) (k xs) LikeValues) :
    InStep p w (numbers room name args >>= k) (numbers room' name args' >>= k) LikeValues :=
  (numbers_inStep fits name h).bind_same fun w _ xs => rest w xs

theorem run_inStep (q : Primitive) : InStep p w (q.run room args) (q.run room' args') LikeValues := by
  have settled (e : Except Overflow Number) {w : Matching} :
      InStep p w (ofOverflow e >>= newNumber) (ofOverflow e >>= newNumber) LikeValues :=
    (ofOverflow_inStep e).bind_same fun w _ x => newNumber_inStep x
  cases q with
  | add => exact numbers_bind_inStep fits h "+" fun w xs => settled _
  | multiply => exact numbers_bind_inStep fits h "*" fun w xs => settled _
  | subtract =>
    refine numbers_bind_inStep fits h "-" fun w xs => ?_
    split
    · exact .fail_same _
    · exact newNumber_inStep _
    · exact settled _
  | divide =>
    refine numbers_bind_inStep fits h "/" fun w xs => ?_
    split
    · exact .fail_same _
    · exact (ofDivision_inStep _).bind_same fun w _ x => newNumber_inStep x
    · exact (ofDivision_inStep _).bind_same fun w _ x => newNumber_inStep x
  | compare c => exact numbers_bind_inStep fits h c.name fun w xs => .pure (.atom rfl)
  | hypotenuse =>
    refine numbers_bind_inStep fits h "hypot" fun w xs => ?_
    exact (ofOverflow_inStep _).bind_same fun w _ floats => newNumber_inStep _
  | not => exact runNot_inStep h
  | same => exact runSame_inStep h
  | list => exact newList_inStep h
  | random => exact runRandom_inStep h
  | isKind k => exact runIsKind_inStep k h
  | equal => exact runEqual_inStep fits h
  | length => exact runLength_inStep fits h
  | cons => exact runCons_inStep fits h
  | car => exact runCar_inStep fits h
  | cdr => exact runCdr_inStep fits h
  | append => exact runAppend_inStep fits h
  | display => exact runDisplay_inStep fits h
  | atan2 => exact runAtan2_inStep fits h
  | power => exact runPower_inStep fits h
  | greatest => exact runExtreme_inStep fits h _ _
  | least => exact runExtreme_inStep fits h "min" fun a b => b.greater a
  | elementary f => exact runElementary_inStep fits h f
  | expandLet => exact Form.expandLet_inStep fits h

end Rooms

end Primitive

end SmallLisp
