import SmallLisp.Proofs.StoredValues
import SmallLisp.SymbolTable
/-!
# Judgements

A judgement says which values are good in a world, and what holds of a computation that begins there: of its result,
in the later world where the result is there. What was good stays good in later worlds. The helpers of the evaluator
and the primitives are put together from a few computations, so what holds of these holds of all of them, and what a
primitive gives is good when its operands are.
-/
namespace SmallLisp

open Run

structure Judgement where
  World : Type
  /-- A run may have come from the first world to the second. -/
  Later : World → World → Prop
  Good : World → Value → Prop
  /-- A run that has come to the world may have left the state. -/
  At : World → Machine → Prop
  /-- A computation is judged from the world where it begins; its results have a property where they are there. -/
  Holds : {α : Type} → World → Run α → (World → α → Prop) → Prop
  refl : ∀ w, Later w w
  trans : ∀ {u v w}, Later u v → Later v w → Later u w
  later : ∀ {w w' v}, Later w w' → Good w v → Good w' v
  symbol : ∀ {w name}, name ∈ coreNames → Good w (.symbol name)
  int : ∀ {w} n, Good w (.int n)
  float : ∀ {w} x, Good w (.float x)
  nan : ∀ {w} i, Good w (.nan i)
  bool : ∀ {w} b, Good w (.bool b)
  unspecified : ∀ {w}, Good w .unspecified
  items : ∀ {w i vs}, Good w (.list i vs) → ∀ v ∈ vs, Good w v
  pure_holds : ∀ {α w} {x : α} {Q : World → α → Prop}, Q w x → Holds w (pure x) Q
  throw_holds : ∀ {α w} {Q : World → α → Prop} (h : Halt), Holds w (throw h) Q
  bind_holds : ∀ {α β w} {a : Run α} {k : α → Run β} {P : World → α → Prop} {Q : World → β → Prop},
    Holds w a P → (∀ w', Later w w' → ∀ x, P w' x → Holds w' (k x) Q) → Holds w (a >>= k) Q
  /-- The lines written are not looked at. -/
  get_holds : ∀ {α w} {k : Machine → Run α} {Q : World → α → Prop},
    (∀ m output, k { m with output := output } = k m) → (∀ m, At w m → Holds w (k m) Q) →
    Holds w (get >>= k) Q
  newObject_holds : ∀ {w}, Holds w newObject fun _ _ => True
  newList_holds : ∀ {w vs}, (∀ v ∈ vs, Good w v) → Holds w (newList vs) Good
  writeLine_holds : ∀ {w} line, Holds w (writeLine line) fun _ _ => True
  draw_holds : ∀ {w}, Holds w draw fun _ _ => True

/-- A result that each element of a list has comes from an element of the list it was made from. -/
theorem mem_of_mapM_eq_some {α β : Type} {f : α → Option β} {xs : List α} {ys : List β}
    (h : xs.mapM f = some ys) (y : β) (hy : y ∈ ys) : ∃ x ∈ xs, f x = some y := by
  induction xs generalizing ys with
  | nil =>
    cases h
    cases hy
  | cons x xs ih =>
    rw [List.mapM_cons] at h
    obtain ⟨z, hz, h⟩ := Option.bind_eq_some_iff.mp h
    obtain ⟨zs, hzs, h⟩ := Option.bind_eq_some_iff.mp h
    cases h
    rcases List.mem_cons.mp hy with rfl | hy
    · exact ⟨x, by simp, hz⟩
    · obtain ⟨x', mem, found⟩ := ih hzs hy
      exact ⟨x', by simp [mem], found⟩

namespace Judgement

/-- All of some values are good. -/
abbrev AllGood (J : Judgement) (w : J.World) (vs : List Value) : Prop :=
  ∀ v ∈ vs, J.Good w v

variable {J : Judgement} {α β : Type} {w w' : J.World} {P : J.World → α → Prop} {Q : J.World → β → Prop}

theorem AllGood.later {vs : List Value} (h : J.AllGood w vs) (later : J.Later w w') : J.AllGood w' vs :=
  fun v mem => J.later later (h v mem)

theorem allGood_cons {v : Value} {vs : List Value} : J.AllGood w (v :: vs) ↔ J.Good w v ∧ J.AllGood w vs :=
  List.forall_mem_cons

theorem allGood_triple {u v x : Value} (hu : J.Good w u) (hv : J.Good w v) (hx : J.Good w x) :
    J.AllGood w [u, v, x] :=
  allGood_cons.mpr ⟨hu, allGood_cons.mpr ⟨hv, allGood_cons.mpr ⟨hx, nofun⟩⟩⟩

theorem keyword (k : CoreKeyword) : J.Good w k.symbol :=
  J.symbol (by cases k <;> decide)

theorem fail_holds (f : Failure) : J.Holds w (fail f : Run α) P :=
  J.throw_holds (.failed f)

theorem ofExcept_holds {e : Except Failure α} (h : ∀ x, e = .ok x → P w x) : J.Holds w (ofExcept e) P := by
  cases e with
  | error f => exact fail_holds f
  | ok x => exact J.pure_holds (h x rfl)

namespace Holds

theorem bind {a : Run α} {k : α → Run β} (h : J.Holds w a P)
    (rest : ∀ w', J.Later w w' → ∀ x, P w' x → J.Holds w' (k x) Q) : J.Holds w (a >>= k) Q :=
  J.bind_holds h rest

/-- A computation whose result does not matter. -/
theorem next {a : Run α} {k : α → Run β} (h : J.Holds w a fun _ _ => True)
    (rest : ∀ w', J.Later w w' → ∀ x, J.Holds w' (k x) Q) : J.Holds w (a >>= k) Q :=
  h.bind fun w' later x _ => rest w' later x

theorem mono {a : Run α} {P' : J.World → α → Prop} (h : J.Holds w a P)
    (weaker : ∀ w' x, J.Later w w' → P w' x → P' w' x) : J.Holds w a P' := by
  rw [← bind_pure a]
  exact h.bind fun w' later x hx => J.pure_holds (weaker w' x later hx)

/-- Results that stay as they should are collected one after another. -/
theorem mapM {f : α → Run β} {xs : List α} (stays : ∀ {w w' y}, J.Later w w' → Q w y → Q w' y)
    (h : ∀ w', J.Later w w' → ∀ x ∈ xs, J.Holds w' (f x) Q) :
    J.Holds w (xs.mapM f) fun w ys => ∀ y ∈ ys, Q w y := by
  induction xs generalizing w with
  | nil => exact J.pure_holds nofun
  | cons x xs ih =>
    rw [List.mapM_cons]
    refine (h w (J.refl w) x (by simp)).bind fun w₁ later y hy => ?_
    refine (ih fun w' later' x mem => h w' (J.trans later later') x (by simp [mem])).bind fun w₂ later' ys hys => ?_
    exact J.pure_holds (List.forall_mem_cons.mpr ⟨stays later' hy, hys⟩)

end Holds

/-! ## Helpers -/

section Helpers

variable {room : Nat} {v : Value} {args : List Value}

theorem source_holds (v : Value) : J.Holds w (source room v) fun _ _ => True :=
  J.get_holds (fun _ _ => rfl) fun _ _ => ofExcept_holds fun _ _ => trivial

theorem bare_holds (v : Value) : J.Holds w (bare room v) fun _ _ => True :=
  J.get_holds (fun _ _ => rfl) fun _ _ => ofExcept_holds fun _ _ => trivial

theorem keyOf_holds (target : Value) : J.Holds w (keyOf target) fun _ _ => True := by
  unfold keyOf
  split
  · exact J.pure_holds trivial
  · exact fail_holds _

theorem requireArity_holds (name : String) (expected : Nat) (args : List Value) :
    J.Holds w (requireArity name expected args) fun _ _ => True := by
  unfold requireArity
  split
  · exact J.pure_holds trivial
  · exact fail_holds _

theorem ofOverflow_holds (e : Except Overflow α) : J.Holds w (ofOverflow e) fun _ _ => True := by
  cases e with
  | error cause => exact fail_holds _
  | ok x => exact J.pure_holds trivial

theorem oneOperand_holds (name : String) (h : J.AllGood w args) : J.Holds w (oneOperand name args) J.Good := by
  unfold oneOperand
  split
  · exact J.pure_holds (h _ (by simp))
  · exact fail_holds _

theorem twoOperands_holds (name : String) (h : J.AllGood w args) :
    J.Holds w (twoOperands name args) fun w vs => J.Good w vs.1 ∧ J.Good w vs.2 := by
  unfold twoOperands
  split
  · exact J.pure_holds ⟨h _ (by simp), h _ (by simp)⟩
  · exact fail_holds _

theorem listOperand_holds (name : String) (h : J.Good w v) : J.Holds w (listOperand room name v) J.AllGood := by
  unfold listOperand
  split
  · exact J.pure_holds (J.items h)
  · exact (source_holds _).next fun _ _ _ => fail_holds _

theorem numbers_holds (name : String) (args : List Value) :
    J.Holds w (numbers room name args) fun _ _ => True := by
  induction args generalizing w with
  | nil => exact J.pure_holds trivial
  | cons v vs ih =>
    unfold numbers
    cases v.number? with
    | some x => exact ih.next fun _ _ _ => J.pure_holds trivial
    | none => exact (source_holds v).next fun _ _ _ => fail_holds _

/-- The operands come with the numbers that they are. -/
theorem numbered_holds (name : String) (h : J.AllGood w args) :
    J.Holds w (numbered room name args) fun w xs => ∀ x ∈ xs, J.Good w x.2 :=
  (numbers_holds name args).next fun _ later _ =>
    J.pure_holds fun x mem => J.later later (h x.2 (List.of_mem_zip mem).2)

theorem newNumber_holds (x : Number) : J.Holds w (newNumber x) J.Good := by
  cases x with
  | int n => exact J.pure_holds (J.int n)
  | float x =>
    unfold newNumber
    dsimp only
    split
    · exact J.newObject_holds.next fun _ _ i => J.pure_holds (J.nan i)
    · exact J.pure_holds (J.float x)

theorem ofMath_holds (name : String) (e : Except MathFault Number) :
    J.Holds w (Primitive.ofMath name e) J.Good := by
  cases e with
  | error fault => exact fail_holds _
  | ok x => exact newNumber_holds x

theorem find_holds (f : FrameId) (target : Value) : J.Holds w (find room f target) fun _ _ => True := by
  refine (keyOf_holds target).next fun _ _ key => J.get_holds (fun _ _ => rfl) fun m _ => ?_
  split
  · exact J.pure_holds trivial
  · exact (bare_holds target).next fun _ _ _ => fail_holds _

theorem bindParameters_holds (parameters : Value) (h : J.AllGood w args) :
    J.Holds w (bindParameters room parameters args) fun w bs => ∀ b ∈ bs, J.Good w b.value := by
  unfold bindParameters
  split
  · exact (J.newList_holds h).bind fun _ _ v hv => J.pure_holds (List.forall_mem_singleton.mpr hv)
  · split
    · refine Holds.bind (.mapM (Q := fun _ _ => True) (fun _ h => h) fun _ _ p _ => bare_holds p) ?_
      exact fun _ _ _ _ => fail_holds _
    · exact ofExcept_holds fun bs hbs => Bindings.forall_ofPairs hbs fun p mem => h _ (List.of_mem_zip mem).2
  · exact fail_holds _

end Helpers

/-! ## Forms that are built -/

section Forms

variable {room : Nat}

theorem refuse_holds (form : Value) (fault : FormFault) : J.Holds w (Form.refuse room form fault : Run α) P :=
  (source_holds form).next fun _ _ _ => fail_holds _

theorem require_holds (form : Value) (fault : FormFault) (ok : Bool) :
    J.Holds w (Form.require room form fault ok) fun _ _ => ok = true := by
  cases ok with
  | true => exact J.pure_holds rfl
  | false => exact refuse_holds form fault

theorem body_holds {es : List Value} (h : J.AllGood w es) : J.Holds w (Form.body es) J.Good := by
  unfold Form.body
  split
  · exact J.pure_holds (h _ (by simp))
  · exact J.newList_holds (allGood_cons.mpr ⟨keyword _, h⟩)

theorem ofTemplate_holds {template : Value} (h : J.Good w template) :
    J.Holds w (Form.ofTemplate room template) J.Good := by
  induction room generalizing w template with
  | zero => exact fail_holds _
  | succ room ih =>
    have joined {w : J.World} {name : String} (core : name ∈ coreNames) {rest : List Value} {e : Value}
        (he : J.Good w e) (hrest : J.AllGood w rest) : J.Holds w (do
          let after ← Form.ofTemplate room (← newList rest)
          newList [.symbol name, e, after]) J.Good := by
      refine (J.newList_holds hrest).bind fun w₁ later tail htail => (ih htail).bind fun w₂ later' after hafter => ?_
      exact J.newList_holds (allGood_triple (J.symbol core) (J.later (J.trans later later') he) hafter)
    unfold Form.ofTemplate
    split
    · rename_i i head rest
      obtain ⟨first, others⟩ := allGood_cons.mp (J.items h)
      refine (require_holds _ _ _).bind fun w₁ later _ _ => ?_
      split
      · split
        · exact J.pure_holds (J.later later (others _ (by simp)))
        · exact refuse_holds _ _
      · split
        · split
          · exact joined (by decide) (J.later later (J.items first _ (by simp))) (others.later later)
          · exact refuse_holds _ _
        · refine (ih (J.later later first)).bind fun w₂ later' e he => ?_
          exact joined (by decide) he (others.later (J.trans later later'))
    · exact J.newList_holds (allGood_cons.mpr ⟨keyword _, List.forall_mem_singleton.mpr h⟩)

theorem good_of_letBindings? {v : Value} {ps : List (Value × Value)} (h : J.Good w v)
    (hp : Form.letBindings? v = some ps) : ∀ p ∈ ps, J.Good w p.1 ∧ J.Good w p.2 := by
  unfold Form.letBindings? at hp
  split at hp
  · rename_i i items
    intro p mem
    obtain ⟨item, inside, found⟩ := mem_of_mapM_eq_some hp p mem
    have whole := J.items h item inside
    unfold Form.letBinding? at found
    split at found
    · cases found
      have both := J.items whole
      exact ⟨both _ (by simp), both _ (by simp)⟩
    · cases found
  · cases hp

theorem expandLet_holds {operands : List Value} (h : J.AllGood w operands) :
    J.Holds w (Form.expandLet room operands) J.Good := by
  unfold Form.expandLet
  dsimp only
  split
  · rename_i bindings first more
    obtain ⟨bound, code⟩ := allGood_cons.mp h
    split
    · rename_i pairs found
      have parts := good_of_letBindings? bound found
      have names : J.AllGood w (pairs.map (·.1)) := List.forall_mem_map.mpr fun p mem => (parts p mem).1
      have values : J.AllGood w (pairs.map (·.2)) := List.forall_mem_map.mpr fun p mem => (parts p mem).2
      refine (J.newList_holds names).bind fun w₁ later names hnames => ?_
      have parts := allGood_cons.mpr ⟨keyword .lambda, allGood_cons.mpr ⟨hnames, code.later later⟩⟩
      refine (J.newList_holds parts).bind fun w₂ later' closure hclosure => ?_
      exact J.newList_holds (allGood_cons.mpr ⟨hclosure, values.later (J.trans later later')⟩)
    · exact refuse_holds _ _
  · exact refuse_holds _ _

end Forms

/-! ## Primitives -/

section Primitives

variable {room : Nat} {args : List Value}

open Primitive

/-- A primitive that gives one of its operands. -/
theorem runExtreme_holds (name : String) (beats : Number → Number → Bool) (h : J.AllGood w args) :
    J.Holds w (runExtreme name beats room args) J.Good := by
  refine (numbered_holds name h).bind fun w' _ xs hxs => ?_
  split
  · exact fail_holds _
  · rename_i x xs
    refine J.pure_holds ?_
    obtain ⟨first, others⟩ := List.forall_mem_cons.mp hxs
    clear hxs
    induction xs generalizing x with
    | nil => exact first
    | cons y ys ih =>
      obtain ⟨second, others⟩ := List.forall_mem_cons.mp others
      refine ih _ ?_ others
      change J.Good w' (if beats y.1 x.1 then y else x).2
      split
      · exact second
      · exact first

theorem runElementary_holds (f : Elementary) (h : J.AllGood w args) :
    J.Holds w (runElementary f room args) J.Good := by
  refine (oneOperand_holds f.name h).bind fun w' _ v hv => ?_
  split
  · split
    · exact J.pure_holds hv
    · exact ofMath_holds _ _
  · refine J.get_holds (fun _ _ => rfl) fun m _ => ?_
    split
    · exact fail_holds _
    · exact fail_holds _
    · exact fail_holds _

theorem runRandom_holds (args : List Value) : J.Holds w (runRandom args) J.Good :=
  (requireArity_holds _ _ _).next fun _ _ _ => J.draw_holds.next fun _ _ _ => J.pure_holds (J.float _)

theorem runAtan2_holds (args : List Value) : J.Holds w (runAtan2 room args) J.Good := by
  refine (requireArity_holds _ _ _).next fun _ _ _ => (numbers_holds _ args).next fun _ _ xs => ?_
  refine (ofOverflow_holds _).next fun _ _ fs => ?_
  split
  · exact newNumber_holds _
  · exact fail_holds _

theorem runPower_holds (h : J.AllGood w args) : J.Holds w (runPower room args) J.Good := by
  refine (twoOperands_holds "pow" h).bind fun _ _ (v, w) _ => (numbers_holds "pow" [v, w]).next fun _ _ xs => ?_
  split
  · exact ofMath_holds _ _
  · exact fail_holds _

theorem runSubtract_holds (args : List Value) : J.Holds w (runSubtract room args) J.Good := by
  refine (numbers_holds _ args).next fun _ _ xs => ?_
  split
  · exact fail_holds _
  · exact newNumber_holds _
  · exact (ofOverflow_holds _).next fun _ _ x => newNumber_holds x

theorem ofDivision_holds (e : Except Number.DivisionFault Number) :
    J.Holds w (ofDivision e) fun _ _ => True := by
  unfold ofDivision
  split
  · exact J.pure_holds trivial
  · exact fail_holds _
  · exact fail_holds _

theorem runDivide_holds (args : List Value) : J.Holds w (runDivide room args) J.Good := by
  refine (numbers_holds _ args).next fun _ _ xs => ?_
  split
  · exact fail_holds _
  · exact (ofDivision_holds _).next fun _ _ x => newNumber_holds x
  · exact (ofDivision_holds _).next fun _ _ x => newNumber_holds x

theorem runCons_holds (h : J.AllGood w args) : J.Holds w (runCons room args) J.Good :=
  (twoOperands_holds "cons" h).bind fun _ _ (_, _) both => (listOperand_holds "cons" both.2).bind
    fun _ later _ items => J.newList_holds (allGood_cons.mpr ⟨J.later later both.1, items⟩)

theorem runCar_holds (h : J.AllGood w args) : J.Holds w (runCar room args) J.Good := by
  refine (oneOperand_holds "car" h).bind fun _ _ v hv => ?_
  refine (listOperand_holds "car" hv).bind fun _ _ items hitems => ?_
  split
  · exact fail_holds _
  · exact J.pure_holds (hitems _ (by simp))

theorem runCdr_holds (h : J.AllGood w args) : J.Holds w (runCdr room args) J.Good := by
  refine (oneOperand_holds "cdr" h).bind fun _ _ v hv => ?_
  refine (listOperand_holds "cdr" hv).bind fun _ _ items hitems => ?_
  split
  · exact fail_holds _
  · exact J.newList_holds (allGood_cons.mp hitems).2

theorem runAppend_holds (h : J.AllGood w args) : J.Holds w (runAppend room args) J.Good := by
  have lists : J.Holds w (args.mapM (listOperand room "append")) fun w lists => ∀ items ∈ lists, J.AllGood w items :=
    .mapM (fun later items => items.later later) fun _ later v mem => listOperand_holds "append" (h.later later v mem)
  refine lists.bind fun _ _ lists hlists => J.newList_holds fun v mem => ?_
  obtain ⟨items, inside, mem⟩ := List.mem_flatten.mp mem
  exact hlists items inside v mem

theorem runLength_holds (h : J.AllGood w args) : J.Holds w (runLength room args) J.Good := by
  refine (oneOperand_holds "length" h).bind fun _ _ v _ => ?_
  split
  · exact J.pure_holds (J.int _)
  · exact J.pure_holds (J.int _)
  · exact (source_holds _).next fun _ _ _ => fail_holds _

theorem runDisplay_holds (h : J.AllGood w args) : J.Holds w (runDisplay room args) J.Good := by
  refine (oneOperand_holds "display" h).bind fun _ _ v _ => ?_
  split
  · exact (J.writeLine_holds _).next fun _ _ _ => J.pure_holds J.unspecified
  · exact (source_holds _).next fun _ _ _ => (J.writeLine_holds _).next fun _ _ _ => J.pure_holds J.unspecified

theorem runEqual_holds (h : J.AllGood w args) : J.Holds w (runEqual room args) J.Good := by
  refine (twoOperands_holds "equal?" h).bind fun _ _ (v, w) _ => ?_
  dsimp only
  cases v.equal? room w with
  | some b => exact J.pure_holds (J.bool b)
  | none => exact fail_holds _

/-- What a primitive gives is good when its operands are. -/
theorem run_holds (p : Primitive) (h : J.AllGood w args) : J.Holds w (p.run room args) J.Good := by
  cases p with
  | add => exact (numbers_holds _ args).next fun _ _ _ => (ofOverflow_holds _).next fun _ _ => newNumber_holds
  | multiply => exact (numbers_holds _ args).next fun _ _ _ => (ofOverflow_holds _).next fun _ _ => newNumber_holds
  | hypotenuse =>
    exact (numbers_holds _ args).next fun _ _ _ => (ofOverflow_holds _).next fun _ _ _ => newNumber_holds _
  | compare c => exact (numbers_holds _ args).next fun _ _ _ => J.pure_holds (J.bool _)
  | not => exact (oneOperand_holds _ h).bind fun _ _ _ _ => J.pure_holds (J.bool _)
  | isKind k => exact (oneOperand_holds _ h).bind fun _ _ _ _ => J.pure_holds (J.bool _)
  | same => exact (twoOperands_holds _ h).bind fun _ _ _ _ => J.pure_holds (J.bool _)
  | list => exact J.newList_holds h
  | subtract => exact runSubtract_holds args
  | divide => exact runDivide_holds args
  | equal => exact runEqual_holds h
  | length => exact runLength_holds h
  | cons => exact runCons_holds h
  | car => exact runCar_holds h
  | cdr => exact runCdr_holds h
  | append => exact runAppend_holds h
  | display => exact runDisplay_holds h
  | atan2 => exact runAtan2_holds args
  | power => exact runPower_holds h
  | greatest => exact runExtreme_holds _ _ h
  | least => exact runExtreme_holds "min" (fun a b => b.greater a) h
  | random => exact runRandom_holds args
  | elementary f => exact runElementary_holds f h
  | expandLet => exact expandLet_holds h

end Primitives

end Judgement

end SmallLisp
