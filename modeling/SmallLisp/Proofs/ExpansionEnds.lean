import SmallLisp.Proofs.RoundTrip
import SmallLisp.Proofs.SettledForms
/-!
# Expansion comes to an end

With `let` as the only transformer the expander finishes every form that can be read: it gives a core form or refuses
the form as malformed, and only new objects are left behind. What templates, uses of `let` and definitions with a list
target turn into may well be larger than they are. But it is put together from parts of theirs and a few keywords, and
a form comes to an end when its parts do.
-/
namespace SmallLisp

open Run

variable {α β : Type}

/-! ## Computations that conclude -/

/-- Nothing but `let` is registered, as the builtin. -/
def Machine.OnlyLet (m : Machine) : Prop :=
  m.transformers = [.ofName "let" (.primitive .expandLet)]

/-- A result that is as it should be, or the refusal of a malformed form. -/
inductive Verdict (Good : α → Prop) : Except Halt α → Prop
  | value {x : α} (good : Good x) : Verdict Good (.ok x)
  | refused {form : String} {fault : FormFault} : Verdict Good (.error (.failed (.malformed form fault)))

/-- Where nothing but `let` is registered a computation has one verdict from some limits on, and leaves nothing behind
but new objects. -/
def Concludes (a : Limited α) (Good : α → Prop) : Prop :=
  ∀ m : Machine, m.OnlyLet → ∃ r count fuel room, Verdict Good r ∧
    ∀ fuel' room', fuel ≤ fuel' → room ≤ room' → outcome (a fuel' room') m = (r, m.made count)

namespace Concludes

variable {a : Limited α} {k : α → Limited β} {Good : α → Prop} {Fine : β → Prop} {form : Value} {fault : FormFault}

theorem pure {x : α} (good : Good x) : Concludes (fun _ _ => Pure.pure x) Good := by
  intro m only
  exact ⟨.ok x, 0, 0, 0, .value good, fun _ _ _ _ => rfl⟩

theorem bind (first : Concludes a Good) (rest : ∀ x, Good x → Concludes (k x) Fine) :
    Concludes (fun fuel room => a fuel room >>= fun x => k x fuel room) Fine := by
  intro m only
  obtain ⟨r, count, fuel, room, verdict, ends⟩ := first m only
  cases verdict with
  | refused => exact ⟨_, count, fuel, room, .refused, fun _ _ hf hr => outcome_bind_of_error (ends _ _ hf hr) _⟩
  | @value x good =>
    obtain ⟨r, count', fuel', room', verdict, ends'⟩ := rest x good (m.made count) only
    refine ⟨r, count + count', max fuel fuel', max room room', verdict, fun f r hf hr => ?_⟩
    have here := ends f r (by omega) (by omega)
    have later := ends' f r (by omega) (by omega)
    rw [outcome_bind_of_ok here, later, Machine.made_made]

/-- Room for one level more is room enough. -/
theorem of_room_succ (h : Concludes (fun fuel room => a fuel (room + 1)) Good) : Concludes a Good := by
  intro m only
  obtain ⟨r, count, fuel, room, verdict, ends⟩ := h m only
  refine ⟨r, count, fuel, room + 1, verdict, fun fuel' room' hf hr => ?_⟩
  obtain ⟨room', rfl⟩ : ∃ n, room' = n + 1 := ⟨room' - 1, by omega⟩
  exact ends fuel' room' hf (by omega)

theorem deeper (h : Concludes a Good) : Concludes (fun fuel room => Run.deeper room (a fuel)) Good :=
  of_room_succ h

/-- One step more is enough. -/
theorem of_succ (h : Concludes (fun fuel room => a (fuel + 1) room) Good) : Concludes a Good := by
  intro m only
  obtain ⟨r, count, fuel, room, verdict, ends⟩ := h m only
  refine ⟨r, count, fuel + 1, room, verdict, fun fuel' room' hf hr => ?_⟩
  obtain ⟨fuel', rfl⟩ : ∃ n, fuel' = n + 1 := ⟨fuel' - 1, by omega⟩
  exact ends fuel' room' (by omega) hr

theorem newList {Good : Value → Prop} {items : List Value} (good : ∀ i, Good (.list i items)) :
    Concludes (fun _ _ => Run.newList items) Good := by
  intro m only
  exact ⟨_, 1, 0, 0, .value (good m.nextObject), fun _ _ _ _ => rfl⟩

/-- What is done with a new list may depend on its elements alone. -/
theorem newList_bind {items : List Value} {k : Value → Limited β} (rest : ∀ i, Concludes (k (.list i items)) Fine) :
    Concludes (fun fuel room => Run.newList items >>= fun v => k v fuel room) Fine := by
  have made : Concludes (fun _ _ => Run.newList items) fun v => ∃ i, v = .list i items := newList fun i => ⟨i, rfl⟩
  refine made.bind ?_
  rintro _ ⟨i, rfl⟩
  exact rest i

/-- A form can be refused where it has a text. -/
theorem refuse (short : form.hasLongInteger = false) (fault : FormFault) :
    Concludes (fun _ room => Form.refuse room form fault) Good := by
  intro m only
  obtain ⟨room, ends⟩ := @Form.refuse_ends α m form fault
  simp only [Form.refusal, short, Bool.false_eq_true, if_false] at ends
  exact ⟨_, 0, 0, room, .refused, fun _ room' _ hr => ends room' hr⟩

theorem require (short : form.hasLongInteger = false) (fault : FormFault) (ok : Bool) :
    Concludes (fun _ room => Form.require room form fault ok) fun _ => ok = true := by
  cases ok with
  | true => exact .pure rfl
  | false => exact .refuse short fault

/-- At most `let` is found. -/
theorem transformer? (head : Value) : Concludes (fun _ _ => Run.transformer? head) fun found =>
    found = none ∨ head = .symbol "let" ∧ found = some (.primitive .expandLet) := by
  intro m only
  refine ⟨.ok (m.transformerOf? head), 0, 0, 0, .value ?_, fun _ _ _ _ => ends_transformer?.mpr ⟨rfl, rfl⟩⟩
  cases head with
  | symbol name =>
    rw [Machine.transformerOf?, only]
    by_cases same : name = "let"
    · subst same
      exact Or.inr ⟨rfl, rfl⟩
    · exact Or.inl (if_neg fun key => same (Key.name.inj key).symm)
  | _ => exact Or.inl rfl

theorem mapM {es : List Value} {f : Value → Limited Value} (parts : ∀ e ∈ es, Concludes (f e) fun _ => True) :
    Concludes (fun fuel room => es.mapM fun e => f e fuel room) fun _ => True := by
  induction es with
  | nil => exact .pure trivial
  | cons e es ih =>
    obtain ⟨first, later⟩ := List.forall_mem_cons.mp parts
    simp only [List.mapM_cons]
    exact first.bind fun c _ => (ih later).bind fun cs _ => .pure trivial

end Concludes

namespace Value

theorem hasLongInteger_list_iff {i : Nat} {items : List Value} :
    (list i items).hasLongInteger = false ↔ ∀ v ∈ items, v.hasLongInteger = false := by
  rw [hasLongInteger]
  induction items with
  | nil => exact ⟨fun _ => nofun, fun _ => rfl⟩
  | cons v vs ih => rw [anyLongInteger, Bool.or_eq_false_iff, ih, List.forall_mem_cons]

end Value

/-! ## Forms that come to an end -/

/-- A form that has a text and comes to an end when it is expanded inside another. -/
structure Expands (form : Value) : Prop where
  short : form.hasLongInteger = false
  concludes : Concludes (fun fuel room => expand fuel room form false) fun _ => True

namespace Expands

variable {i : Nat} {e form head : Value} {es rest : List Value}

/-- The step of a form decides. -/
theorem of_step (short : form.hasLongInteger = false)
    (step : Concludes (fun fuel room => (calls fuel).expansion room form false) fun _ => True) : Expands form :=
  ⟨short, .of_succ step⟩

theorem part (h : Expands e) : Concludes (fun fuel room => (calls fuel).expandPart room false e) fun _ => True :=
  h.concludes.deeper

/-- The parts are expanded one after another and make a list. -/
theorem listed (parts : ∀ e ∈ es, Expands e) :
    Concludes (fun fuel room => es.mapM ((calls fuel).expandPart room false) >>= newList) fun _ => True := by
  have each : Concludes (fun fuel room => es.mapM ((calls fuel).expandPart room false)) fun _ => True :=
    .mapM fun e mem => (parts e mem).part
  exact each.bind fun cs _ => .newList fun _ => trivial

/-- What is no list is its own expansion. -/
theorem constant (short : form.hasLongInteger = false) (notList : ∀ i items, form ≠ .list i items) : Expands form := by
  refine of_step short ?_
  cases form with
  | list i items => exact absurd rfl (notList i items)
  | _ => exact .pure trivial

theorem symbol (name : String) : Expands (.symbol name) :=
  constant rfl nofun

theorem empty : Expands (.list i []) :=
  of_step rfl (.refuse rfl .wrongLength)

theorem quote (short : (Value.list i (.symbol "quote" :: rest)).hasLongInteger = false) :
    Expands (.list i (.symbol "quote" :: rest)) :=
  of_step short ((Concludes.require short .wrongLength (rest.length == 1)).bind fun _ _ => .pure trivial)

theorem quoted (short : e.hasLongInteger = false) : Expands (.list i [.symbol "quote", e]) := by
  refine quote (Value.hasLongInteger_list_iff.mpr ?_)
  simp only [List.forall_mem_cons]
  exact ⟨rfl, short, nofun⟩

theorem test (parts : ∀ e ∈ rest, Expands e) : Expands (.list i (.symbol "if" :: rest)) := by
  have all := List.forall_mem_cons.mpr ⟨symbol "if", parts⟩
  have short := Value.hasLongInteger_list_iff (i := i).mpr fun e mem => (all e mem).short
  refine of_step short ?_
  match rest with
  | [t, c] =>
    have unspecified : Expands .unspecified := constant rfl nofun
    exact listed (List.forall_mem_append.mpr ⟨all, List.forall_mem_singleton.mpr unspecified⟩)
  | [t, c, e] => exact listed all
  | [] => exact .refuse short .wrongLength
  | [_] => exact .refuse short .wrongLength
  | _ :: _ :: _ :: _ :: _ => exact .refuse short .wrongLength

theorem sequence (parts : ∀ e ∈ rest, Expands e) : Expands (.list i (.symbol "begin" :: rest)) := by
  have all := List.forall_mem_cons.mpr ⟨symbol "begin", parts⟩
  refine of_step (Value.hasLongInteger_list_iff.mpr fun e mem => (all e mem).short) ?_
  cases rest with
  | nil => exact .pure trivial
  | cons e es => exact listed all

theorem assign (short : (Value.list i (.symbol "set!" :: rest)).hasLongInteger = false)
    (parts : ∀ e ∈ rest, Expands e) : Expands (.list i (.symbol "set!" :: rest)) := by
  refine of_step short ?_
  match rest with
  | [target, e] =>
    refine (Concludes.require short .assignsNonSymbol (target.hasKind .symbol)).bind fun _ _ => ?_
    refine (parts e (List.mem_of_mem_getLast? rfl)).part.bind fun core _ => ?_
    exact .newList fun _ => trivial
  | [] => exact .refuse short .wrongLength
  | [_] => exact .refuse short .wrongLength
  | _ :: _ :: _ :: _ => exact .refuse short .wrongLength

/-- The body of a closure. -/
theorem concludes_body (parts : ∀ part ∈ e :: es, Expands part) :
    Concludes (fun _ _ => Form.body (e :: es)) Expands := by
  cases es with
  | nil => exact .pure (parts e List.mem_cons_self)
  | cons e' es => exact .newList fun _ => sequence parts

/-- The parameters may be of any form. -/
theorem lambda (short : (Value.list i (.symbol "lambda" :: rest)).hasLongInteger = false)
    (body : ∀ e ∈ rest.tail, Expands e) : Expands (.list i (.symbol "lambda" :: rest)) := by
  refine of_step short ?_
  match rest with
  | parameters :: e :: es =>
    refine (Concludes.require short .illegalParameters (Form.areParameters parameters)).bind fun _ _ => ?_
    refine (concludes_body body).bind fun form expands => ?_
    refine expands.part.bind fun core _ => ?_
    exact .newList fun _ => trivial
  | [] => exact .refuse short .wrongLength
  | [_] => exact .refuse short .wrongLength

/-- A definition with a list target becomes one with a smaller target and a closure in place of the body. -/
theorem definition_target {i : Nat} {keyword : String} (isDefinition : keyword = "define" ∨ keyword = "define-macro")
    (target : Value) {es : List Value}
    (short : (Value.list i (.symbol keyword :: target :: es)).hasLongInteger = false)
    (body : ∀ e ∈ es, Expands e) : Expands (.list i (.symbol keyword :: target :: es)) := by
  refine of_step short ?_
  suffices defines : Concludes (fun fuel room => (calls fuel).definition room
      (.list i (.symbol keyword :: target :: es)) (.symbol keyword) (target :: es) false) fun _ => True by
    obtain rfl | rfl := isDefinition
    · exact defines
    · exact defines
  cases target with
  | list j items =>
    cases items with
    | nil =>
      cases es with
      | nil => exact .refuse short .wrongLength
      | cons e es => exact .refuse short .illegalTarget
    | cons name ps =>
      refine (Concludes.require short .wrongLength (!es.isEmpty)).bind fun _ _ => ?_
      refine .newList_bind fun j => .newList_bind fun k => .newList_bind fun l => ?_
      simp only [Value.hasLongInteger_list_iff, List.forall_mem_cons] at short
      obtain ⟨keywordShort, ⟨nameShort, psShort⟩, esShort⟩ := short
      have closure : Expands (.list k (.symbol "lambda" :: .list j ps :: es)) := by
        refine lambda ?_ body
        simp only [Value.hasLongInteger_list_iff, List.forall_mem_cons]
        exact ⟨rfl, psShort, esShort⟩
      have plain : Expands (.list l [.symbol keyword, name, .list k (.symbol "lambda" :: .list j ps :: es)]) := by
        refine definition_target isDefinition name ?_ (List.forall_mem_singleton.mpr closure)
        simp only [Value.hasLongInteger_list_iff, List.forall_mem_cons]
        exact ⟨keywordShort, nameShort, ⟨rfl, psShort, esShort⟩, nofun⟩
      exact plain.part
  | symbol name =>
    match es with
    | [e] =>
      refine (body e (List.mem_singleton.mpr rfl)).part.bind fun core _ => ?_
      obtain rfl | rfl := isDefinition
      · exact .newList fun _ => trivial
      · exact (Concludes.require short .notTopLevel false).bind nofun
    | [] => exact .refuse short .wrongLength
    | _ :: _ :: _ => exact .refuse short .wrongLength
  | _ =>
    -- `short` has to be gone before the match, which would compute the bound of the integers in it.
    have refused (fault : FormFault) : Concludes (fun _ room => Form.refuse room _ fault) fun _ : Value => True :=
      .refuse short fault
    clear short
    match es with
    | [_] => exact refused .definesNonSymbol
    | [] => exact refused .wrongLength
    | _ :: _ :: _ => exact refused .wrongLength
termination_by sizeOf target

theorem definition {keyword : String} (isDefinition : keyword = "define" ∨ keyword = "define-macro")
    (short : (Value.list i (.symbol keyword :: rest)).hasLongInteger = false) (parts : ∀ e ∈ rest, Expands e) :
    Expands (.list i (.symbol keyword :: rest)) := by
  cases rest with
  | nil =>
    refine of_step short ?_
    obtain rfl | rfl := isDefinition
    · exact .refuse short .wrongLength
    · exact .refuse short .wrongLength
  | cons target es =>
    exact definition_target isDefinition target short fun e mem => parts e (List.mem_cons_of_mem target mem)

/-! ### Applications, templates and `let` -/

theorem application (noKeyword : Keyword.ofHead? head = none) (notLet : head.isSymbol "let" = false)
    (parts : ∀ e ∈ head :: rest, Expands e) : Expands (.list i (head :: rest)) := by
  refine of_step (Value.hasLongInteger_list_iff.mpr fun e mem => (parts e mem).short) ?_
  simp only [Calls.expansion, noKeyword]
  refine (Concludes.transformer? head).bind ?_
  rintro found (rfl | ⟨rfl, rfl⟩)
  · exact listed parts
  · cases notLet

/-- The code that joins two parts of a template. -/
theorem joined {name : String} {e e' : Value} (isJoin : name = "cons" ∨ name = "append") (first : Expands e)
    (second : Expands e') : Expands (.list i [.symbol name, e, e']) := by
  have parts : ∀ part ∈ [.symbol name, e, e'], Expands part := by
    simp only [List.forall_mem_cons]
    exact ⟨symbol name, first, second, nofun⟩
  obtain rfl | rfl := isJoin
  · exact application rfl rfl parts
  · exact application rfl rfl parts

mutual

/-- A template is refused, or it becomes code that comes to an end when the forms inside the template do. -/
theorem concludes_template (template : Value) (short : template.hasLongInteger = false)
    (inside : ∀ u, sizeOf u < sizeOf template → u.hasLongInteger = false → Expands u) :
    Concludes (fun _ room => Form.ofTemplate room template) Expands := by
  cases template with
  | list i items =>
    refine concludes_templateList items i short fun u smaller => inside u ?_
    simp only [Value.list.sizeOf_spec]
    omega
  | _ => exact .of_room_succ (.newList fun i => quoted short)

theorem concludes_templateList (items : List Value) (i : Nat) (short : (Value.list i items).hasLongInteger = false)
    (inside : ∀ u, sizeOf u < sizeOf items → u.hasLongInteger = false → Expands u) :
    Concludes (fun _ room => Form.ofTemplate room (.list i items)) Expands := by
  cases items with
  | nil => exact .of_room_succ (.newList fun i => quoted short)
  | cons head rest =>
    have parts := Value.hasLongInteger_list_iff.mp short
    have headShort := parts head List.mem_cons_self
    have restShort : ∀ v ∈ rest, v.hasLongInteger = false := fun v mem => parts v (List.mem_cons_of_mem head mem)
    have after (k : Nat) : Concludes (fun _ room => Form.ofTemplate room (.list k rest)) Expands := by
      refine concludes_templateList rest k (Value.hasLongInteger_list_iff.mpr restShort) fun u smaller => inside u ?_
      simp only [List.cons.sizeOf_spec]
      omega
    refine .of_room_succ ?_
    have first : Concludes (fun _ room => Form.ofTemplate room head) Expands := by
      refine concludes_template head headShort fun u smaller => inside u ?_
      simp only [List.cons.sizeOf_spec]
      omega
    cases Form.begins head with
    | straySplice => exact (Concludes.require short .straySplice false).bind nofun
    | unquote =>
      match rest with
      | [e] =>
        refine .pure (inside e ?_ (restShort e List.mem_cons_self))
        simp only [List.cons.sizeOf_spec]
        omega
      | [] => exact .refuse short .wrongLength
      | _ :: _ :: _ => exact .refuse short .wrongLength
    | @splicing j operands =>
      match operands with
      | [e] =>
        have spliced : Expands e := by
          refine inside e ?_ (Value.hasLongInteger_list_iff.mp headShort e (by simp))
          simp only [List.cons.sizeOf_spec, Value.list.sizeOf_spec]
          omega
        simp only [Template.ofTemplate_splice]
        refine .newList_bind fun k => (after k).bind fun code expands => ?_
        exact .newList fun _ => joined (Or.inr rfl) spliced expands
      | [] => exact .refuse headShort .wrongLength
      | _ :: _ :: _ => exact .refuse headShort .wrongLength
    | ordinary here =>
      simp only [Template.ofTemplate_ordinary here]
      refine first.bind fun code expands => ?_
      refine .newList_bind fun k => (after k).bind fun code' expands' => ?_
      exact .newList fun _ => joined (Or.inl rfl) expands expands'

end

theorem template (short : (Value.list i (.symbol "quasiquote" :: rest)).hasLongInteger = false)
    (inside : ∀ u, sizeOf u < sizeOf rest → u.hasLongInteger = false → Expands u) :
    Expands (.list i (.symbol "quasiquote" :: rest)) := by
  refine of_step short ?_
  match rest with
  | [t] =>
    have code : Concludes (fun _ room => Form.ofTemplate room t) Expands := by
      refine concludes_template t ?_ fun u smaller => inside u ?_
      · exact Value.hasLongInteger_list_iff.mp short t (List.mem_cons_of_mem _ List.mem_cons_self)
      · simp only [List.cons.sizeOf_spec]
        omega
    exact code.bind fun code expands => expands.part
  | [] => exact .refuse short .wrongLength
  | _ :: _ :: _ => exact .refuse short .wrongLength

/-- What `let` binds are names, and the expressions are inside its bindings. -/
theorem letBindings {bindings : Value} {pairs : List (Value × Value)} (found : Form.letBindings? bindings = some pairs)
    (short : bindings.hasLongInteger = false)
    (inside : ∀ u, sizeOf u < sizeOf bindings → u.hasLongInteger = false → Expands u) :
    ∀ p ∈ pairs, p.1.hasLongInteger = false ∧ Expands p.2 := by
  intro p mem
  unfold Form.letBindings? at found
  split at found
  · rename_i j items
    obtain ⟨item, memItem, bound⟩ := mem_of_mapM_eq_some found p mem
    have itemShort := Value.hasLongInteger_list_iff.mp short item memItem
    have itemSmaller := List.sizeOf_lt_of_mem memItem
    unfold Form.letBinding? at bound
    split at bound
    · rename_i k name e
      cases bound
      constructor
      · rfl
      · refine inside e ?_ (Value.hasLongInteger_list_iff.mp itemShort e (List.mem_cons_of_mem _ List.mem_cons_self))
        simp only [Value.list.sizeOf_spec, List.cons.sizeOf_spec] at itemSmaller ⊢
        omega
    · cases bound
  · cases found

/-- What `let` makes is a closure of its body, applied to the expressions. -/
theorem concludes_expandLet (short : ∀ v ∈ rest, v.hasLongInteger = false)
    (inside : ∀ u, sizeOf u < sizeOf rest → u.hasLongInteger = false → Expands u) :
    Concludes (fun _ room => Form.expandLet room rest) Expands := by
  have form : (Value.list 0 (.symbol "let" :: rest)).hasLongInteger = false :=
    Value.hasLongInteger_list_iff.mpr (List.forall_mem_cons.mpr ⟨rfl, short⟩)
  match rest with
  | [] => exact .refuse form .wrongLength
  | [_] => exact .refuse form .wrongLength
  | bindings :: e :: es =>
    cases found : Form.letBindings? bindings with
    | none =>
      simp only [Form.expandLet, found]
      exact .refuse form .illegalBindings
    | some pairs =>
      have body : ∀ part ∈ e :: es, Expands part := by
        intro part mem
        refine inside part ?_ (short part (List.mem_cons_of_mem bindings mem))
        have smaller := List.sizeOf_lt_of_mem mem
        rw [List.cons.sizeOf_spec]
        omega
      have pair : ∀ p ∈ pairs, p.1.hasLongInteger = false ∧ Expands p.2 := by
        refine letBindings found (short bindings List.mem_cons_self) fun u smaller => inside u ?_
        rw [List.cons.sizeOf_spec]
        omega
      have names (i : Nat) : (Value.list i (pairs.map (·.1))).hasLongInteger = false :=
        Value.hasLongInteger_list_iff.mpr (List.forall_mem_map.mpr fun p mem => (pair p mem).1)
      simp only [Form.expandLet, found]
      refine .newList_bind fun j => .newList_bind fun k => ?_
      have closure : Expands (.list k (CoreKeyword.lambda.symbol :: .list j (pairs.map (·.1)) :: e :: es)) := by
        refine lambda (Value.hasLongInteger_list_iff.mpr ?_) body
        exact List.forall_mem_cons.mpr ⟨rfl, List.forall_mem_cons.mpr ⟨names j, fun part mem => (body part mem).short⟩⟩
      refine .newList fun i => application rfl rfl (List.forall_mem_cons.mpr ⟨closure, ?_⟩)
      exact List.forall_mem_map.mpr fun p mem => (pair p mem).2

/-- A use of `let` is expanded once more. -/
theorem letForm (short : ∀ v ∈ rest, v.hasLongInteger = false)
    (inside : ∀ u, sizeOf u < sizeOf rest → u.hasLongInteger = false → Expands u) :
    Expands (.list i (.symbol "let" :: rest)) := by
  refine of_step (Value.hasLongInteger_list_iff.mpr (List.forall_mem_cons.mpr ⟨rfl, short⟩)) ?_
  refine (Concludes.transformer? (.symbol "let")).bind ?_
  rintro found (rfl | ⟨_, rfl⟩)
  · refine listed (List.forall_mem_cons.mpr ⟨symbol "let", fun e mem => ?_⟩)
    exact inside e (List.sizeOf_lt_of_mem mem) (short e mem)
  · have made : Concludes (fun fuel room => apply fuel room (.primitive .expandLet) rest Machine.root) Expands :=
      .of_succ (concludes_expandLet short inside)
    exact made.deeper.bind fun e expands => expands.part

/-- Every form with a text comes to an end. The induction is on its size, and never on what it is rewritten to. -/
theorem of_short (form : Value) (short : form.hasLongInteger = false) : Expands form := by
  induction size : sizeOf form using Nat.strong_induction_on generalizing form with
  | h size ih =>
    subst size
    cases form with
    | list i items =>
      cases items with
      | nil => exact empty
      | cons head rest =>
        have parts := Value.hasLongInteger_list_iff.mp short
        have restShort : ∀ v ∈ rest, v.hasLongInteger = false := fun v mem => parts v (List.mem_cons_of_mem head mem)
        have inside (u : Value) (smaller : sizeOf u < sizeOf (head :: rest)) (short : u.hasLongInteger = false) :
            Expands u := by
          refine ih (sizeOf u) ?_ u short rfl
          rw [Value.list.sizeOf_spec]
          omega
        have all (e : Value) (mem : e ∈ head :: rest) : Expands e :=
          inside e (List.sizeOf_lt_of_mem mem) (parts e mem)
        have later (e : Value) (mem : e ∈ rest) : Expands e := all e (List.mem_cons_of_mem head mem)
        have insideRest (u : Value) (smaller : sizeOf u < sizeOf rest) : u.hasLongInteger = false → Expands u := by
          refine inside u ?_
          rw [List.cons.sizeOf_spec]
          omega
        cases keyword : Keyword.ofHead? head with
        | none =>
          cases isLet : head.isSymbol "let" with
          | true =>
            obtain rfl := Value.eq_of_isSymbol isLet
            exact letForm restShort insideRest
          | false => exact application keyword isLet all
        | some k =>
          obtain rfl := Keyword.eq_of_ofHead? keyword
          match k with
          | .core .quote => exact quote short
          | .core .test => exact test later
          | .core .assign => exact assign short later
          | .core .define => exact definition (Or.inl rfl) short later
          | .core .sequence => exact sequence later
          | .core .lambda => exact lambda short fun e mem => later e (List.mem_of_mem_tail mem)
          | .defineTransformer => exact definition (Or.inr rfl) short later
          | .template => exact template short insideRest
    | _ => exact constant short nofun

end Expands

/-! ## Forms that are read -/

theorem Verdict.cases {Good : α → Prop} {r : Except Halt α} (h : Verdict Good r) :
    (∃ x, r = .ok x) ∨ ∃ form fault, r = .error (.failed (.malformed form fault)) := by
  cases h with
  | @value x _ => exact Or.inl ⟨x, rfl⟩
  | @refused form fault => exact Or.inr ⟨form, fault, rfl⟩

theorem Concludes.settles {a : Limited α} {Good : α → Prop} {m : Machine} (h : Concludes a Good) (only : m.OnlyLet) :
    ∃ r count, Verdict Good r ∧ Settles a m (r, m.made count) := by
  obtain ⟨r, count, fuel, room, verdict, ends⟩ := h m only
  refine ⟨r, count, verdict, fuel, room, ends fuel room (Nat.le_refl _) (Nat.le_refl _), ?_⟩
  cases verdict with
  | value => exact not_stopped_ok
  | refused => exact stopped_error_iff.not.mpr id

/-- Where only the builtin `let` is registered, the expansion of any form that is read from any text comes to an end
inside another form: there is a core form, or something in it has been refused as malformed. Frames, transformers,
continuations and output are then as they were, and there is nothing else that a run can come to but to be stopped by
its limits. -/
theorem expansion_ends {text : String} {symbols : SymbolTable} {nesting : Nat} {d : Datum}
    (read : d ∈ ((Reader.Port.ofText text symbols).forms nesting).1) (next : Nat) {m : Machine} (only : m.OnlyLet) :
    let form := (Value.ofDatum d next).1
    ∃ r count, ((∃ core, r = .ok core) ∨ ∃ shown fault, r = .error (.failed (.malformed shown fault))) ∧
      Settles (fun fuel room => expand fuel room form false) m (r, m.made count) ∧
      ∀ fuel room, Outcome.IsEarly (outcome (expand fuel room form false) m) ∨
        outcome (expand fuel room form false) m = (r, m.made count) := by
  intro form
  obtain ⟨readable, _⟩ := Reader.isReadableIn_of_forms nesting (.ofText text symbols) d read
  have short : form.hasLongInteger = false := readable.hasLongInteger (Datum.isShapeOf_ofDatum d next)
  obtain ⟨r, count, verdict, settles⟩ := (Expands.of_short form short).concludes.settles only
  exact ⟨r, count, verdict.cases, settles, settles.early_or_eq (improving_expand form false)⟩

/-- A curried definition, with a template in a `let` and another `let` in the template. -/
theorem expansion_ends_nested :
    let text := "(define ((f a) b) (let ((c `(1 ,(let ((x b)) x) ,@a))) c))"
    ∃ d ∈ ((Reader.Port.ofText text ⟨0, []⟩).forms 40).1, (Machine.start .zeros).OnlyLet ∧ ∃ core count,
      Settles (fun fuel room => expand fuel room (Value.ofDatum d 0).1 false) (Machine.start .zeros)
        (.ok core, (Machine.start .zeros).made count) := by
  intro text
  have succeeds : ((Reader.Port.ofText text ⟨0, []⟩).forms 40).1.map (fun d =>
      (outcome (expand 60 60 (Value.ofDatum d 0).1 false) (Machine.start .zeros)).1.isOk) = [true] := by
    decide +kernel
  obtain ⟨d, forms, success⟩ := List.map_eq_singleton_iff.mp succeeds
  have read : d ∈ ((Reader.Port.ofText text ⟨0, []⟩).forms 40).1 := forms ▸ List.mem_singleton.mpr rfl
  obtain ⟨r, count, _, settles, either⟩ := expansion_ends read 0 (show (Machine.start .zeros).OnlyLet from rfl)
  refine ⟨d, read, rfl, ?_⟩
  obtain ⟨h, n, stopped, _⟩ | same := either 60 60
  · rw [stopped] at success
    cases success
  · rw [same] at success
    cases r with
    | error h => cases success
    | ok core => exact ⟨core, count, settles⟩

end SmallLisp
