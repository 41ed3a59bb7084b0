import SmallLisp.Evaluation
import Mathlib.Data.List.Forall2
import Mathlib.Order.Basic
/-!
# States that are alike

Two runs make different objects, and a closure of the second may have the expansion of a body where the
first has the body. A matching says which objects of the two are the same. Values are alike when they are
built alike from matched objects; states are alike when their frames and transformers bind alike values to
the same keys, and the lines displayed differ only in the texts of values that are alike.
-/
namespace SmallLisp

/-- Which objects of two runs are the same, and whether the second may have expanded bodies. -/
structure Matching where
  objects : Nat → Nat → Prop
  expanding : Prop
  functional : ∀ {i j j'}, objects i j → objects i j' → j = j'
  injective : ∀ {i i' j}, objects i j → objects i' j → i = i'

namespace Matching

/-- A matching that matches more objects. -/
instance : LE Matching :=
  ⟨fun w w' => (∀ {i j}, w.objects i j → w'.objects i j) ∧ (w'.expanding ↔ w.expanding)⟩

instance : Preorder Matching where
  le_refl _ := ⟨id, Iff.rfl⟩
  le_trans _ _ _ h h' := ⟨fun matched => h'.1 (h.1 matched), h'.2.trans h.2⟩

/-- Matches two new objects. -/
def add (w : Matching) (i j : Nat) (newFirst : ∀ j', ¬ w.objects i j')
    (newSecond : ∀ i', ¬ w.objects i' j) : Matching where
  objects k l := w.objects k l ∨ k = i ∧ l = j
  expanding := w.expanding
  functional := by
    rintro k l l' (h | ⟨rfl, rfl⟩) (h' | ⟨h', rfl⟩)
    · exact w.functional h h'
    · exact absurd (h' ▸ h) (newFirst _)
    · exact absurd h' (newFirst _)
    · rfl
  injective := by
    rintro k k' l (h | ⟨rfl, rfl⟩) (h' | ⟨rfl, h'⟩)
    · exact w.injective h h'
    · exact absurd (h' ▸ h) (newSecond _)
    · exact absurd h' (newSecond _)
    · rfl

theorem le_add (w : Matching) (i j : Nat) {newFirst newSecond} : w ≤ w.add i j newFirst newSecond :=
  ⟨Or.inl, Iff.rfl⟩

/-- The objects below a number are matched with themselves. -/
def below (bound : Nat) (expanding : Prop) : Matching where
  objects i j := i = j ∧ i < bound
  expanding := expanding
  functional h h' := h.1.symm.trans h'.1
  injective h h' := h.1.trans h'.1.symm

end Matching

/-- How the second of two forms comes from the first: it is the same, or it is the expansion. -/
inductive Reading where
  | plain
  | expanded

/-- Only a matching that says so has expanded bodies. -/
def Reading.Allowed (r : Reading) (w : Matching) : Prop :=
  r = .expanded → w.expanding

theorem Reading.Allowed.mono {r : Reading} {w w' : Matching} (h : r.Allowed w) (le : w ≤ w') :
    r.Allowed w' :=
  fun expanded => le.2.mpr (h expanded)

theorem Reading.allowed_plain (w : Matching) : Reading.plain.Allowed w := nofun

namespace Value

/-- A value that is no object and holds none. -/
def isAtom : Value → Bool
  | nan _ | list .. | closure .. | escape .. => false
  | _ => true

/-- Values of two runs that are the same up to the numbers of their objects, but for the bodies of closures,
and forms of which the second is the expansion of the first, up to the numbers of the lists. -/
inductive Like (w : Matching) : Reading → Value → Value → Prop
  | atom {r v} : v.isAtom = true → Like w r v v
  | nan {r i j} : w.objects i j → Like w r (nan i) (nan j)
  | closure {r r' i j ps ps' body body' home} : w.objects i j → Reading.Allowed r' w →
      Like w .plain ps ps' → Like w r' body body' →
      Like w r (closure i ps body home) (closure j ps' body' home)
  | escape {r k v v'} : Like w .plain v v' → Like w r (escape k v) (escape k v')
  | list {i j items items'} : w.objects i j → List.Forall₂ (Like w .plain) items items' →
      Like w .plain (list i items) (list j items')
  | quote {i j d d'} : Like w .plain d d' →
      Like w .expanded (list i [symbol "quote", d]) (list j [symbol "quote", d'])
  | shortTest {i j t t' e e'} : Like w .expanded t t' → Like w .expanded e e' →
      Like w .expanded (list i [symbol "if", t, e]) (list j [symbol "if", t', e', unspecified])
  | test {i j t t' e e' o o'} : Like w .expanded t t' → Like w .expanded e e' → Like w .expanded o o' →
      Like w .expanded (list i [symbol "if", t, e, o]) (list j [symbol "if", t', e', o'])
  | binding {i j k target e e'} : k = .assign ∨ k = .define → target.isAtom = true →
      Like w .expanded e e' →
      Like w .expanded (list i [CoreKeyword.symbol k, target, e]) (list j [k.symbol, target, e'])
  | emptySequence {i} : Like w .expanded (list i [symbol "begin"]) unspecified
  | sequence {i j e e' es es'} : Like w .expanded e e' → List.Forall₂ (Like w .expanded) es es' →
      Like w .expanded (list i (symbol "begin" :: e :: es)) (list j (symbol "begin" :: e' :: es'))
  | lambda {i j ps ps' body body'} : Like w .plain ps ps' → Like w .expanded body body' →
      Like w .expanded (list i [symbol "lambda", ps, body]) (list j [symbol "lambda", ps', body'])
  | longLambda {i j k ps ps' e e' es es'} : Like w .plain ps ps' →
      List.Forall₂ (Like w .expanded) (e :: e' :: es) es' →
      Like w .expanded (list i (symbol "lambda" :: ps :: e :: e' :: es))
        (list j [symbol "lambda", ps', list k (symbol "begin" :: es')])
  | application {i j head head' args args'} : Keyword.ofHead? head = none →
      Like w .expanded head head' → List.Forall₂ (Like w .expanded) args args' →
      Like w .expanded (list i (head :: args)) (list j (head' :: args'))

namespace Like

variable {w w' : Matching} {r : Reading} {v v' : Value}

/-- Induction over values that are alike: what is shown comes with each pair of items. -/
@[induction_eliminator]
theorem induct {motive : (r : Reading) → (v v' : Value) → Like w r v v' → Prop}
    (atom : ∀ {r v} (isAtom : v.isAtom = true), motive r v v (.atom isAtom))
    (nan : ∀ {r i j} (matched : w.objects i j), motive r (.nan i) (.nan j) (.nan matched))
    (closure : ∀ {r r' i j ps ps' body body' home} (matched : w.objects i j)
      (allowed : Reading.Allowed r' w) (hps : Like w .plain ps ps')
      (hbody : Like w r' body body'), motive _ _ _ hps → motive _ _ _ hbody →
      motive r (.closure i ps body home) (.closure j ps' body' home)
        (.closure matched allowed hps hbody))
    (escape : ∀ {r k v v'} (h : Like w .plain v v'), motive _ _ _ h →
      motive r (.escape k v) (.escape k v') (.escape h))
    (list : ∀ {i j items items'} (matched : w.objects i j)
      (hitems : List.Forall₂ (Like w .plain) items items'),
      List.Forall₂ (fun v v' => ∃ h, motive .plain v v' h) items items' →
      motive .plain (.list i items) (.list j items') (.list matched hitems))
    (quote : ∀ {i j d d'} (hd : Like w .plain d d'), motive _ _ _ hd →
      motive .expanded (.list i [.symbol "quote", d]) (.list j [.symbol "quote", d']) (.quote hd))
    (shortTest : ∀ {i j t t' e e'} (ht : Like w .expanded t t') (he : Like w .expanded e e'),
      motive _ _ _ ht → motive _ _ _ he →
      motive .expanded (.list i [.symbol "if", t, e]) (.list j [.symbol "if", t', e', .unspecified])
        (.shortTest ht he))
    (test : ∀ {i j t t' e e' o o'} (ht : Like w .expanded t t') (he : Like w .expanded e e')
      (ho : Like w .expanded o o'), motive _ _ _ ht → motive _ _ _ he → motive _ _ _ ho →
      motive .expanded (.list i [.symbol "if", t, e, o]) (.list j [.symbol "if", t', e', o'])
        (.test ht he ho))
    (binding : ∀ {i j k target e e'} (hk : k = .assign ∨ k = .define) (isAtom : target.isAtom = true)
      (he : Like w .expanded e e'), motive _ _ _ he →
      motive .expanded (.list i [CoreKeyword.symbol k, target, e]) (.list j [k.symbol, target, e'])
        (.binding hk isAtom he))
    (emptySequence : ∀ {i}, motive .expanded (.list i [.symbol "begin"]) .unspecified .emptySequence)
    (sequence : ∀ {i j e e' es es'} (he : Like w .expanded e e')
      (hes : List.Forall₂ (Like w .expanded) es es'), motive _ _ _ he →
      List.Forall₂ (fun v v' => ∃ h, motive .expanded v v' h) es es' →
      motive .expanded (.list i (.symbol "begin" :: e :: es)) (.list j (.symbol "begin" :: e' :: es'))
        (.sequence he hes))
    (lambda : ∀ {i j ps ps' body body'} (hps : Like w .plain ps ps')
      (hbody : Like w .expanded body body'), motive _ _ _ hps → motive _ _ _ hbody →
      motive .expanded (.list i [.symbol "lambda", ps, body]) (.list j [.symbol "lambda", ps', body'])
        (.lambda hps hbody))
    (longLambda : ∀ {i j k ps ps' e e' es es'} (hps : Like w .plain ps ps')
      (hes : List.Forall₂ (Like w .expanded) (e :: e' :: es) es'), motive _ _ _ hps →
      List.Forall₂ (fun v v' => ∃ h, motive .expanded v v' h) (e :: e' :: es) es' →
      motive .expanded (.list i (.symbol "lambda" :: ps :: e :: e' :: es))
        (.list j [.symbol "lambda", ps', .list k (.symbol "begin" :: es')]) (.longLambda hps hes))
    (application : ∀ {i j head head' args args'} (noKeyword : Keyword.ofHead? head = none)
      (hhead : Like w .expanded head head') (hargs : List.Forall₂ (Like w .expanded) args args'),
      motive _ _ _ hhead → List.Forall₂ (fun v v' => ∃ h, motive .expanded v v' h) args args' →
      motive .expanded (.list i (head :: args)) (.list j (head' :: args'))
        (.application noKeyword hhead hargs))
    (h : Like w r v v') : motive r v v' h :=
  @rec w motive (fun vs vs' _ => List.Forall₂ (fun v v' => ∃ h, motive .plain v v' h) vs vs')
    (fun vs vs' _ => List.Forall₂ (fun v v' => ∃ h, motive .expanded v v' h) vs vs')
    atom nan closure escape list quote shortTest test binding emptySequence sequence lambda longLambda
    application .nil (fun h _ ih ihs => .cons ⟨h, ih⟩ ihs) .nil (fun h _ ih ihs => .cons ⟨h, ih⟩ ihs)
    r v v' h

theorem mono (le : w ≤ w') (h : Like w r v v') : Like w' r v v' := by
  have parts {r vs vs'} (hs : List.Forall₂ (fun v v' => ∃ _ : Like w r v v', Like w' r v v') vs vs') :
      List.Forall₂ (Like w' r) vs vs' := hs.imp fun _ _ ⟨_, h⟩ => h
  induction h with
  | atom isAtom => exact .atom isAtom
  | nan matched => exact .nan (le.1 matched)
  | closure matched allowed _ _ ps body =>
    exact .closure (le.1 matched) (allowed.mono le) ps body
  | escape _ h => exact .escape h
  | list matched _ items => exact .list (le.1 matched) (parts items)
  | quote _ d => exact .quote d
  | shortTest _ _ t e => exact .shortTest t e
  | test _ _ _ t e o => exact .test t e o
  | binding hk isAtom _ e => exact .binding hk isAtom e
  | emptySequence => exact .emptySequence
  | sequence _ _ e es => exact .sequence e (parts es)
  | lambda _ _ ps body => exact .lambda ps body
  | longLambda _ _ ps es => exact .longLambda ps (parts es)
  | application noKeyword _ _ head args => exact .application noKeyword head (parts args)

theorem name?_eq (h : Like w r v v') : v.name? = v'.name? := by
  cases h <;> rfl

theorem ofHead?_eq (h : Like w r v v') : Keyword.ofHead? v = Keyword.ofHead? v' := by
  cases h <;> rfl

theorem coreOfHead?_eq (h : Like w r v v') : CoreKeyword.ofHead? v = CoreKeyword.ofHead? v' := by
  cases h <;> rfl

theorem isEscape_eq (h : Like w r v v') : v.isEscape = v'.isEscape := by
  cases h <;> rfl

theorem isFalse_eq (h : Like w r v v') : v.isFalse = v'.isFalse := by
  cases h <;> rfl

theorem isSymbol_eq (h : Like w r v v') (name : String) : v.isSymbol name = v'.isSymbol name := by
  cases h <;> rfl

theorem isProcedure_eq (h : Like w r v v') : v.isProcedure = v'.isProcedure := by
  cases h <;> rfl

theorem number?_eq (h : Like w r v v') : v.number? = v'.number? := by
  cases h <;> rfl

section Plain

variable (h : Like w .plain v v')
include h

theorem kindName_eq : v.kindName = v'.kindName := by
  cases h <;> rfl

theorem hasKind_eq (k : Kind) : v.hasKind k = v'.hasKind k := by
  cases h with
  | atom => rfl
  | list _ items => cases items <;> cases k <;> rfl
  | _ => cases k <;> rfl

/-- The values that two values hold one after another. -/
theorem elements? : Option.Rel (List.Forall₂ (Like w .plain)) v.elements? v'.elements? := by
  cases h with
  | atom isAtom =>
    cases v with
    | string s => exact .some (List.forall₂_same.mpr fun c hc => by
        obtain ⟨c, _, rfl⟩ := List.mem_map.mp hc
        exact .atom rfl)
    | list | nan | closure | escape => cases isAtom
    | _ => exact .none
  | list _ items => exact .some items
  | _ => exact .none

end Plain

/-- Objects of the first run are one just when the objects of the second are. -/
theorem beq_objects {i i' j j' : Nat} (hi : w.objects i i') (hj : w.objects j j') :
    (i == j) = (i' == j') := by
  rw [Bool.eq_iff_iff, beq_iff_eq, beq_iff_eq]
  constructor
  · rintro rfl
    exact w.functional hi hj
  · rintro rfl
    exact w.injective hi hj

theorem same_eq {u u' : Value} (h : Like w .plain v v') (h' : Like w .plain u u') :
    v.same u = v'.same u' := by
  cases h with
  | atom isAtom =>
    cases h' with
    | atom => rfl
    | _ => cases v <;> first | rfl | cases isAtom
  | nan matched =>
    cases h' with
    | nan matched' => exact beq_objects matched matched'
    | atom isAtom => cases u <;> first | rfl | cases isAtom
    | _ => rfl
  | closure matched =>
    cases h' with
    | closure matched' => exact beq_objects matched matched'
    | atom isAtom => cases u <;> first | rfl | cases isAtom
    | _ => rfl
  | escape =>
    cases h' with
    | atom => cases u <;> rfl
    | _ => rfl
  | list matched items =>
    cases h' with
    | list matched' items' =>
      simp only [same, beq_objects matched matched']
      cases items <;> cases items' <;> rfl
    | atom isAtom => cases u <;> first | rfl | cases isAtom
    | _ => rfl

theorem allEqual?_eq {f f' : Value → Value → Option Bool} {vs vs' us us' : List Value}
    (h : List.Forall₂ (fun v v' => ∀ u u', Like w .plain u u' → f v u = f' v' u') vs vs')
    (h' : List.Forall₂ (Like w .plain) us us') : allEqual? f vs us = allEqual? f' vs' us' := by
  induction h generalizing us us' with
  | nil => rfl
  | cons first _ ih =>
    cases h' with
    | nil => rfl
    | cons h' hs' => simp only [allEqual?, first _ _ h', ih hs']

theorem equal?_of_not_lists {v u : Value} (notLists : (v.hasKind .list && u.hasKind .list) = false)
    (room : Nat) : v.equal? room u = some (v.same u) := by
  unfold equal?
  split
  · cases notLists
  · cases notLists
  · rfl

theorem lists_of_hasKind (h : Like w .plain v v') (isList : v.hasKind .list = true) :
    ∃ i j items items', v = .list i items ∧ v' = .list j items' ∧
      List.Forall₂ (Like w .plain) items items' := by
  cases h with
  | atom isAtom => cases v <;> cases isAtom <;> cases isList
  | list _ items => exact ⟨_, _, _, _, rfl, rfl, items⟩
  | _ => cases isList

theorem equal?_eq {u u' : Value} (h : Like w .plain v v') (h' : Like w .plain u u') (room : Nat) :
    v.equal? room u = v'.equal? room u' := by
  induction room using Nat.strongRecOn generalizing v v' u u' with
  | ind room ih =>
    cases lists : v.hasKind .list && u.hasKind .list with
    | false =>
      have lists' := lists
      rw [h.hasKind_eq, h'.hasKind_eq] at lists'
      rw [equal?_of_not_lists lists, equal?_of_not_lists lists', same_eq h h']
    | true =>
      rw [Bool.and_eq_true] at lists
      obtain ⟨i, i', xs, xs', rfl, rfl, hxs⟩ := h.lists_of_hasKind lists.1
      obtain ⟨j, j', ys, ys', rfl, rfl, hys⟩ := h'.lists_of_hasKind lists.2
      cases room with
      | zero => rfl
      | succ room =>
        simp only [equal?, hxs.length_eq, hys.length_eq]
        split
        · exact allEqual?_eq (hxs.imp fun _ _ h _ _ h' => ih room (Nat.lt_succ_self _) h h') hys
        · rfl

theorem anyLongInteger_eq {vs vs' : List Value}
    (h : List.Forall₂ (fun v v' => v.hasLongInteger = v'.hasLongInteger) vs vs') :
    anyLongInteger vs = anyLongInteger vs' := by
  induction h with
  | nil => rfl
  | cons first _ ih => simp only [anyLongInteger, first, ih]

theorem hasLongInteger_eq (h : Like w r v v') : v.hasLongInteger = v'.hasLongInteger := by
  have all {r vs vs'}
      (hs : List.Forall₂ (fun v v' => ∃ _ : Like w r v v', v.hasLongInteger = v'.hasLongInteger) vs vs') :
      anyLongInteger vs = anyLongInteger vs' := anyLongInteger_eq (hs.imp fun _ _ ⟨_, h⟩ => h)
  induction h with
  | atom => rfl
  | nan => rfl
  | closure _ _ _ _ ps body => simp only [hasLongInteger, ps, body]
  | escape _ h => simpa only [hasLongInteger] using h
  | list _ _ items => simp only [hasLongInteger, all items]
  | quote _ d => simp only [hasLongInteger, anyLongInteger, d]
  | shortTest _ _ t e => simp [hasLongInteger, anyLongInteger, t, e]
  | test _ _ _ t e o => simp only [hasLongInteger, anyLongInteger, t, e, o]
  | binding _ _ _ e => simp only [hasLongInteger, anyLongInteger, e, CoreKeyword.symbol]
  | emptySequence => rfl
  | sequence _ _ e es => simp only [hasLongInteger, anyLongInteger, e, all es]
  | lambda _ _ ps body => simp only [hasLongInteger, anyLongInteger, ps, body]
  | longLambda _ _ ps es =>
    have es := all es
    simp only [anyLongInteger] at es
    simp [hasLongInteger, anyLongInteger, ps, ← es]
  | application _ _ _ head args => simp only [hasLongInteger, anyLongInteger, head, all args]

end Like

end Value

end SmallLisp
