import SmallLisp.Proofs.Likeness
/-!
# Texts, failures and states that are alike

What two runs show is the same but for the texts of values that are alike. Their frames have the same
chains and bind the same keys, so that a key is looked up in the same frame of both.
-/
namespace SmallLisp

open Value (Like)

/-- Optional values that are related are both missing or both there. -/
theorem rel_cases {α β : Type} {R : α → β → Prop} {found : Option α} {found' : Option β}
    (h : Option.Rel R found found') :
    found = none ∧ found' = none ∨ ∃ x y, found = some x ∧ found' = some y ∧ R x y := by
  cases h with
  | none => exact Or.inl ⟨rfl, rfl⟩
  | some h => exact Or.inr ⟨_, _, rfl, rfl, h⟩

/-- Texts that are the same, but for the texts of values that are alike. -/
inductive TextLike (w : Matching) : String → String → Prop
  | same (s) : TextLike w s s
  | printed {v v' : Value} (live : Nat → Bool) (style : Style) : Like w .plain v v' →
      TextLike w (v.text live style) (v'.text live style)
  | append {s s' t t'} : TextLike w s s' → TextLike w t t' → TextLike w (s ++ t) (s' ++ t')

inductive TypeFault.Like (w : Matching) : TypeFault → TypeFault → Prop
  | same (fault) : Like w fault fault
  | notProcedure {s s'} : TextLike w s s' → Like w (.notProcedure s) (.notProcedure s')
  | notName {s s'} : TextLike w s s' → Like w (.notName s) (.notName s')
  | notNumber (op) {s s'} : TextLike w s s' → Like w (.notNumber op s) (.notNumber op s')
  | notList (op) {s s'} : TextLike w s s' → Like w (.notList op s) (.notList op s')
  | notListOrString {s s'} : TextLike w s s' → Like w (.notListOrString s) (.notListOrString s')

inductive Failure.Like (w : Matching) : Failure → Failure → Prop
  | same (failure) : Like w failure failure
  | malformed {s s'} (fault) : TextLike w s s' → Like w (.malformed s fault) (.malformed s' fault)
  | unbound {s s'} : TextLike w s s' → Like w (.unbound s) (.unbound s')
  | type {fault fault'} : TypeFault.Like w fault fault' → Like w (.type fault) (.type fault')
  | arity (expected given) {s s'} : TextLike w s s' →
      Like w (.arity expected given s) (.arity expected given s')

/-- Results that are alike, in a sense of their own, or failures that are. -/
inductive Results {α β : Type} (w : Matching) (Q : α → β → Prop) :
    Except Failure α → Except Failure β → Prop
  | ok {x y} : Q x y → Results w Q (.ok x) (.ok y)
  | error {f f'} : Failure.Like w f f' → Results w Q (.error f) (.error f')

theorem Results.bind {α α' β β' : Type} {w : Matching} {P : α → α' → Prop} {Q : β → β' → Prop}
    {a : Except Failure α} {a' : Except Failure α'} {k : α → Except Failure β}
    {k' : α' → Except Failure β'} (h : Results w P a a')
    (rest : ∀ x y, P x y → Results w Q (k x) (k' y)) : Results w Q (a >>= k) (a' >>= k') := by
  cases h with
  | ok h => exact rest _ _ h
  | error h => exact .error h

theorem TextLike.mono {w w' : Matching} (le : w ≤ w') {s s' : String} (h : TextLike w s s') :
    TextLike w' s s' := by
  induction h with
  | same s => exact .same s
  | printed live style h => exact .printed live style (h.mono le)
  | append _ _ first second => exact .append first second

/-- Texts with something between them are alike when the texts are. -/
theorem TextLike.intercalate {w : Matching} (between : String) {ss ss' : List String}
    (h : List.Forall₂ (TextLike w) ss ss') :
    TextLike w (String.intercalate between ss) (String.intercalate between ss') := by
  induction h with
  | nil => exact .same _
  | cons first rest ih =>
    cases rest with
    | nil => simpa only [String.intercalate_singleton] using first
    | cons =>
      rw [String.intercalate_cons_cons, String.intercalate_cons_cons]
      exact .append (.append first (.same between)) ih

/-! ## Bindings and frames -/

/-- A key that is no object and holds none. -/
def Key.isAtom : Key → Bool
  | object _ | escape .. => false
  | _ => true

/-- Keys of two runs that are the same up to the numbers of their objects. -/
inductive Key.Like (w : Matching) : Key → Key → Prop
  | atom {key} : key.isAtom = true → Like w key key
  | object {i j} : w.objects i j → Like w (object i) (object j)
  | escape (k) {key key'} : Like w key key' → Like w (escape k key) (escape k key')

/-- Keys of the first run are one just when the keys of the second are. -/
theorem Key.Like.eq_iff {w : Matching} {a a' b b' : Key} (h : a.Like w a') (h' : b.Like w b') :
    a = b ↔ a' = b' := by
  induction h generalizing b b' with
  | atom isAtom =>
    cases h' with
    | atom => exact Iff.rfl
    | object | escape => constructor <;> (rintro rfl; cases isAtom)
  | object matched =>
    cases h' with
    | object matched' =>
      have same := beq_iff_eq.symm.trans (Bool.eq_iff_iff.mp (Value.Like.beq_objects matched matched'))
      simpa using same
    | atom isAtom => constructor <;> (rintro rfl; cases isAtom)
    | escape => exact ⟨nofun, nofun⟩
  | escape k _ ih =>
    cases h' with
    | escape k' h' => rw [Key.escape.injEq, Key.escape.injEq, ih h']
    | atom isAtom => constructor <;> (rintro rfl; cases isAtom)
    | object => exact ⟨nofun, nofun⟩

/-- Values that are alike are alike keys. -/
theorem Value.Like.key? {w : Matching} {r : Reading} {v v' : Value} (h : Like w r v v') (plain : r = .plain) :
    Option.Rel (Key.Like w) (Key.ofValue? v) (Key.ofValue? v') := by
  induction h with
  | @atom r v isAtom =>
    cases v with
    | nan | list | closure | escape => cases isAtom
    | float x =>
      refine .some (.atom ?_)
      unfold Key.ofFloat
      split <;> rfl
    | _ => exact .some (.atom rfl)
  | nan matched => exact .some (.object matched)
  | closure matched => exact .some (.object matched)
  | @escape r k v v' _ ih =>
    rw [Key.ofValue?, Key.ofValue?]
    obtain ⟨none, none'⟩ | ⟨key, key', keyed, keyed', same⟩ := rel_cases (ih rfl)
    · rw [none, none']
      exact .none
    · rw [keyed, keyed']
      exact .some (.escape k same)
  | list => exact .none
  | _ => cases plain

structure Binding.Like (w : Matching) (b b' : Binding) : Prop where
  target : Value.Like w .plain b.target b'.target
  value : Value.Like w .plain b.value b'.value

theorem Binding.Like.key {w : Matching} {b b' : Binding} (h : b.Like w b') : b.key.Like w b'.key := by
  have same := h.target.key? rfl
  rw [b.keyed, b'.keyed] at same
  cases same with
  | some same => exact same

namespace Bindings

variable {w w' : Matching}

abbrev Like (w : Matching) (bs bs' : Bindings) : Prop :=
  List.Forall₂ (Binding.Like w) bs bs'

variable {bs bs' : Bindings}

theorem Like.mono (le : w ≤ w') (h : Like w bs bs') : Like w' bs bs' :=
  h.imp fun _ _ h => ⟨h.target.mono le, h.value.mono le⟩

variable {key key' : Key}

theorem Like.get? (h : Like w bs bs') (same : key.Like w key') :
    Option.Rel (Value.Like w .plain) (bs.get? key) (bs'.get? key') := by
  induction h with
  | nil => exact .none
  | cons first _ ih =>
    simp only [Bindings.get?, first.key.eq_iff same]
    split
    · exact .some first.value
    · exact ih

theorem Like.binds_eq (h : Like w bs bs') (same : key.Like w key') : bs.binds key = bs'.binds key' := by
  induction h with
  | nil => rfl
  | cons first _ ih => simp only [binds, first.key.eq_iff same, ih]

theorem Like.put (h : Like w bs bs') {new new' : Binding} (hnew : new.Like w new') :
    Like w (bs.put new) (bs'.put new') := by
  induction h with
  | nil => exact .cons hnew .nil
  | cons first rest ih =>
    simp only [Bindings.put, first.key.eq_iff hnew.key]
    split
    · exact .cons ⟨first.target, hnew.value⟩ rest
    · exact .cons first ih

end Bindings

theorem Binding.ofName_like {w : Matching} {v v' : Value} (name : String)
    (h : Value.Like w .plain v v') : (ofName name v).Like w (ofName name v') :=
  ⟨.atom rfl, h⟩

theorem Binding.ofTarget_like {w : Matching} {target target' v v' : Value}
    (ht : Value.Like w .plain target target') (hv : Value.Like w .plain v v') :
    Results w (Binding.Like w) (ofTarget target v) (ofTarget target' v') := by
  obtain ⟨none, none'⟩ | ⟨key, key', keyed, keyed', _⟩ := rel_cases (ht.key? rfl)
  · rw [ofTarget_of_no_key none, ofTarget_of_no_key none']
    exact .error (.same _)
  · rw [ofTarget_of_key keyed, ofTarget_of_key keyed']
    exact .ok ⟨ht, hv⟩

theorem Bindings.ofPairs_like {w : Matching} {pairs pairs' : List (Value × Value)}
    (h : List.Forall₂ (fun p p' => Value.Like w .plain p.1 p'.1 ∧ Value.Like w .plain p.2 p'.2)
      pairs pairs') : Results w (Bindings.Like w) (ofPairs pairs) (ofPairs pairs') := by
  have fold {bs bs'} (hbs : Bindings.Like w bs bs') : Results w (Bindings.Like w)
      (pairs.foldlM (fun bs pair => do return bs.put (← Binding.ofTarget pair.1 pair.2)) bs)
      (pairs'.foldlM (fun bs pair => do return bs.put (← Binding.ofTarget pair.1 pair.2)) bs') := by
    induction h generalizing bs bs' with
    | nil => exact .ok hbs
    | cons first _ ih =>
      rw [List.foldlM_cons, List.foldlM_cons]
      refine .bind ?_ fun bs bs' hbs => ih hbs
      exact .bind (Binding.ofTarget_like first.1 first.2) fun b b' hb => .ok (hbs.put hb)
  exact fold .nil

structure Frame.Like (w : Matching) (frame frame' : Frame) : Prop where
  bindings : Bindings.Like w frame.bindings frame'.bindings
  outer : frame.outer = frame'.outer

structure Frames.Like (w : Matching) (fs fs' : Frames) : Prop where
  size : fs.all.size = fs'.all.size
  get? : ∀ f, Option.Rel (Frame.Like w) (fs.get? f) (fs'.get? f)

namespace Frames.Like

variable {w w' : Matching} {fs fs' : Frames}

theorem mono (le : w ≤ w') (h : fs.Like w fs') : fs.Like w' fs' where
  size := h.size
  get? f := by
    obtain ⟨none, none'⟩ | ⟨frame, frame', found, found', same⟩ := rel_cases (h.get? f)
    · rw [none, none']
      exact .none
    · rw [found, found']
      exact .some ⟨same.bindings.mono le, same.outer⟩

theorem bindingsOf (h : fs.Like w fs') (f : FrameId) :
    Bindings.Like w (fs.bindingsOf f) (fs'.bindingsOf f) := by
  unfold Frames.bindingsOf
  obtain ⟨none, none'⟩ | ⟨frame, frame', found, found', same⟩ := rel_cases (h.get? f)
  · rw [none, none']
    exact .nil
  · rw [found, found']
    exact same.bindings

theorem chain_eq (h : fs.Like w fs') (f : FrameId) : fs.chain f = fs'.chain f := by
  have within (bound : Nat) (f : FrameId) : fs.chainWithin bound f = fs'.chainWithin bound f := by
    induction bound generalizing f with
    | zero => rfl
    | succ bound ih =>
      unfold chainWithin
      obtain ⟨none, none'⟩ | ⟨frame, frame', found, found', same⟩ := rel_cases (h.get? f)
      · rw [none, none']
      · rw [found, found']
        dsimp only
        rw [same.outer]
        split
        · rfl
        · rw [ih]
  unfold chain
  rw [h.size, within]

theorem find?_eq (h : fs.Like w fs') (f : FrameId) {key key' : Key} (same : key.Like w key') :
    fs.find? f key = fs'.find? f key' := by
  unfold find?
  rw [h.chain_eq]
  congr 1
  exact funext fun g => (h.bindingsOf g).binds_eq same

theorem lookup? (h : fs.Like w fs') (f : FrameId) {key key' : Key} (same : key.Like w key') :
    Option.Rel (Value.Like w .plain) (fs.lookup? f key) (fs'.lookup? f key') := by
  unfold Frames.lookup?
  rw [h.find?_eq f same]
  cases fs'.find? f key' with
  | none => exact .none
  | some owner => exact (h.bindingsOf owner).get? same

theorem define (h : fs.Like w fs') (f : FrameId) {new new' : Binding} (hnew : new.Like w new') :
    (fs.define f new).Like w (fs'.define f new') where
  size := by simpa [Frames.define] using h.size
  get? g := by
    rw [get?_define, get?_define]
    split
    · obtain ⟨none, none'⟩ | ⟨frame, frame', found, found', same⟩ := rel_cases (h.get? g)
      · rw [none, none']
        exact .none
      · rw [found, found']
        exact .some ⟨same.bindings.put hnew, same.outer⟩
    · exact h.get? g

theorem new (h : fs.Like w fs') {bs bs' : Bindings} (hbs : Bindings.Like w bs bs')
    (outer : Option FrameId) :
    (fs.new bs outer).1 = (fs'.new bs' outer).1 ∧ (fs.new bs outer).2.Like w (fs'.new bs' outer).2 := by
  refine ⟨h.size, by simpa [Frames.new] using h.size, fun f => ?_⟩
  simp only [Frames.new, Frames.get?, Array.getElem?_push, h.size]
  split
  · exact .some ⟨hbs, rfl⟩
  · exact h.get? f

end Frames.Like

/-! ## States -/

structure Machine.Like (w : Matching) (m m' : Machine) : Prop where
  frames : m.frames.Like w m'.frames
  transformers : Bindings.Like w m.transformers m'.transformers
  continuations : m.continuations = m'.continuations
  objects : ∀ {i j}, w.objects i j → i < m.nextObject ∧ j < m'.nextObject
  output : List.Forall₂ (TextLike w) m.output.toList m'.output.toList
  draws : m.draws = m'.draws

theorem Machine.Like.isLive_eq {w : Matching} {m m' : Machine} (h : m.Like w m') :
    m.isLive = m'.isLive := by
  unfold isLive
  rw [h.continuations]

/-! ## Where no body is expanded -/

theorem Value.texts_eq {live : Nat → Bool} {style : Style} {vs vs' : List Value}
    (h : List.Forall₂ (fun v v' => v.text live style = v'.text live style) vs vs') :
    texts live style vs = texts live style vs' := by
  induction h with
  | nil => rfl
  | cons first _ ih => simp only [texts, first, ih]

/-- The numbers of objects are not shown. -/
theorem Value.Like.text_eq {w : Matching} {r : Reading} {v v' : Value} (h : Like w r v v')
    (plain : r = .plain) (strict : ¬ w.expanding) (live : Nat → Bool) (style : Style) :
    v.text live style = v'.text live style := by
  induction h generalizing style with
  | atom => rfl
  | nan => cases style <;> rfl
  | @closure r r' _ _ _ _ _ _ _ _ allowed _ _ ps body =>
    cases r' with
    | plain => cases style <;> simp only [text, ps rfl, body rfl]
    | expanded => exact absurd (allowed rfl) strict
  | escape _ h => cases style <;> simp only [text, h rfl]
  | list _ _ items =>
    have same (style : Style) := texts_eq (items.imp fun _ _ ⟨_, h⟩ => h rfl style)
    cases style <;> simp only [text, same]
  | _ => cases plain

theorem TextLike.eq {w : Matching} {s s' : String} (h : TextLike w s s') (strict : ¬ w.expanding) :
    s = s' := by
  induction h with
  | same s => rfl
  | printed live style h => exact h.text_eq rfl strict live style
  | append _ _ first second => rw [first, second]

theorem Failure.Like.eq {w : Matching} {f f' : Failure} (h : f.Like w f') (strict : ¬ w.expanding) :
    f = f' := by
  cases h with
  | same => rfl
  | malformed fault text => rw [text.eq strict]
  | unbound text => rw [text.eq strict]
  | arity expected given text => rw [text.eq strict]
  | type fault =>
    cases fault with
    | same => rfl
    | notProcedure text => rw [text.eq strict]
    | notName text => rw [text.eq strict]
    | notNumber op text => rw [text.eq strict]
    | notList op text => rw [text.eq strict]
    | notListOrString text => rw [text.eq strict]

theorem Machine.Like.output_eq {w : Matching} {m m' : Machine} (h : m.Like w m')
    (strict : ¬ w.expanding) : m.output = m'.output := by
  have same {ls ls' : List String} (texts : List.Forall₂ (TextLike w) ls ls') : ls = ls' := by
    induction texts with
    | nil => rfl
    | cons first _ ih => rw [first.eq strict, ih]
  exact Array.toList_inj.mp (same h.output)

end SmallLisp
