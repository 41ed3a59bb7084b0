import SmallLisp.Proofs.PreludeTransformers
/-!
# Derived forms

A use of `let` or of a transformer of the prelude is expanded once and for all to core forms, and all that
is evaluated later is the expansions of its operands. What is made of them is computed here beside them, so
that the two can be compared.
-/
namespace SmallLisp

open Run

variable {α β : Type} {m n : Machine} {frame : FrameId} {i : Nat} {toplevel : Bool} {o : Outcome Value}

/-- Whenever a computation within limits settles on a value, the value has a property. -/
def Delivers (a : Limited α) (P : α → Prop) : Prop :=
  ∀ m x n, Settles a m (.ok x, n) → P x

namespace Delivers

variable {a : Limited α} {k : α → Limited β} {P : α → Prop} {Q : β → Prop}

theorem pure {x : α} (h : P x) : Delivers (fun _ _ => pure x) P := by
  rintro m _ n ⟨_, _, ⟨⟩, _⟩
  exact h

theorem bind (first : Delivers a P) (rest : ∀ x, P x → Delivers (k x) Q) :
    Delivers (fun fuel room => a fuel room >>= fun x => k x fuel room) Q := by
  rintro m y l ⟨fuel, room, ends, _⟩
  obtain ⟨x, n, done, ends⟩ := outcome_bind_ok.mp ends
  exact rest x (first m x n ⟨fuel, room, done, not_stopped_ok⟩) n y l ⟨fuel, room, ends, not_stopped_ok⟩

/-- A computation whose result does not matter. -/
theorem next (rest : ∀ x, Delivers (k x) Q) :
    Delivers (fun fuel room => a fuel room >>= fun x => k x fuel room) Q :=
  bind (P := fun _ => True) (fun _ _ _ _ => trivial) fun x _ => rest x

theorem list (items : List Value) : Delivers (fun _ _ => newList items) fun v => ∃ i, v = .list i items := by
  rintro m _ _ ⟨_, _, ⟨⟩, _⟩
  exact ⟨_, rfl⟩

end Delivers

/-! ## States in which the prelude is in force -/

/-- The prelude is in force, and the list procedures that its transformers call have their meaning. -/
structure Machine.Ready (m : Machine) : Prop where
  founded : m.Founded
  prelude : m.HasPrelude
  procedures : m.frames.HasListProcedures root

namespace Machine.Ready

variable (h : m.Ready)
include h

theorem made (count : Nat) : (m.made count).Ready :=
  ⟨⟨h.founded.exists_, h.founded.ordered⟩, ⟨h.prelude.1, h.prelude.2, h.prelude.3, h.prelude.4, h.prelude.5⟩,
    h.procedures⟩

theorem called (parameter : String) (operands : List Value) : (m.called parameter operands).Ready where
  founded := h.founded.called parameter operands
  prelude := ⟨h.prelude.1, h.prelude.2, h.prelude.3, h.prelude.4, h.prelude.5⟩
  procedures := by
    have kept (key : Key) : (m.called parameter operands).frames.lookup? root key = m.frames.lookup? root key :=
      h.founded.ordered.lookup?_new_of_lt _ h.founded.exists_ h.founded.exists_ key
    have l := h.procedures
    exact ⟨(kept _).trans l.isEmpty, (kept _).trans l.equal, (kept _).trans l.length, (kept _).trans l.car,
      (kept _).trans l.cdr, (kept _).trans l.cons, (kept _).trans l.append⟩

end Machine.Ready

/-- What the application of a transformer leaves behind: a frame for the operands, and some lists. -/
def Run.used (parameter : String) (operands : List Value) (count : Nat) : Run Unit :=
  modify fun m => (m.called parameter operands).made count

/-- Lists that are made on the way. -/
def Run.spent (count : Nat) : Run Unit :=
  modify fun m => m.made count

/-- What does not depend on limits may be put before what does. -/
theorem Machine.UseGives.settles_iff {t : Value} {name parameter : String} {es : List Value}
    {P : Value → Prop} {count : Nat} (gives : m.UseGives t parameter es P count)
    (found : m.transformers.get? (.name name) = some t) (noKeyword : Keyword.ofHead? (.symbol name) = none)
    {k : Limited Value}
    (goes : ∀ v, P v → ∀ o, Settles (fun fuel room => expand fuel room v false)
      ((m.called parameter es).made count) o ↔ Settles k ((m.called parameter es).made count) o) :
    Settles (fun fuel room => expand fuel room (.list i (.symbol name :: es)) toplevel) m o ↔
      Settles (fun fuel room => used parameter es count >>= fun _ => k fuel room) m o := by
  obtain ⟨v, hv, made⟩ := gives
  exact (settles_expand_use_iff noKeyword found made).trans (goes v hv o)

/-! ## The expansion of `let` -/

/-- Expands the forms of a sequence. -/
def sequenceParts : List Value → Limited (List Value × Value)
  | [] => fun _ _ => return ([], .unspecified)
  | e :: es => fun fuel room => do
    let cs ← expandEach (e :: es) false fuel room
    return (cs, ← newList (.symbol "begin" :: cs))

/-- Expands the forms of a body; a single form is no sequence. -/
def bodyParts : List Value → Limited (List Value × Value)
  | [e] => fun fuel room => do
    let c ← expand fuel room e false
    return ([c], c)
  | es => fun fuel room => do
    spent 1
    sequenceParts es fuel room

/-- Expands the body of `let` and then what its names are bound to. -/
def bindingParts (names xs body : List Value) : Limited (List Value × List Value × Value) :=
  fun fuel room => do
    let names ← newList names
    spent 2
    let (cs, body) ← bodyParts body fuel room
    let closure ← newList [.symbol "lambda", names, body]
    let xs ← expandEach xs false fuel room
    return (xs, cs, ← newList (closure :: xs))

theorem improving_sequenceParts (es : List Value) : Improving (sequenceParts es) := by
  cases es with
  | nil => exact Improving.plain _
  | cons e es => exact Improving.andThen (improving_expandEach _ _) _

/-- A sequence is expanded form by form. -/
theorem settles_expand_sequenceParts_iff {es : List Value} :
    Settles (fun fuel room => expand fuel room (.list i (.symbol "begin" :: es)) false) m o ↔
      Settles (fun fuel room => Prod.snd <$> sequenceParts es fuel room) m o := by
  cases es with
  | nil =>
    rw [← Settles.succ_iff (improving_expand _ _)]
    exact Iff.rfl
  | cons e es =>
    simp only [sequenceParts, map_bind, map_pure, bind_pure]
    exact settles_expand_sequence_iff

theorem settles_sequence_bind_iff {es : List Value} {k : Value → Limited Value}
    (improving : ∀ v, Improving (k v)) :
    Settles (fun fuel room => expand fuel room (.list i (.symbol "begin" :: es)) false >>= fun core =>
        k core fuel room) m o ↔
      Settles (fun fuel room => sequenceParts es fuel room >>= fun p => k p.2 fuel room) m o := by
  have parts : Improving fun fuel room => Prod.snd <$> sequenceParts es fuel room := by
    simp only [map_eq_pure_bind]
    exact Improving.andThen (improving_sequenceParts es) _
  refine (Settles.bind_same (improving_expand _ _) parts improving improving
    (fun _ => settles_expand_sequenceParts_iff) fun _ _ _ => Iff.rfl).trans ?_
  simp only [map_eq_pure_bind, bind_assoc, pure_bind]

theorem settles_body_iff {e : Value} {es : List Value} {k : Value → Limited Value}
    (improving : ∀ v, Improving (k v)) :
    Settles (fun fuel room => Form.body (e :: es) >>= fun body => expand fuel room body false >>= fun core =>
        k core fuel room) m o ↔
      Settles (fun fuel room => bodyParts (e :: es) fuel room >>= fun p => k p.2 fuel room) m o := by
  cases es with
  | nil =>
    simp only [bodyParts, bind_assoc, pure_bind]
    exact Iff.rfl
  | cons e' es =>
    simp only [bodyParts, bind_assoc]
    exact settles_sequence_bind_iff (m := m.made 1) improving

section Binding

variable {bindings e : Value} {es : List Value} {pairs : List (Value × Value)}

/-- A use of `let` is expanded body first. -/
theorem settles_expand_let_iff (prelude : m.HasPrelude) (bound : Form.letBindings? bindings = some pairs)
    (parameters : (pairs.map (·.1)).all Form.isParameter = true) :
    Settles (fun fuel room => expand fuel room (.list i (.symbol "let" :: bindings :: e :: es)) toplevel) m o ↔
      Settles (fun fuel room => (fun p => p.2.2) <$>
        bindingParts (pairs.map (·.1)) (pairs.map (·.2)) (e :: es) fuel room) m o := by
  have found : m.transformerOf? (.symbol "let") = some (.primitive .expandLet) :=
    Value.eq_some_of_same_builtin rfl prelude.binding
  have made : Settles (fun fuel room => apply fuel room (.primitive .expandLet) (bindings :: e :: es) Machine.root)
      m (.ok (.list (m.nextObject + 2) (.list (m.nextObject + 1) (.symbol "lambda" ::
        .list m.nextObject (pairs.map (·.1)) :: e :: es) :: pairs.map (·.2))), m.made 3) := by
    refine ⟨1, 0, ?_, not_stopped_ok⟩
    change outcome (Form.expandLet 0 (bindings :: e :: es)) m = _
    unfold Form.expandLet
    dsimp only
    rw [bound]
    rfl
  refine (settles_expand_use_iff rfl found made).trans ?_
  refine (settles_expand_application_iff rfl rfl).trans ?_
  refine settles_expandEach_cons_iff.trans ?_
  have rest (c : Value) : Improving fun fuel room =>
      expandEach (pairs.map (·.2)) false fuel room >>= fun cs => newList (c :: cs) :=
    Improving.andThen (improving_expandEach _ _) _
  have inside (names : Value) (parameters : Form.areParameters names = true) (n : Machine) (j : Nat) :
      Settles (fun fuel room => expand fuel room (.list j (.symbol "lambda" :: names :: e :: es)) false >>=
        fun c => expandEach (pairs.map (·.2)) false fuel room >>= fun cs => newList (c :: cs)) n o ↔
      Settles (fun fuel room => bodyParts (e :: es) fuel room >>= fun p =>
        newList [.symbol "lambda", names, p.2] >>= fun c =>
        expandEach (pairs.map (·.2)) false fuel room >>= fun cs => newList (c :: cs)) n o := by
    have improving : Improving fun fuel room => Form.body (e :: es) >>= fun body =>
        expand fuel room body false >>= fun core => newList [.symbol "lambda", names, core] :=
      Improving.bind (Improving.plain _) fun body => Improving.andThen (improving_expand body false) _
    refine (Settles.bind_same (improving_expand _ _) improving rest rest
      (fun _ => settles_expand_lambda_iff parameters) fun _ _ _ => Iff.rfl).trans ?_
    have follows (core : Value) : Improving fun fuel room => newList [.symbol "lambda", names, core] >>=
        fun c => expandEach (pairs.map (·.2)) false fuel room >>= fun cs => newList (c :: cs) :=
      Improving.bind (Improving.plain (newList [.symbol "lambda", names, core])) rest
    simp only [bind_assoc]
    exact settles_body_iff follows
  have names : Form.areParameters (.list m.nextObject (pairs.map (·.1))) = true := parameters
  refine (inside _ names (m.made 3) (m.nextObject + 1)).trans ?_
  unfold bindingParts
  simp only [map_bind, map_pure, bind_pure]
  exact Iff.rfl

end Binding

/-! ## The expansion of the forms of the prelude -/

/-- What is no list is its own expansion. -/
theorem settles_expand_atom {v : Value} (notList : ∀ i items, v ≠ .list i items) :
    Settles (fun fuel room => expand fuel room v toplevel) m (.ok v, m) := by
  cases v with
  | list i items => exact absurd rfl (notList i items)
  | _ => exact ⟨1, 0, rfl, not_stopped_ok⟩

theorem settles_expandEach_atom_iff {v : Value} {es : List Value} {k : List Value → Run Value}
    (notList : ∀ i items, v ≠ .list i items) :
    Settles (fun fuel room => expandEach (v :: es) toplevel fuel room >>= k) m o ↔
      Settles (fun fuel room => expandEach es toplevel fuel room >>= fun cs => k (v :: cs)) m o := by
  refine settles_expandEach_cons_iff.trans ?_
  exact Settles.bind_iff (improving_expand _ _)
    (Improving.andThen (improving_expandEach es toplevel) fun cs => k (v :: cs)) (settles_expand_atom notList)

/-- Expands a test and a body that is to be evaluated or not. -/
def guardedParts (count : Nat) (test : Value → Run Value) (t : Value) (es : List Value) :
    Limited (Value × List Value × Value) := fun fuel room => do
  used "form" (t :: es) count
  let c ← expand fuel room t false
  let test ← test c
  let (cs, body) ← sequenceParts es fuel room
  return (c, cs, ← newList [.symbol "if", test, body, .unspecified])

def onTrueParts : Value → List Value → Limited (Value × List Value × Value) :=
  guardedParts 6 pure

def onFalseParts : Value → List Value → Limited (Value × List Value × Value) :=
  guardedParts 8 fun c => newList [.symbol "not", c]

/-- The operands are expanded from left to right. -/
def conjunctionParts : List Value → Limited (List Value × Value)
  | [] => fun _ _ => do
    used "args" [] 0
    return ([], .bool true)
  | [e] => fun fuel room => do
    used "args" [e] 0
    let c ← expand fuel room e false
    return ([c], c)
  | e :: e' :: es => fun fuel room => do
    used "args" (e :: e' :: es) 7
    let c ← expand fuel room e false
    let (cs, rest) ← conjunctionParts (e' :: es) fuel room
    return (c :: cs, ← newList [.symbol "if", c, rest, .bool false])

/-- The last operand is expanded first. -/
def disjunctionParts : List Value → Limited (List Value × Value)
  | [] => fun _ _ => do
    used "args" [] 0
    return ([], .bool false)
  | [e] => fun fuel room => do
    used "args" [e] 0
    let c ← expand fuel room e false
    return ([c], c)
  | e :: e' :: es => fun fuel room => do
    used "args" (e :: e' :: es) 13
    let names ← newList [.symbol "or-value"]
    spent 2
    let (cs, rest) ← disjunctionParts (e' :: es) fuel room
    let test ← newList [.symbol "if", .symbol "or-value", .symbol "or-value", rest]
    let closure ← newList [.symbol "lambda", names, test]
    let c ← expand fuel room e false
    return (c :: cs, ← newList [closure, c])

/-- Wherever the rest of a conjunction is expanded, the prelude is in force. -/
def Machine.StaysReady : List Value → Machine → Prop
  | e :: e' :: es, m => m.Ready ∧ ∀ c n,
    Settles (fun fuel room => expand fuel room e false) ((m.called "args" (e :: e' :: es)).made 7)
      (.ok c, n) → StaysReady (e' :: es) n
  | _, m => m.Ready

theorem exists_transformer {name parameter : String} {code : Datum}
    (h : (m.transformers.get? (.name name)).any (Value.isTransformer parameter code) = true) :
    ∃ t, m.transformers.get? (.name name) = some t ∧ t.isTransformer parameter code = true := by
  cases found : m.transformers.get? (.name name) with
  | none =>
    rw [found] at h
    cases h
  | some t =>
    rw [found] at h
    exact ⟨t, rfl, h⟩

open Value (Lists ListsEach)

section Guarded

variable {name : String} {t u : Value} {es : List Value} {count : Nat} {P : Value → Prop}
  {test : Value → Run Value}

/-- A use that becomes a test, with a sequence for what is to be evaluated. -/
theorem settles_expand_guarded_iff (found : m.transformers.get? (.name name) = some u)
    (noKeyword : Keyword.ofHead? (.symbol name) = none)
    (gives : m.UseGives u "form" (t :: es)
      (ListsEach [(· = .symbol "if"), P, Lists (.symbol "begin" :: es)]) count)
    (tests : ∀ v, P v → ∀ o,
      Settles (fun fuel room => expand fuel room v false) ((m.called "form" (t :: es)).made count) o ↔
        Settles (fun fuel room => expand fuel room t false >>= test) ((m.called "form" (t :: es)).made count) o) :
    Settles (fun fuel room => expand fuel room (.list i (.symbol name :: t :: es)) toplevel) m o ↔
      Settles (fun fuel room => (fun p => p.2.2) <$> guardedParts count test t es fuel room) m o := by
  have rest (c : Value) : Improving fun fuel room => sequenceParts es fuel room >>= fun p =>
      newList [.symbol "if", c, p.2, .unspecified] :=
    Improving.andThen (improving_sequenceParts es) _
  refine (gives.settles_iff found noKeyword (k := fun fuel room => expand fuel room t false >>= fun c =>
    test c >>= fun c => sequenceParts es fuel room >>= fun p => newList [.symbol "if", c, p.2, .unspecified])
    ?_).trans ?_
  · rintro _ ⟨j, _, rfl, shape⟩ o
    obtain _ | ⟨rfl, _ | ⟨hv, _ | ⟨⟨k, rfl⟩, _ | _⟩⟩⟩ := shape
    refine (settles_expand_test_iff (Or.inr ⟨rfl, rfl⟩)).trans ?_
    refine settles_expandEach_cons_iff.trans ?_
    have tested : Improving fun fuel room => expand fuel room t false >>= test :=
      Improving.andThen (improving_expand t false) test
    have later (c : Value) : Improving fun fuel room =>
        expandEach [.list k (.symbol "begin" :: es), .unspecified] false fuel room >>= fun cs =>
          newList (.symbol "if" :: c :: cs) :=
      Improving.andThen (improving_expandEach _ _) _
    refine (Settles.bind_same (improving_expand _ _) tested later rest (tests _ hv) fun c n _ => ?_).trans ?_
    · have atom (b : Value) : Improving fun fuel room =>
          expandEach [.unspecified] false fuel room >>= fun cs => newList (.symbol "if" :: c :: b :: cs) :=
        Improving.andThen (improving_expandEach _ _) _
      refine settles_expandEach_cons_iff.trans ((settles_sequence_bind_iff atom).trans ?_)
      refine Settles.bind_same (improving_sequenceParts es) (improving_sequenceParts es) (fun p => atom p.2)
        (fun p => Improving.plain _) (fun _ => Iff.rfl) fun p n _ => ?_
      exact settles_expandEach_atom_iff (by simp)
    · simp only [bind_assoc]
  · unfold guardedParts
    simp only [map_bind, map_pure, bind_pure]

variable (ready : m.Ready) (form : t.isEscape = false)
include ready form

theorem settles_expand_when_iff :
    Settles (fun fuel room => expand fuel room (.list i (.symbol "when" :: t :: es)) toplevel) m o ↔
      Settles (fun fuel room => (fun p => p.2.2) <$> onTrueParts t es fuel room) m o := by
  obtain ⟨u, found, written⟩ := exists_transformer ready.prelude.onTrue
  refine settles_expand_guarded_iff found rfl
    (useGives_onTrue ready.founded ready.procedures form written) ?_
  rintro _ rfl o
  simp only [bind_pure]

theorem settles_expand_unless_iff (noMacro : m.transformers.get? (.name "not") = none) :
    Settles (fun fuel room => expand fuel room (.list i (.symbol "unless" :: t :: es)) toplevel) m o ↔
      Settles (fun fuel room => (fun p => p.2.2) <$> onFalseParts t es fuel room) m o := by
  obtain ⟨u, found, written⟩ := exists_transformer ready.prelude.onFalse
  have missing : ((m.called "form" (t :: es)).made 8).transformerOf? (.symbol "not") = none := noMacro
  refine settles_expand_guarded_iff found rfl
    (useGives_onFalse ready.founded ready.procedures form written) ?_
  rintro _ ⟨j, _, rfl, shape⟩ o
  obtain _ | ⟨rfl, _ | ⟨rfl, _ | _⟩⟩ := shape
  refine (settles_expand_application_iff rfl missing).trans ?_
  refine settles_expandEach_symbol_iff.trans (settles_expandEach_cons_iff.trans ?_)
  exact Iff.rfl

end Guarded

/-- Operands are forms, not escapes. -/
def AreForms (es : List Value) : Prop :=
  ∀ e ∈ es, e.isEscape = false

section Clauses

variable {e e' : Value} {es : List Value}

theorem Machine.StaysReady.ready (h : m.StaysReady es) : m.Ready := by
  rcases es with _ | ⟨e, _ | ⟨e', es⟩⟩
  · exact h
  · exact h
  · exact h.1

theorem improving_conjunctionParts (es : List Value) : Improving (conjunctionParts es) := by
  induction es using conjunctionParts.induct with
  | case1 => exact Improving.plain _
  | case2 e => exact fun hf hr => .bind (.refl _) fun _ => .bind (improving_expand e false hf hr) fun c => .refl _
  | case3 e e' es ih =>
    intro fuel fuel' room room' hf hr
    refine .bind (.refl _) fun _ => .bind (improving_expand e false hf hr) fun c => ?_
    exact .bind (ih hf hr) fun p => .refl _

theorem improving_disjunctionParts (es : List Value) : Improving (disjunctionParts es) := by
  induction es using disjunctionParts.induct with
  | case1 => exact Improving.plain _
  | case2 e => exact fun hf hr => .bind (.refl _) fun _ => .bind (improving_expand e false hf hr) fun c => .refl _
  | case3 e e' es ih =>
    intro fuel fuel' room room' hf hr
    refine .bind (.refl _) fun _ => .bind (.refl _) fun names => .bind (.refl _) fun _ => ?_
    refine .bind (ih hf hr) fun p => .bind (.refl _) fun test => .bind (.refl _) fun closure => ?_
    exact .bind (improving_expand e false hf hr) fun c => .refl _

section Short

variable {name : String} {empty longer : Datum} {b : Bool} (ready : m.Ready)
  (noKeyword : Keyword.ofHead? (.symbol name) = none)
include ready noKeyword

theorem settles_expand_none_iff
    (registered : (m.transformers.get? (.name name)).any
      (Value.isTransformer "args" (.byLength (.bool b) longer)) = true) :
    Settles (fun fuel room => expand fuel room (.list i [.symbol name]) toplevel) m o ↔
      Settles (fun _ _ => used "args" [] 0 >>= fun _ => pure (.bool b)) m o := by
  obtain ⟨u, found, written⟩ := exists_transformer registered
  refine (useGives_none ready.founded ready.procedures written).settles_iff found noKeyword
    (k := fun _ _ => pure (.bool b)) ?_
  rintro _ rfl o
  exact ((settles_expand_atom (by simp)).iff_eq (improving_expand _ _)).trans settles_pure_iff.symm

theorem settles_expand_one_iff
    (registered : (m.transformers.get? (.name name)).any
      (Value.isTransformer "args" (.byLength empty longer)) = true) :
    Settles (fun fuel room => expand fuel room (.list i [.symbol name, e]) toplevel) m o ↔
      Settles (fun fuel room => used "args" [e] 0 >>= fun _ => expand fuel room e false) m o := by
  obtain ⟨u, found, written⟩ := exists_transformer registered
  refine (useGives_one ready.founded ready.procedures written).settles_iff found noKeyword
    (k := fun fuel room => expand fuel room e false) ?_
  rintro _ rfl o
  exact Iff.rfl

end Short

/-- A use of `and` is expanded operand by operand. -/
theorem settles_expand_conjunction_iff (ready : m.StaysReady es) (forms : AreForms es) :
    Settles (fun fuel room => expand fuel room (.list i (.symbol "and" :: es)) toplevel) m o ↔
      Settles (fun fuel room => Prod.snd <$> conjunctionParts es fuel room) m o := by
  induction es using conjunctionParts.induct generalizing m i toplevel o with
  | case1 =>
    simp only [conjunctionParts, map_bind, map_pure]
    exact settles_expand_none_iff ready rfl ready.ready.prelude.conjunction
  | case2 e =>
    simp only [conjunctionParts, map_bind, map_pure, bind_pure]
    exact settles_expand_one_iff ready rfl ready.ready.prelude.conjunction
  | case3 e e' es ih =>
    obtain ⟨ready, stays⟩ := ready
    obtain ⟨u, found, written⟩ := exists_transformer ready.prelude.conjunction
    have gives : m.UseGives u "args" (e :: e' :: es) (ListsEach [(· = .symbol "if"), (· = e),
        Lists (.symbol "and" :: e' :: es), (· = .bool false)]) 7 :=
      useGives_conjunction ready.founded ready.procedures (forms e (by simp)) written
    have rest (c : Value) : Improving fun fuel room => conjunctionParts (e' :: es) fuel room >>= fun p =>
        newList [.symbol "if", c, p.2, .bool false] :=
      Improving.andThen (improving_conjunctionParts _) _
    refine (gives.settles_iff found rfl (k := fun fuel room => expand fuel room e false >>= fun c =>
      conjunctionParts (e' :: es) fuel room >>= fun p => newList [.symbol "if", c, p.2, .bool false]) ?_).trans ?_
    · rintro _ ⟨j, _, rfl, shape⟩ o
      obtain _ | ⟨rfl, _ | ⟨rfl, _ | ⟨⟨k, rfl⟩, _ | ⟨rfl, _ | _⟩⟩⟩⟩ := shape
      refine (settles_expand_test_iff (Or.inl rfl)).trans (settles_expandEach_cons_iff.trans ?_)
      have later (es : List Value) (c : Value) : Improving fun fuel room =>
          expandEach es false fuel room >>= fun cs => newList (.symbol "if" :: c :: cs) :=
        Improving.andThen (improving_expandEach es false) _
      refine Settles.bind_same (improving_expand _ _) (improving_expand _ _) (later _) rest
        (fun _ => Iff.rfl) fun c n done => ?_
      refine settles_expandEach_cons_iff.trans ?_
      have last (r : Value) : Improving fun fuel room =>
          expandEach [.bool false] false fuel room >>= fun cs => newList (.symbol "if" :: c :: r :: cs) :=
        Improving.andThen (improving_expandEach _ _) _
      have parts : Improving fun fuel room => Prod.snd <$> conjunctionParts (e' :: es) fuel room := by
        simp only [map_eq_pure_bind]
        exact Improving.andThen (improving_conjunctionParts _) _
      refine (Settles.bind_same (improving_expand _ _) parts last
        (fun r => Improving.plain (newList [.symbol "if", c, r, .bool false]))
        (fun _ => ih (stays c n done) fun e mem => forms e (by simp [mem])) fun r n _ =>
          settles_expandEach_atom_iff (v := .bool false) nofun).trans ?_
      simp only [map_eq_pure_bind, bind_assoc, pure_bind]
    · simp only [conjunctionParts, map_bind, map_pure, bind_pure]

/-- A use of `or` is expanded from the last operand to the first. -/
theorem settles_expand_disjunction_iff (ready : m.Ready) (forms : AreForms es) :
    Settles (fun fuel room => expand fuel room (.list i (.symbol "or" :: es)) toplevel) m o ↔
      Settles (fun fuel room => Prod.snd <$> disjunctionParts es fuel room) m o := by
  induction es using disjunctionParts.induct generalizing m i toplevel o with
  | case1 =>
    simp only [disjunctionParts, map_bind, map_pure]
    exact settles_expand_none_iff ready rfl ready.prelude.disjunction
  | case2 e =>
    simp only [disjunctionParts, map_bind, map_pure, bind_pure]
    exact settles_expand_one_iff ready rfl ready.prelude.disjunction
  | case3 e e' es ih =>
    obtain ⟨u, found, written⟩ := exists_transformer ready.prelude.disjunction
    have gives : m.UseGives u "args" (e :: e' :: es) (ListsEach [(· = .symbol "let"),
        ListsEach [ListsEach [(· = .symbol "or-value"), (· = e)]],
        ListsEach [(· = .symbol "if"), (· = .symbol "or-value"), (· = .symbol "or-value"),
          Lists (.symbol "or" :: e' :: es)]]) 13 :=
      useGives_disjunction ready.founded ready.procedures (forms e (by simp)) written
    refine (gives.settles_iff found rfl (k := fun fuel room => do
      let names ← newList [.symbol "or-value"]
      spent 2
      let p ← disjunctionParts (e' :: es) fuel room
      let test ← newList [.symbol "if", .symbol "or-value", .symbol "or-value", p.2]
      let closure ← newList [.symbol "lambda", names, test]
      let c ← expand fuel room e false
      newList [closure, c]) ?_).trans ?_
    · rintro _ ⟨j, _, rfl, shape⟩ o
      obtain _ | ⟨rfl, _ | ⟨⟨a, _, rfl, bindings⟩, _ | ⟨⟨c, _, rfl, test⟩, _ | _⟩⟩⟩ := shape
      obtain _ | ⟨⟨b, _, rfl, binding⟩, _ | _⟩ := bindings
      obtain _ | ⟨rfl, _ | ⟨same, _ | _⟩⟩ := binding
      obtain rfl := Eq.symm same
      obtain _ | ⟨rfl, _ | ⟨rfl, _ | ⟨rfl, _ | ⟨⟨d, rfl⟩, _ | _⟩⟩⟩⟩ := test
      have ready := (ready.called "args" (e :: e' :: es)).made 13
      refine (settles_expand_let_iff ready.prelude rfl rfl).trans ?_
      have tests (o : Outcome Value) {n : Machine} (ready : n.Ready) :
          Settles (fun fuel room => expand fuel room (.list c [.symbol "if", .symbol "or-value",
            .symbol "or-value", .list d (.symbol "or" :: e' :: es)]) false) n o ↔
          Settles (fun fuel room => disjunctionParts (e' :: es) fuel room >>= fun p =>
            newList [.symbol "if", .symbol "or-value", .symbol "or-value", p.2]) n o := by
        have parts : Improving fun fuel room => Prod.snd <$> disjunctionParts (e' :: es) fuel room := by
          simp only [map_eq_pure_bind]
          exact Improving.andThen (improving_disjunctionParts _) _
        refine (settles_expand_test_iff (Or.inl rfl)).trans (settles_expandEach_symbol_iff.trans ?_)
        refine settles_expandEach_symbol_iff.trans (settles_expandEach_cons_iff.trans ?_)
        refine (Settles.bind_congr (k := fun c => newList [.symbol "if", .symbol "or-value", .symbol "or-value", c])
          fun o => ih ready fun e mem => forms e (by simp [mem])).trans ?_
        simp only [map_eq_pure_bind, bind_assoc, pure_bind]
      simp only [bindingParts, bodyParts, map_bind, map_pure, bind_pure, bind_assoc, pure_bind]
      have first (names test : Value) : Improving fun fuel room => newList [.symbol "lambda", names, test] >>=
          fun closure => expandEach [e] false fuel room >>= fun xs => newList (closure :: xs) :=
        fun hf hr => .bind (.refl _) fun _ => .bind (improving_expandEach [e] false hf hr) fun _ => .refl _
      have rest (names test : Value) : Improving fun fuel room => newList [.symbol "lambda", names, test] >>=
          fun closure => expand fuel room e false >>= fun c => newList [closure, c] :=
        fun hf hr => .bind (.refl _) fun _ => .bind (improving_expand e false hf hr) fun _ => .refl _
      have test : Improving fun fuel room => disjunctionParts (e' :: es) fuel room >>= fun p =>
          newList [.symbol "if", .symbol "or-value", .symbol "or-value", p.2] :=
        Improving.andThen (improving_disjunctionParts _) _
      have inside (names : Value) {n : Machine} (ready : n.Ready) :=
        Settles.bind_same (o := o) (improving_expand _ _) test (first names) (rest names) (fun o => tests o ready)
          fun test n _ => by
            simp only [expandEach, List.mapM_cons, List.mapM_nil, bind_assoc, pure_bind]
      simp only [bind_assoc] at inside
      exact inside _ ((ready.made 1).made 2)
    · simp only [disjunctionParts, map_bind, map_pure, bind_pure]

end Clauses

end SmallLisp
