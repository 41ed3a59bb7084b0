import SmallLisp.Proofs.Respect
/-!
# What an expansion does

A form is expanded in one of fourteen ways. The relation below has one case for each, with the state before
and after it, and holds just when the expander gives a core form.
-/
namespace SmallLisp

open Run

/-- A computation gives a value and leaves a state. -/
abbrev Run.Ends {α : Type} (a : Run α) (m : Machine) (x : α) (n : Machine) : Prop :=
  outcome a m = (.ok x, n)

/-- The state after `count` more objects. -/
def Machine.made (m : Machine) (count : Nat) : Machine :=
  { m with nextObject := m.nextObject + count }

theorem Value.eq_of_isSymbol {name : String} {v : Value} (h : v.isSymbol name = true) :
    v = .symbol name := by
  unfold isSymbol at h
  split at h
  · rw [beq_iff_eq.mp h]
  · cases h

@[simp] theorem Machine.made_made (m : Machine) (count count' : Nat) :
    (m.made count).made count' = m.made (count + count') := by
  simp [made, Nat.add_assoc]

/-- The transformer that the head of a form names. -/
def Machine.transformerOf? (m : Machine) : Value → Option Value
  | .symbol name => m.transformers.get? (.name name)
  | _ => none

/-- Expands a part of a form, one level deeper. -/
def Calls.expandPart (c : Calls) (room : Nat) (toplevel : Bool) (e : Value) : Run Value :=
  deeper room fun room => c.expand room e toplevel

/-- The definition that a definition with a list target stands for. -/
def Form.plainDefinition (next : Nat) (head name : Value) (ps body : List Value) : Value :=
  .list (next + 2) [head, name,
    .list (next + 1) (CoreKeyword.lambda.symbol :: .list next ps :: body)]

inductive Expansion (c : Calls) (room : Nat) : Bool → Value → Machine → Value → Machine → Prop
  | atom {toplevel v m} : (∀ i items, v ≠ .list i items) → Expansion c room toplevel v m v m
  | quote {toplevel i d m} : Expansion c room toplevel (.list i [.symbol "quote", d]) m
      (.list i [.symbol "quote", d]) m
  | shortTest {toplevel i t e cs m n} :
      ([.symbol "if", t, e, .unspecified].mapM (c.expandPart room false)).Ends m cs n →
      Expansion c room toplevel (.list i [.symbol "if", t, e]) m (.list n.nextObject cs) (n.made 1)
  | test {toplevel i t e e' cs m n} :
      ([.symbol "if", t, e, e'].mapM (c.expandPart room false)).Ends m cs n →
      Expansion c room toplevel (.list i [.symbol "if", t, e, e']) m (.list n.nextObject cs)
        (n.made 1)
  | assign {toplevel i target e core m n} : target.hasKind .symbol = true →
      (c.expandPart room false e).Ends m core n →
      Expansion c room toplevel (.list i [.symbol "set!", target, e]) m
        (.list n.nextObject [.symbol "set!", target, core]) (n.made 1)
  | define {toplevel i name e core m n} : (c.expandPart room false e).Ends m core n →
      Expansion c room toplevel (.list i [.symbol "define", .symbol name, e]) m
        (.list n.nextObject [.symbol "define", .symbol name, core]) (n.made 1)
  | curried {toplevel i j keyword name ps e es core m n} :
      keyword = "define" ∨ keyword = "define-macro" →
      (c.expandPart room toplevel
        (Form.plainDefinition m.nextObject (.symbol keyword) name ps (e :: es))).Ends (m.made 3)
        core n →
      Expansion c room toplevel (.list i (.symbol keyword :: .list j (name :: ps) :: e :: es)) m
        core n
  | transformer {i name e core t m n l} : (c.expandPart room false e).Ends m core n →
      (deeper room fun room => c.evaluate room core Machine.root).Ends n t l →
      t.isProcedure = true →
      Expansion c room true (.list i [.symbol "define-macro", .symbol name, e]) m .unspecified
        { l with transformers := l.transformers.put (.ofName name t) }
  | emptySequence {toplevel i m} :
      Expansion c room toplevel (.list i [.symbol "begin"]) m .unspecified m
  | sequence {toplevel i e es cs m n} :
      ((.symbol "begin" :: e :: es).mapM (c.expandPart room toplevel)).Ends m cs n →
      Expansion c room toplevel (.list i (.symbol "begin" :: e :: es)) m (.list n.nextObject cs)
        (n.made 1)
  | lambda {toplevel i ps e es body core m n l} : Form.areParameters ps = true →
      (Form.body (e :: es)).Ends m body n → (c.expandPart room false body).Ends n core l →
      Expansion c room toplevel (.list i (.symbol "lambda" :: ps :: e :: es)) m
        (.list l.nextObject [.symbol "lambda", ps, core]) (l.made 1)
  | template {toplevel i t e core m n l} : (Form.ofTemplate room t).Ends m e n →
      (c.expandPart room false e).Ends n core l →
      Expansion c room toplevel (.list i [.symbol "quasiquote", t]) m core l
  | use {toplevel i head rest t e core m n l} : Keyword.ofHead? head = none →
      m.transformerOf? head = some t →
      (deeper room fun room => c.apply room t rest Machine.root).Ends m e n →
      (c.expandPart room false e).Ends n core l →
      Expansion c room toplevel (.list i (head :: rest)) m core l
  | application {toplevel i head rest cs m n} : Keyword.ofHead? head = none →
      m.transformerOf? head = none →
      ((head :: rest).mapM (c.expandPart room false)).Ends m cs n →
      Expansion c room toplevel (.list i (head :: rest)) m (.list n.nextObject cs) (n.made 1)

namespace Keyword

def name : Keyword → String
  | core k => k.name
  | defineTransformer => "define-macro"
  | template => "quasiquote"

theorem eq_of_ofHead? {head : Value} {k : Keyword} (h : ofHead? head = some k) :
    head = .symbol k.name := by
  unfold ofHead? at h
  split at h
  · rename_i s
    unfold ofName? at h
    split at h
    · cases h
      simp_all [name]
    · split at h
      · cases h
        simp_all [name]
      · obtain ⟨k, found, rfl⟩ := Option.map_eq_some_iff.mp h
        have := List.find?_some found
        simp_all [name]
  · cases h

end Keyword

namespace Run

variable {α β : Type} {m n : Machine}

theorem ends_pure {x y : α} : (pure x : Run α).Ends m y n ↔ y = x ∧ n = m := by
  unfold Ends
  simp [eq_comm]

theorem not_ends_fail {f : Failure} {x : α} : ¬ (fail f : Run α).Ends m x n := by
  rintro ⟨⟩

theorem ends_newList {items : List Value} {v : Value} :
    (newList items).Ends m v n ↔ v = .list m.nextObject items ∧ n = m.made 1 := by
  unfold Ends
  simp [Machine.made, eq_comm]

theorem not_ends_refuse {room : Nat} {form : Value} {fault : FormFault} {x : α} :
    ¬ (Form.refuse room form fault : Run α).Ends m x n := by
  intro h
  obtain ⟨_, _, _, h⟩ := outcome_bind_ok.mp h
  exact not_ends_fail h

/-- What is required holds when the rest goes on. -/
theorem ends_require {room : Nat} {form : Value} {fault : FormFault} {ok : Bool}
    {k : Unit → Run α} {x : α} :
    (Form.require room form fault ok >>= k).Ends m x n ↔ ok = true ∧ (k ⟨⟩).Ends m x n := by
  cases ok with
  | true =>
    simp only [true_and]
    exact Iff.rfl
  | false =>
    simp only [Bool.false_eq_true, false_and, iff_false]
    intro h
    obtain ⟨_, _, refused, _⟩ := outcome_bind_ok.mp h
    exact not_ends_refuse refused

theorem ends_mapM_nil {f : α → Run β} {ys : List β} :
    (([] : List α).mapM f).Ends m ys n ↔ ys = [] ∧ n = m :=
  ends_pure

theorem ends_mapM_cons {f : α → Run β} {x : α} {xs : List α} {ys : List β} :
    ((x :: xs).mapM f).Ends m ys n ↔
      ∃ y l ys', (f x).Ends m y l ∧ (xs.mapM f).Ends l ys' n ∧ ys = y :: ys' := by
  rw [List.mapM_cons]
  constructor
  · intro h
    obtain ⟨y, l, first, h⟩ := outcome_bind_ok.mp h
    obtain ⟨ys', l', rest, h⟩ := outcome_bind_ok.mp h
    obtain ⟨rfl, rfl⟩ := ends_pure.mp h
    exact ⟨y, l, ys', first, rest, rfl⟩
  · rintro ⟨y, l, ys', first, rest, rfl⟩
    exact outcome_bind_ok.mpr ⟨y, l, first, outcome_bind_ok.mpr ⟨ys', n, rest, rfl⟩⟩

theorem length_of_ends_mapM {f : α → Run β} {xs : List α} {ys : List β}
    (h : (xs.mapM f).Ends m ys n) : ys.length = xs.length := by
  induction xs generalizing m ys with
  | nil =>
    obtain ⟨rfl, _⟩ := ends_mapM_nil.mp h
    rfl
  | cons x xs ih =>
    obtain ⟨y, l, ys', _, rest, rfl⟩ := ends_mapM_cons.mp h
    simp [ih rest]

theorem ends_deeper {room : Nat} {go : Nat → Run α} {x : α} :
    (deeper room go).Ends m x n ↔ ∃ r, room = r + 1 ∧ (go r).Ends m x n := by
  cases room with
  | zero => simp [deeper, not_ends_fail]
  | succ room => simp [deeper]

theorem ends_transformer? {head : Value} {found : Option Value} :
    (transformer? head).Ends m found n ↔ found = m.transformerOf? head ∧ n = m := by
  cases head with
  | symbol name =>
    change (pure (m.transformers.get? (.name name)) : Run _).Ends m found n ↔ _
    exact ends_pure
  | _ => exact ends_pure

end Run

namespace Expansion

variable {c : Calls} {room : Nat} {toplevel : Bool} {form core : Value} {m n : Machine}

/-- Every case is what the expander does. -/
theorem ends (h : Expansion c room toplevel form m core n) :
    (c.expansion room form toplevel).Ends m core n := by
  cases h with
  | atom notList =>
    unfold Calls.expansion
    split
    · exact absurd rfl (notList _ _)
    · exact absurd rfl (notList _ _)
    · rfl
  | quote => rfl
  | shortTest run => exact outcome_bind_ok.mpr ⟨_, _, run, rfl⟩
  | test run => exact outcome_bind_ok.mpr ⟨_, _, run, rfl⟩
  | assign kind run =>
    exact ends_require.mpr ⟨kind, outcome_bind_ok.mpr ⟨_, _, run, rfl⟩⟩
  | define run =>
    exact outcome_bind_ok.mpr ⟨_, _, run, rfl⟩
  | curried keyword run =>
    rcases keyword with rfl | rfl
    · exact ends_require.mpr ⟨rfl, run⟩
    · exact ends_require.mpr ⟨rfl, run⟩
  | transformer run evaluated procedure =>
    refine outcome_bind_ok.mpr ⟨_, _, run, ?_⟩
    refine ends_require.mpr ⟨rfl, outcome_bind_ok.mpr ⟨_, _, evaluated, ?_⟩⟩
    exact ends_require.mpr ⟨procedure, rfl⟩
  | emptySequence => rfl
  | sequence run => exact outcome_bind_ok.mpr ⟨_, _, run, rfl⟩
  | lambda parameters body run =>
    refine ends_require.mpr ⟨parameters, outcome_bind_ok.mpr ⟨_, _, body, ?_⟩⟩
    exact outcome_bind_ok.mpr ⟨_, _, run, rfl⟩
  | template built run => exact outcome_bind_ok.mpr ⟨_, _, built, run⟩
  | use noKeyword found applied run =>
    unfold Calls.expansion
    simp only [noKeyword]
    refine outcome_bind_ok.mpr ⟨_, _, ends_transformer?.mpr ⟨found.symm, rfl⟩, ?_⟩
    exact outcome_bind_ok.mpr ⟨_, _, applied, run⟩
  | application noKeyword missing run =>
    unfold Calls.expansion
    simp only [noKeyword]
    refine outcome_bind_ok.mpr ⟨_, _, ends_transformer?.mpr ⟨missing.symm, rfl⟩, ?_⟩
    exact outcome_bind_ok.mpr ⟨_, _, run, rfl⟩

/-- A definition that is expanded is one of three cases. -/
theorem of_definition {i : Nat} {keyword : String} {rest : List Value}
    (hkeyword : keyword = "define" ∨ keyword = "define-macro")
    (h : (c.definition room (.list i (.symbol keyword :: rest)) (.symbol keyword) rest toplevel).Ends
      m core n) :
    Expansion c room toplevel (.list i (.symbol keyword :: rest)) m core n := by
  unfold Calls.definition at h
  dsimp only at h
  split at h
  · exact absurd h not_ends_refuse
  · rename_i j name ps body
    obtain ⟨nonempty, h⟩ := ends_require.mp h
    cases body with
    | nil => cases nonempty
    | cons e es => exact .curried hkeyword h
  · rename_i name e
    obtain ⟨core', l, run, h⟩ := outcome_bind_ok.mp h
    rcases hkeyword with rfl | rfl
    · obtain ⟨rfl, rfl⟩ := ends_newList.mp h
      exact .define run
    · obtain ⟨rfl, rest⟩ := ends_require.mp h
      obtain ⟨t, l', evaluated, rest⟩ := outcome_bind_ok.mp rest
      obtain ⟨procedure, rest⟩ := ends_require.mp rest
      cases rest
      exact .transformer run evaluated procedure
  · exact absurd h not_ends_refuse
  · exact absurd h not_ends_refuse

/-- There are no other cases. -/
theorem of_ends (h : (c.expansion room form toplevel).Ends m core n) :
    Expansion c room toplevel form m core n := by
  unfold Calls.expansion at h
  dsimp only at h
  split at h
  · exact absurd h not_ends_refuse
  · rename_i i head rest
    split at h
    · rename_i keyword
      obtain rfl := Keyword.eq_of_ofHead? keyword
      obtain ⟨length, h⟩ := ends_require.mp h
      obtain ⟨rfl, rfl⟩ := ends_pure.mp h
      obtain ⟨d, rfl⟩ := List.length_eq_one_iff.mp (beq_iff_eq.mp length)
      exact .quote
    · rename_i keyword
      obtain rfl := Keyword.eq_of_ofHead? keyword
      split at h
      · obtain ⟨cs, l, run, h⟩ := outcome_bind_ok.mp h
        obtain ⟨rfl, rfl⟩ := ends_newList.mp h
        exact .shortTest run
      · obtain ⟨cs, l, run, h⟩ := outcome_bind_ok.mp h
        obtain ⟨rfl, rfl⟩ := ends_newList.mp h
        exact .test run
      · exact absurd h not_ends_refuse
    · rename_i keyword
      obtain rfl := Keyword.eq_of_ofHead? keyword
      split at h
      · obtain ⟨kind, h⟩ := ends_require.mp h
        obtain ⟨core', l, run, h⟩ := outcome_bind_ok.mp h
        obtain ⟨rfl, rfl⟩ := ends_newList.mp h
        exact .assign kind run
      · exact absurd h not_ends_refuse
    · rename_i keyword
      obtain rfl := Keyword.eq_of_ofHead? keyword
      exact of_definition (Or.inl rfl) h
    · rename_i keyword
      obtain rfl := Keyword.eq_of_ofHead? keyword
      exact of_definition (Or.inr rfl) h
    · rename_i keyword
      obtain rfl := Keyword.eq_of_ofHead? keyword
      cases rest with
      | nil =>
        obtain ⟨rfl, rfl⟩ := ends_pure.mp h
        exact .emptySequence
      | cons e es =>
        obtain ⟨cs, l, run, h⟩ := outcome_bind_ok.mp h
        obtain ⟨rfl, rfl⟩ := ends_newList.mp h
        exact .sequence run
    · rename_i keyword
      obtain rfl := Keyword.eq_of_ofHead? keyword
      split at h
      · obtain ⟨parameters, h⟩ := ends_require.mp h
        obtain ⟨body, l, built, h⟩ := outcome_bind_ok.mp h
        obtain ⟨core', l', run, h⟩ := outcome_bind_ok.mp h
        obtain ⟨rfl, rfl⟩ := ends_newList.mp h
        exact .lambda parameters built run
      · exact absurd h not_ends_refuse
    · rename_i keyword
      obtain rfl := Keyword.eq_of_ofHead? keyword
      split at h
      · obtain ⟨e, l, built, run⟩ := outcome_bind_ok.mp h
        exact .template built run
      · exact absurd h not_ends_refuse
    · rename_i noKeyword
      obtain ⟨found, l, looked, h⟩ := outcome_bind_ok.mp h
      obtain ⟨rfl, rfl⟩ := ends_transformer?.mp looked
      split at h
      · rename_i t found
        obtain ⟨e, l, applied, run⟩ := outcome_bind_ok.mp h
        exact .use noKeyword found applied run
      · rename_i missing
        obtain ⟨cs, l, run, h⟩ := outcome_bind_ok.mp h
        obtain ⟨rfl, rfl⟩ := ends_newList.mp h
        exact .application noKeyword missing run
  · rename_i notNil notCons
    obtain ⟨rfl, rfl⟩ := ends_pure.mp h
    refine .atom fun i items same => ?_
    cases items with
    | nil => exact notNil i same
    | cons head rest => exact notCons i head rest same

/-- What is no list is its own expansion. -/
theorem of_not_list {v : Value} (notList : ∀ i items, v ≠ .list i items)
    (h : Expansion c room toplevel v m core n) : core = v ∧ n = m := by
  cases h with
  | atom => exact ⟨rfl, rfl⟩
  | _ => exact absurd rfl (notList _ _)

/-- The use of a transformer is expanded as what the transformer makes of it. -/
theorem of_use {i : Nat} {head t : Value} {rest : List Value}
    (h : Expansion c room toplevel (.list i (head :: rest)) m core n) (noKeyword : Keyword.ofHead? head = none)
    (found : m.transformerOf? head = some t) :
    ∃ e l, (deeper room fun room => c.apply room t rest Machine.root).Ends m e l ∧
      (c.expandPart room false e).Ends l core n := by
  cases h with
  | atom notList => exact absurd rfl (notList _ _)
  | use _ found' applied run =>
    cases found.symm.trans found'
    exact ⟨_, _, applied, run⟩
  | application _ missing => cases found.symm.trans missing
  | curried keyword => obtain rfl | rfl := keyword <;> cases noKeyword
  | _ => cases noKeyword

theorem ends_iff :
    (c.expansion room form toplevel).Ends m core n ↔ Expansion c room toplevel form m core n :=
  ⟨of_ends, ends⟩

end Expansion

/-- An expansion with one step more than its parts. -/
theorem expand_succ_ends {fuel room : Nat} {toplevel : Bool} {form core : Value} {m n : Machine} :
    (expand (fuel + 1) room form toplevel).Ends m core n ↔
      Expansion (calls fuel) room toplevel form m core n :=
  Expansion.ends_iff

end SmallLisp
