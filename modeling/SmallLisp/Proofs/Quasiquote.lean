import SmallLisp.Proofs.TemplateFaults
import SmallLisp.Proofs.Templates
/-!
# Expanding a template

A template becomes code, the unquoted parts of the code are expanded from left to right, and the core form
that comes out fills the template. A template with a fault is refused before any part of it is expanded.
-/
namespace SmallLisp

open Run

/-- No transformer has the name of a procedure that makes lists. -/
structure Machine.KeepsListNames (m : Machine) : Prop where
  cons : m.transformers.get? (.name "cons") = none
  append : m.transformers.get? (.name "append") = none

namespace Form

/-- The code that a template becomes. -/
inductive Becomes : Value → Value → Prop
  | atom {v i} : v.hasKind .pair = false → Becomes v (.list i [.symbol "quote", v])
  | unquote {i x} : Becomes (.list i [.symbol "unquote", x]) x
  | splice {i j k l x rest code} : Becomes (.list k rest) code →
      Becomes (.list i (.list j [.symbol "unquote-splicing", x] :: rest))
        (.list l [.symbol "append", x, code])
  | pair {i k l head rest code code'} : IsOrdinary head → Becomes head code →
      Becomes (.list k rest) code' →
      Becomes (.list i (head :: rest)) (.list l [.symbol "cons", code, code'])

theorem becomes_of_ends {room : Nat} {template code : Value} {m n : Machine}
    (h : (ofTemplate room template).Ends m code n) :
    Becomes template code ∧ ∃ k, n = m.made k := by
  induction room generalizing template code m n with
  | zero => exact absurd h not_ends_fail
  | succ room ih =>
    unfold ofTemplate at h
    split at h
    · rename_i i head rest
      obtain ⟨stray, h⟩ := ends_require.mp h
      split at h
      · rename_i unquote
        split at h
        · obtain ⟨rfl, rfl⟩ := ends_pure.mp h
          obtain rfl := Value.eq_of_isSymbol unquote
          exact ⟨.unquote, 0, rfl⟩
        · exact absurd h not_ends_refuse
      · rename_i noUnquote
        split at h
        · rename_i splicing
          split at h
          · rename_i j s x
            obtain rfl := Value.eq_of_isSymbol splicing
            obtain ⟨v, l, made, h⟩ := outcome_bind_ok.mp h
            obtain ⟨rfl, rfl⟩ := ends_newList.mp made
            obtain ⟨after, l, built, h⟩ := outcome_bind_ok.mp h
            obtain ⟨rfl, rfl⟩ := ends_newList.mp h
            obtain ⟨becomes, k, rfl⟩ := ih built
            exact ⟨.splice becomes, 1 + k + 1, by simp⟩
          · exact absurd h not_ends_refuse
        · rename_i noSplicing
          obtain ⟨first, l, built, h⟩ := outcome_bind_ok.mp h
          obtain ⟨v, l', made, h⟩ := outcome_bind_ok.mp h
          obtain ⟨rfl, rfl⟩ := ends_newList.mp made
          obtain ⟨after, l', built', h⟩ := outcome_bind_ok.mp h
          obtain ⟨rfl, rfl⟩ := ends_newList.mp h
          obtain ⟨becomes, k, rfl⟩ := ih built
          obtain ⟨becomes', k', rfl⟩ := ih built'
          refine ⟨.pair ⟨?_, ?_, ?_⟩ becomes becomes', k + 1 + k' + 1, by simp⟩
          · simpa using noUnquote
          · simpa using stray
          · simpa using noSplicing
    · rename_i notPair
      obtain ⟨rfl, rfl⟩ := ends_newList.mp h
      refine ⟨.atom ?_, 1, rfl⟩
      cases template with
      | list i items =>
        cases items with
        | nil => rfl
        | cons head rest => exact absurd rfl (notPair i head rest)
      | _ => rfl

end Form

/-- An application of a name that is neither a keyword nor registered is expanded part by part. -/
theorem ends_of_application {fuel room i : Nat} {head core : Value} {rest : List Value}
    {toplevel : Bool} {m n : Machine} (noKeyword : Keyword.ofHead? head = none)
    (missing : m.transformerOf? head = none)
    (h : (expand fuel room (.list i (head :: rest)) toplevel).Ends m core n) :
    ∃ fuel cs l, ((head :: rest).mapM ((calls fuel).expandPart room false)).Ends m cs l ∧
      core = .list l.nextObject cs ∧ n = l.made 1 := by
  cases fuel with
  | zero => cases h
  | succ fuel =>
    change ((calls fuel).expansion room (.list i (head :: rest)) toplevel).Ends m core n at h
    unfold Calls.expansion at h
    simp only [noKeyword] at h
    obtain ⟨found, l, looked, h⟩ := outcome_bind_ok.mp h
    obtain ⟨rfl, rfl⟩ := ends_transformer?.mp looked
    rw [missing] at h
    obtain ⟨cs, l, run, h⟩ := outcome_bind_ok.mp h
    obtain ⟨rfl, rfl⟩ := ends_newList.mp h
    exact ⟨fuel, cs, l, run, rfl, rfl⟩

theorem ends_expandPart_symbol {fuel room : Nat} {name : String} {core : Value} {m n : Machine}
    (h : ((calls fuel).expandPart room false (.symbol name)).Ends m core n) :
    core = .symbol name ∧ n = m := by
  obtain ⟨room, rfl, h⟩ := ends_deeper.mp h
  cases fuel with
  | zero => cases h
  | succ fuel => exact ends_pure.mp h

namespace Template

/-- Expanding the unquoted parts of a template one after another gives a template of core forms. -/
inductive Expanded : Value → Machine → Template → Machine → Prop
  | atom {v m} : v.hasKind .pair = false → Expanded v m (.quoted v) m
  | unquote {i x m core n} :
      Settles (fun fuel room => expand fuel room x false) m (.ok core, n) →
      Expanded (.list i [.symbol "unquote", x]) m (.unquoted core) n
  | splice {i j k x rest m core n t l} :
      Settles (fun fuel room => expand fuel room x false) m (.ok core, n) →
      Expanded (.list k rest) n t l →
      Expanded (.list i (.list j [.symbol "unquote-splicing", x] :: rest)) m (.splice core t) (l.made 1)
  | pair {i k head rest m t n t' l} : Form.IsOrdinary head → Expanded head m t n →
      Expanded (.list k rest) n t' l → Expanded (.list i (head :: rest)) m (.pair t t') (l.made 1)

namespace Expanded

variable {i : Nat} {head x : Value} {rest : List Value} {m n : Machine} {t : Template}

theorem of_ordinary (ordinary : Form.IsOrdinary head) (h : Expanded (.list i (head :: rest)) m t n) :
    ∃ k first after l l', t = .pair first after ∧ Expanded head m first l ∧
      Expanded (.list k rest) l after l' ∧ n = l'.made 1 := by
  cases h with
  | atom notPair => cases notPair
  | unquote => cases ordinary.noUnquote
  | splice => cases ordinary.noSplicing
  | pair _ first after => exact ⟨_, _, _, _, _, rfl, first, after, rfl⟩

theorem of_unquote (h : Expanded (.list i [.symbol "unquote", x]) m t n) :
    ∃ core, t = .unquoted core ∧
      Settles (fun fuel room => expand fuel room x false) m (.ok core, n) := by
  cases h with
  | atom notPair => cases notPair
  | unquote settles => exact ⟨_, rfl, settles⟩
  | pair ordinary => cases ordinary.noUnquote

theorem of_empty (h : Expanded (.list i []) m t n) : t = .quoted (.list i []) ∧ n = m := by
  cases h with
  | atom => exact ⟨rfl, rfl⟩

end Expanded

/-- The three parts of the code of a list are expanded in turn. -/
theorem ends_of_listCode {fuel room i : Nat} {name : String} {e e' core : Value} {m n : Machine}
    (noKeyword : Keyword.ofHead? (.symbol name) = none)
    (missing : m.transformers.get? (.name name) = none)
    (h : (expand fuel room (.list i [.symbol name, e, e']) false).Ends m core n) :
    ∃ fuel room c c' l l', (expand fuel room e false).Ends m c l ∧
      (expand fuel room e' false).Ends l c' l' ∧
      core = .list l'.nextObject [.symbol name, c, c'] ∧ n = l'.made 1 ∧
      l.transformers = m.transformers := by
  obtain ⟨fuel, cs, l', run, rfl, rfl⟩ := ends_of_application noKeyword missing h
  obtain ⟨_, m, _, symbol, operands, rfl⟩ := ends_mapM_cons.mp run
  obtain ⟨rfl, rfl⟩ := ends_expandPart_symbol symbol
  obtain ⟨c, l, _, first, last, rfl⟩ := ends_mapM_cons.mp operands
  obtain ⟨c', _, _, second, done, rfl⟩ := ends_mapM_cons.mp last
  obtain ⟨rfl, rfl⟩ := ends_mapM_nil.mp done
  obtain ⟨room, rfl, first⟩ := ends_deeper.mp first
  refine ⟨fuel, room, c, c', l, _, first, second, rfl, rfl, ?_⟩
  have same := transformers_expand fuel room e m
  rwa [show outcome (expand fuel room e false) m = _ from first] at same

/-- The code of a template is expanded to the code of the expanded template. -/
theorem expanded_of_ends {template code : Value} (becomes : Form.Becomes template code)
    {fuel room : Nat} {m n : Machine} {core : Value} (names : m.KeepsListNames)
    (h : (expand fuel room code false).Ends m core n) :
    ∃ t, Expanded template m t n ∧ IsCode t core := by
  induction becomes generalizing fuel room m n core with
  | atom notPair =>
    cases fuel with
    | zero => cases h
    | succ fuel =>
      obtain ⟨rfl, rfl⟩ := ends_pure.mp h
      exact ⟨_, .atom notPair, .quoted⟩
  | unquote => exact ⟨_, .unquote ⟨fuel, room, h, not_stopped_ok⟩, .unquoted⟩
  | splice _ ih =>
    obtain ⟨fuel, room, c, c', l, l', first, rest, rfl, rfl, same⟩ :=
      ends_of_listCode rfl names.append h
    obtain ⟨t, expanded, code⟩ := ih ⟨same ▸ names.cons, same ▸ names.append⟩ rest
    exact ⟨_, .splice ⟨fuel, room, first, not_stopped_ok⟩ expanded, .splice code⟩
  | pair ordinary _ _ ihf ihr =>
    obtain ⟨fuel, room, c, c', l, l', first, rest, rfl, rfl, same⟩ :=
      ends_of_listCode rfl names.cons h
    obtain ⟨t, expanded, code⟩ := ihf names first
    obtain ⟨t', expanded', code'⟩ := ihr ⟨same ▸ names.cons, same ▸ names.append⟩ rest
    exact ⟨_, .pair ordinary expanded expanded', .pair code code'⟩

end Template

/-- With names of list procedures that no transformer has, an expanded template is filled by its core
form, wherever those names stand for the procedures, and its unquoted parts are evaluated once each, from
left to right. A template with a fault is refused. -/
theorem quasiquote_fills {m : Machine} (names : m.KeepsListNames) (i : Nat) (template : Value)
    (toplevel : Bool) :
    (∀ core n, Settles (fun fuel room =>
        expand fuel room (.list i [.symbol "quasiquote", template]) toplevel) m (.ok core, n) →
      ∃ count t, Template.Expanded template (m.made count) t n ∧
        ∀ frame room l, (∀ l', t.Reaches frame room l l' → l'.BuildsLists frame) →
          (∀ o, Finishes (fun fuel => evaluate fuel room core frame) l o ↔
            Finishes (fun fuel => t.fill frame fuel room) l o) ∧
          ∀ v l', Finishes (fun fuel => evaluate fuel room core frame) l (.ok v, l') →
            v.isEscape = false → Template.InTurn frame t.cores l l') ∧
    ∀ form fault, Template.fault? template = some (form, fault) →
      ∃ count, Settles (fun fuel room =>
        expand fuel room (.list i [.symbol "quasiquote", template]) toplevel) m
          (.error (.failed (Form.refusal m form fault)), m.made count) := by
  constructor
  · rintro core n ⟨fuel, room, ends, _⟩
    cases fuel with
    | zero => cases ends
    | succ fuel =>
      obtain ⟨code, l, built, run⟩ := outcome_bind_ok.mp ends
      obtain ⟨room', rfl, run⟩ := ends_deeper.mp run
      obtain ⟨becomes, count, rfl⟩ := Form.becomes_of_ends built
      have late : (m.made count).KeepsListNames := ⟨names.cons, names.append⟩
      obtain ⟨t, expanded, code⟩ := Template.expanded_of_ends becomes late run
      refine ⟨count, t, expanded, fun frame room l steady => ⟨code.finishes_iff steady, ?_⟩⟩
      intro v l' done here
      exact Template.inTurn_of_fill here ((code.finishes_iff steady _).mp done)
  · intro form fault faulty
    obtain ⟨count, room, refused⟩ := (Template.isDecided template).refuses faulty m
    refine ⟨count, 1, room, outcome_bind_of_error (refused room (Nat.le_refl _)) _, ?_⟩
    unfold Form.refusal
    split
    · exact stopped_error_iff.not.mpr id
    · exact stopped_error_iff.not.mpr id

/-- The template `(,2)` at the start of a session. -/
theorem quasiquote_fills_unquoted :
    ∃ count t, Template.Expanded (.list 0 [.list 0 [.symbol "unquote", .int 2]])
        ((Machine.start .zeros).made count) t ((Machine.start .zeros).made 4) ∧
      Finishes (fun fuel => t.fill Machine.root fuel 2) ((Machine.start .zeros).made 4)
        (.ok (.list 4 [.int 2]), (Machine.start .zeros).made 5) := by
  have names : (Machine.start .zeros).KeepsListNames := ⟨rfl, rfl⟩
  obtain ⟨meaning, _⟩ := quasiquote_fills names 0 (.list 0 [.list 0 [.symbol "unquote", .int 2]]) false
  obtain ⟨count, t, expanded, fills⟩ := meaning _ ((Machine.start .zeros).made 4)
    ⟨4, 4, rfl, not_stopped_ok⟩
  refine ⟨count, t, expanded, ((fills Machine.root 2 _ ?_).1 _).mp ⟨4, rfl, not_stopped_ok⟩⟩
  have builders : ((Machine.start .zeros).made 4).BuildsLists Machine.root := ⟨rfl, rfl⟩
  obtain ⟨_, _, _, _, _, rfl, first, rest, _⟩ := expanded.of_ordinary ⟨rfl, rfl, rfl⟩
  obtain ⟨core, rfl, fuel, room, ends, _⟩ := first.of_unquote
  obtain ⟨rfl, rfl⟩ := rest.of_empty
  cases fuel with
  | zero => cases ends
  | succ fuel =>
    obtain ⟨rfl, rfl⟩ := ends_pure.mp ends
    intro l reached
    cases reached with
    | here => exact builders
    | first reached =>
      cases reached with
      | here => exact builders
    | rest done _ reached =>
      obtain ⟨fuel, ends, _⟩ := done
      cases fuel with
      | zero => cases ends
      | succ fuel =>
        obtain ⟨rfl, rfl⟩ := ends_pure.mp ends
        cases reached with
        | here => exact builders

end SmallLisp
