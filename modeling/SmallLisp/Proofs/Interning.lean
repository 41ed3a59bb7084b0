import Mathlib.Data.Finset.Card
import SmallLisp.Proofs.Diagnosis
/-!
# Interning

A program has any number of symbol tables, and names are interned in them in any order. What a table gives is a symbol
by its name and its home. Here symbols are also told apart as the objects that are made: a table keeps the objects for
its names, all tables begin with the same core symbols, and each new name of a table is a new object. Both ways to tell
symbols apart agree. The symbol that marks the end of a text stands in no table, so no token of a text is taken for it.
-/
namespace SmallLisp

open Run

/-- A name that is interned in one of the tables, which is given by its number. -/
structure InternCall where
  table : Nat
  name : String

/-- All tables by their numbers. A table has the core names only until a name is interned in it, so it does not matter
when it is created. -/
abbrev SymbolTables := Nat → SymbolTable

namespace SymbolTables

def intern (ts : SymbolTables) (call : InternCall) : Symbol × SymbolTables :=
  let (s, t) := (ts call.table).intern call.name
  (s, Function.update ts call.table t)

/-- The tables after some calls. -/
def after (calls : List InternCall) : SymbolTables :=
  calls.foldl (fun ts call => (ts.intern call).2) fun i => ⟨i, []⟩

end SymbolTables

/-- The names of the symbol objects made so far, by the numbers of the objects, and the entries of the tables. -/
structure SymbolHeap where
  names : List String
  entries : Nat → List (String × Nat)

namespace SymbolHeap

/-- The core symbols, which each table has, and the symbol that marks the end of a text. -/
def start : SymbolHeap :=
  ⟨coreNames ++ [Value.endName], fun _ => coreNames.zipIdx⟩

def endObject : Nat :=
  coreNames.length

/-- The object that a table has for a name; if it has none, one is made. -/
def intern (h : SymbolHeap) (call : InternCall) : Nat × SymbolHeap :=
  match (h.entries call.table).lookup call.name with
  | some o => (o, h)
  | none =>
    let made := h.names.length
    (made, ⟨h.names ++ [call.name],
      Function.update h.entries call.table (h.entries call.table ++ [(call.name, made)])⟩)

def after (calls : List InternCall) : SymbolHeap :=
  calls.foldl (fun h call => (h.intern call).2) start

end SymbolHeap

namespace Symbol

/-- Equality of symbols, which goes by their names. -/
def isEqual (s s' : Symbol) : Bool :=
  s.name == s'.name

def hashCode (s : Symbol) : UInt64 :=
  hash s.name

/-- The symbol that a text ends with. -/
def endOfText : Symbol :=
  ⟨Value.endName, none⟩

end Symbol

/-! ## Objects -/

namespace SymbolHeap

variable {h : SymbolHeap} {call : InternCall} {i j : Nat} {name other : String} {o o' : Nat}

theorem intern_of_some (found : (h.entries call.table).lookup call.name = some o) : h.intern call = (o, h) := by
  unfold intern
  rw [found]

theorem intern_of_none (missing : (h.entries call.table).lookup call.name = none) :
    h.intern call = (h.names.length, ⟨h.names ++ [call.name],
      Function.update h.entries call.table (h.entries call.table ++ [(call.name, h.names.length)])⟩) := by
  unfold intern
  rw [missing]

/-- Interning enters its object under its name and nothing else. -/
theorem lookup_intern (h : SymbolHeap) (call : InternCall) (i : Nat) (name : String) :
    ((h.intern call).2.entries i).lookup name =
      if i = call.table ∧ name = call.name then some (h.intern call).1 else (h.entries i).lookup name := by
  cases known : (h.entries call.table).lookup call.name with
  | some o =>
    rw [intern_of_some known]
    split
    · rename_i same
      rw [same.1, same.2, known]
    · rfl
  | none =>
    rw [intern_of_none known]
    dsimp only
    by_cases here : i = call.table
    · subst here
      rw [Function.update_self, List.lookup_append]
      by_cases same : name = call.name
      · subst same
        simp [known, List.lookup]
      · have differs : (name == call.name) = false := beq_false_of_ne same
        simp [List.lookup, differs, same]
    · rw [Function.update_of_ne here, if_neg (fun both => here both.1)]

theorem entries_intern_other (h : SymbolHeap) (other : i ≠ call.table) : (h.intern call).2.entries i = h.entries i := by
  cases known : (h.entries call.table).lookup call.name with
  | some o => rw [intern_of_some known]
  | none =>
    rw [intern_of_none known]
    exact Function.update_of_ne other _ _

/-- A new name takes one more entry. -/
theorem length_entries_intern (h : SymbolHeap) (call : InternCall) (i : Nat) :
    ((h.intern call).2.entries i).length = (h.entries i).length +
      if i = call.table ∧ (h.entries call.table).lookup call.name = none then 1 else 0 := by
  cases known : (h.entries call.table).lookup call.name with
  | some o => simp [intern_of_some known]
  | none =>
    rw [intern_of_none known]
    dsimp only
    by_cases here : i = call.table
    · subst here
      simp
    · rw [Function.update_of_ne here, if_neg fun both => here both.1, Nat.add_zero]

/-- The entries of the tables are about objects of their names. Core symbols are shared, all others belong to one
table, and the mark of the end is in no table. -/
structure Sound (h : SymbolHeap) : Prop where
  ended : endObject < h.names.length
  core : ∀ i, ∀ name ∈ coreNames, (h.entries i).lookup name = coreNames.zipIdx.lookup name
  named : ∀ i name o, (h.entries i).lookup name = some o → h.names[o]? = some name ∧ o ≠ endObject
  own : ∀ i j name other o, (h.entries i).lookup name = some o → (h.entries j).lookup other = some o →
    i = j ∨ name ∈ coreNames

theorem isSome_lookup_zipIdx (names : List String) (n : Nat) (name : String) :
    ((names.zipIdx n).lookup name).isSome = names.contains name := by
  induction names generalizing n with
  | nil => rfl
  | cons first names ih =>
    rw [List.zipIdx_cons, List.lookup_cons, List.contains_cons]
    cases here : name == first with
    | true => rfl
    | false => exact (ih (n + 1)).trans (Bool.false_or _).symm

theorem sound_start : start.Sound := by
  have among : ∀ e ∈ coreNames.zipIdx,
      e.1 ∈ coreNames ∧ start.names[e.2]? = some e.1 ∧ e.2 ≠ endObject := by
    decide
  have entry {name : String} {o : Nat} (found : coreNames.zipIdx.lookup name = some o) :
      (name, o) ∈ coreNames.zipIdx := by
    obtain ⟨before, behind, split, _⟩ := List.lookup_eq_some_iff.mp found
    rw [split]
    exact List.mem_append_right _ List.mem_cons_self
  constructor
  · decide
  · intro i name _
    rfl
  · intro i name o found
    exact (among _ (entry found)).2
  · intro i j name other o found _
    exact Or.inr (among _ (entry found)).1

theorem Sound.intern (sound : h.Sound) (call : InternCall) : (h.intern call).2.Sound := by
  cases known : (h.entries call.table).lookup call.name with
  | some o =>
    rw [intern_of_some known]
    exact sound
  | none =>
    have new : call.name ∉ coreNames := by
      intro core
      have found := isSome_lookup_zipIdx coreNames 0 call.name
      rw [← sound.core call.table _ core, known, List.contains_iff_mem.mpr core] at found
      cases found
    have lookup := lookup_intern h call
    -- objects that were there before are not the new one
    have older {i : Nat} {name : String} {o : Nat} (found : (h.entries i).lookup name = some o) :
        o < h.names.length := by
      exact (List.getElem?_eq_some_iff.mp (sound.named i name o found).1).1
    rw [intern_of_none known] at lookup ⊢
    dsimp only at lookup
    constructor
    · have := sound.ended
      simp only [List.length_append]
      omega
    · intro i name core
      rw [lookup, if_neg]
      · exact sound.core i name core
      · rintro ⟨_, rfl⟩
        exact new core
    · intro i name o found
      rw [lookup] at found
      by_cases here : i = call.table ∧ name = call.name
      · rw [if_pos here] at found
        obtain rfl := Option.some.inj found
        refine ⟨by simp [here.2], ?_⟩
        have := sound.ended
        omega
      · rw [if_neg here] at found
        refine ⟨?_, (sound.named i name o found).2⟩
        rw [List.getElem?_append_left (older found)]
        exact (sound.named i name o found).1
    · intro i j name other o found found'
      rw [lookup] at found found'
      by_cases here : i = call.table ∧ name = call.name
      · by_cases here' : j = call.table ∧ other = call.name
        · exact Or.inl (here.1.trans here'.1.symm)
        · rw [if_pos here] at found
          rw [if_neg here'] at found'
          have := older found'
          have := Option.some.inj found
          omega
      · rw [if_neg here] at found
        by_cases here' : j = call.table ∧ other = call.name
        · rw [if_pos here'] at found'
          have := older found
          have := Option.some.inj found'
          omega
        · rw [if_neg here'] at found'
          exact sound.own i j name other o found found'

/-- Entries of one object are for one name, in one table or for a core symbol. -/
theorem Sound.same_iff (sound : h.Sound) (found : (h.entries i).lookup name = some o)
    (found' : (h.entries j).lookup other = some o') :
    o = o' ↔ name = other ∧ (i = j ∨ name ∈ coreNames) := by
  constructor
  · rintro rfl
    have named := (sound.named i name o found).1
    rw [(sound.named j other o found').1] at named
    exact ⟨(Option.some.inj named).symm, sound.own i j name other o found found'⟩
  · rintro ⟨rfl, rfl | core⟩
    · exact Option.some.inj (found.symm.trans found')
    · rw [sound.core i name core] at found
      rw [sound.core j name core] at found'
      exact Option.some.inj (found.symm.trans found')

theorem after_append_singleton (calls : List InternCall) (call : InternCall) :
    after (calls ++ [call]) = ((after calls).intern call).2 := by
  simp [after]

theorem sound_after (calls : List InternCall) : (after calls).Sound := by
  induction calls using List.reverseRecOn with
  | nil => exact sound_start
  | append_singleton calls call ih =>
    rw [after_append_singleton]
    exact ih.intern call

theorem lookup_interned (calls : List InternCall) (call : InternCall) :
    ((after (calls ++ [call])).entries call.table).lookup call.name = some ((after calls).intern call).1 := by
  rw [after_append_singleton, lookup_intern, if_pos ⟨rfl, rfl⟩]

/-- An entry stays as it is. -/
theorem lookup_later (calls more : List InternCall) (found : ((after calls).entries i).lookup name = some o) :
    ((after (calls ++ more)).entries i).lookup name = some o := by
  induction more using List.reverseRecOn with
  | nil => simpa using found
  | append_singleton more call ih =>
    rw [← List.append_assoc, after_append_singleton, lookup_intern]
    split
    · rename_i same
      obtain ⟨rfl, rfl⟩ := same
      rw [intern_of_some ih]
    · exact ih

end SymbolHeap

/-! ## Tables -/

namespace SymbolTables

variable {call : InternCall} {i : Nat} {name : String}

theorem after_append_singleton (calls : List InternCall) (call : InternCall) :
    after (calls ++ [call]) = ((after calls).intern call).2 := by
  simp [after]

theorem intern_self (ts : SymbolTables) (call : InternCall) :
    (ts.intern call).2 call.table = ((ts call.table).intern call.name).2 := by
  simp [intern]

theorem intern_other (ts : SymbolTables) (other : i ≠ call.table) : (ts.intern call).2 i = ts i := by
  simp [intern, Function.update_of_ne other]

theorem id_after (calls : List InternCall) (i : Nat) : (after calls i).id = i := by
  induction calls using List.reverseRecOn with
  | nil => rfl
  | append_singleton calls call ih =>
    rw [after_append_singleton]
    by_cases here : i = call.table
    · subst here
      rw [intern_self, SymbolTable.intern]
      split
      · exact ih
      · dsimp only
        split <;> exact ih
    · rw [intern_other _ here, ih]

theorem mk_eq_iff : (⟨i, name⟩ : InternCall) = call ↔ i = call.table ∧ name = call.name := by
  cases call
  rw [InternCall.mk.injEq]

/-- A table has the core names and the names that have been interned in it. -/
theorem contains_after (calls : List InternCall) (i : Nat) (name : String) :
    (after calls i).contains name = true ↔ name ∈ coreNames ∨ ⟨i, name⟩ ∈ calls := by
  induction calls using List.reverseRecOn with
  | nil => simp [after, SymbolTable.contains]
  | append_singleton calls call ih =>
    rw [after_append_singleton, List.mem_append, List.mem_singleton]
    by_cases here : i = call.table
    · subst here
      rw [intern_self, SymbolTable.contains_intern, Bool.or_eq_true, ih, beq_iff_eq, mk_eq_iff]
      tauto
    · rw [intern_other _ here, ih, mk_eq_iff]
      tauto

/-- The names that have been interned in a table, the core names apart. -/
def namesIn (calls : List InternCall) (i : Nat) : Finset String :=
  ((calls.filter fun call => call.table = i ∧ call.name ∉ coreNames).map (·.name)).toFinset

theorem mem_namesIn (calls : List InternCall) :
    name ∈ namesIn calls i ↔ name ∉ coreNames ∧ ⟨i, name⟩ ∈ calls := by
  simp only [namesIn, List.mem_toFinset, List.mem_map, List.mem_filter, decide_eq_true_eq]
  constructor
  · rintro ⟨call, ⟨mem, rfl, new⟩, rfl⟩
    exact ⟨new, mem⟩
  · rintro ⟨new, mem⟩
    exact ⟨_, ⟨mem, rfl, new⟩, rfl⟩

theorem size_after (calls : List InternCall) (i : Nat) :
    (after calls i).size = 13 + (namesIn calls i).card := by
  induction calls using List.reverseRecOn with
  | nil => rfl
  | append_singleton calls call ih =>
    have names (name : String) : name ∈ namesIn (calls ++ [call]) i ↔
        name ∈ namesIn calls i ∨ name ∉ coreNames ∧ i = call.table ∧ name = call.name := by
      rw [mem_namesIn, mem_namesIn, List.mem_append, List.mem_singleton, mk_eq_iff, and_or_left]
    rw [after_append_singleton]
    by_cases here : i = call.table
    · rw [here] at ih names ⊢
      rw [intern_self, SymbolTable.size_intern, ih]
      by_cases known : (after calls call.table).contains call.name = true
      · rw [if_pos known]
        have same : namesIn (calls ++ [call]) call.table = namesIn calls call.table := by
          ext name
          rw [names, or_iff_left_of_imp]
          rintro ⟨new, _, rfl⟩
          exact mem_namesIn calls |>.mpr ⟨new, ((contains_after ..).mp known).resolve_left new⟩
        rw [same]
      · rw [if_neg known]
        have new := mt (contains_after calls call.table call.name).mpr known
        rw [not_or] at new
        have more : namesIn (calls ++ [call]) call.table = insert call.name (namesIn calls call.table) := by
          ext name
          rw [names, Finset.mem_insert, or_comm]
          refine or_congr ⟨fun h => h.2.2, ?_⟩ Iff.rfl
          rintro rfl
          exact ⟨new.1, rfl, rfl⟩
        rw [more, Finset.card_insert_of_notMem fun mem => new.2 (mem_namesIn calls |>.mp mem).2, Nat.add_assoc]
    · have same : namesIn (calls ++ [call]) i = namesIn calls i := by
        ext name
        rw [names]
        exact or_iff_left fun h => here h.2.1
      rw [intern_other _ here, ih, same]

/-- A table has an object for each name that it contains. -/
theorem isSome_lookup_after (calls : List InternCall) (i : Nat) (name : String) :
    (((SymbolHeap.after calls).entries i).lookup name).isSome = (after calls i).contains name := by
  induction calls using List.reverseRecOn with
  | nil =>
    have core := SymbolHeap.isSome_lookup_zipIdx coreNames 0 name
    simpa [after, SymbolHeap.after, SymbolHeap.start, SymbolTable.contains] using core
  | append_singleton calls call ih =>
    rw [after_append_singleton, SymbolHeap.after_append_singleton, SymbolHeap.lookup_intern]
    by_cases here : i = call.table
    · subst here
      rw [intern_self, SymbolTable.contains_intern, ← ih]
      by_cases same : name = call.name
      · rw [if_pos ⟨rfl, same⟩, beq_iff_eq.mpr same]
        rfl
      · rw [if_neg fun both => same both.2, beq_false_of_ne same, Bool.false_or]
    · rw [intern_other _ here, if_neg fun both => here both.1, ih]

theorem length_entries_after (calls : List InternCall) (i : Nat) :
    ((SymbolHeap.after calls).entries i).length = (after calls i).size := by
  induction calls using List.reverseRecOn with
  | nil => rfl
  | append_singleton calls call ih =>
    rw [after_append_singleton, SymbolHeap.after_append_singleton, SymbolHeap.length_entries_intern, ih]
    by_cases here : i = call.table
    · subst here
      rw [intern_self, SymbolTable.size_intern, ← isSome_lookup_after]
      cases ((SymbolHeap.after calls).entries call.table).lookup call.name <;> simp
    · rw [intern_other _ here, if_neg fun both => here both.1, Nat.add_zero]

end SymbolTables

/-! ## The end of a text -/

theorem SymbolTable.intern_ne_endOfText (t : SymbolTable) (name : String) : (t.intern name).1 ≠ .endOfText := by
  unfold intern Symbol.endOfText
  split
  · rename_i core
    intro same
    have named := congrArg Symbol.name same
    dsimp only at named
    rw [named] at core
    revert core
    decide
  · intro same
    cases congrArg Symbol.home same

namespace Reader

variable {room : Nat} {p q : Port} {r : Option Datum}

/-- What reading gives when it is a symbol: that of a form, or the mark of the end where no form is left. -/
def symbolRead? (table : SymbolTable) : Option Datum → Option Symbol
  | none => some .endOfText
  | some (.symbol name) => some (table.intern name).1
  | some _ => none

/-- Reading meets the mark of the end only where no token is left. -/
theorem symbolRead?_eq_endOfText_iff (h : outcome (read room) p = (.ok r, q)) :
    symbolRead? q.symbols r = some .endOfText ↔ outcome nextToken p = (.ok none, q) := by
  unfold read at h
  rw [outcome_bind_of_ok (outcome_get p)] at h
  obtain ⟨token, q', first, h⟩ := outcome_bind_ok.mp h
  rw [first]
  cases token with
  | none =>
    cases h
    exact ⟨fun _ => rfl, fun _ => rfl⟩
  | some token =>
    obtain ⟨d, q'', _, made⟩ := outcome_bind_ok.mp h
    cases made
    constructor
    · intro marked
      cases d with
      | symbol name => exact absurd (Option.some.inj marked) (SymbolTable.intern_ne_endOfText _ name)
      | _ => cases marked
    · intro ended
      cases ended

end Reader

/-! ## The laws -/

/-- The symbol that a call gives after earlier ones. -/
def SymbolTables.given (past : List InternCall) (call : InternCall) : Symbol :=
  ((after past).intern call).1

/-- The object that a call gives after earlier ones. -/
def SymbolHeap.given (past : List InternCall) (call : InternCall) : Nat :=
  ((after past).intern call).1

section Laws

open Editor Reader

variable (past between : List InternCall) (call call' : InternCall)

theorem SymbolTables.given_eq :
    given past call = ⟨call.name, if call.name ∈ coreNames then none else some call.table⟩ := by
  unfold given SymbolTables.intern SymbolTable.intern
  by_cases core : call.name ∈ coreNames
  · simp [core]
  · simp [core, id_after]

/-- Interning, whatever was interned before, in whichever tables. Two calls give the same object just when they are for
one name and for one table or a core name; they give equal symbols just when they are for one name. A name stays in its
table with its object. A table contains the core names and those that have been interned in it, each of them counted
once. A call changes its own table only. No call gives the mark of the end of a text, so what is read is this mark only
where no token is left, and a text that is accepted is read to its end. -/
theorem interning_laws :
    ((SymbolHeap.given past call = SymbolHeap.given (past ++ call :: between) call' ↔
        call.name = call'.name ∧ (call.table = call'.table ∨ call.name ∈ coreNames)) ∧
      (SymbolTables.given past call = SymbolTables.given (past ++ call :: between) call' ↔
        call.name = call'.name ∧ (call.table = call'.table ∨ call.name ∈ coreNames))) ∧
    (((SymbolTables.given past call).isEqual (SymbolTables.given (past ++ call :: between) call') = true ∧
        (SymbolTables.given past call).hashCode = (SymbolTables.given (past ++ call :: between) call').hashCode ↔
        call.name = call'.name) ∧
      (SymbolHeap.after (past ++ call :: between)).names[SymbolHeap.given past call]? = some call.name) ∧
    ((SymbolTables.after (past ++ call :: between) call.table).contains call.name = true ∧
      SymbolHeap.given (past ++ call :: between) call = SymbolHeap.given past call ∧
      SymbolTables.given (past ++ call :: between) call = SymbolTables.given past call) ∧
    (∀ i, (SymbolTables.after past i).size = 13 + (SymbolTables.namesIn past i).card ∧
      ((SymbolHeap.after past).entries i).length = (SymbolTables.after past i).size ∧
      ∀ name, ((SymbolTables.after past i).contains name = true ↔ name ∈ coreNames ∨ ⟨i, name⟩ ∈ past) ∧
        (((SymbolHeap.after past).entries i).lookup name).isSome = (SymbolTables.after past i).contains name) ∧
    (∀ i ≠ call.table, SymbolTables.after (past ++ [call]) i = SymbolTables.after past i ∧
      (SymbolHeap.after (past ++ [call])).entries i = (SymbolHeap.after past).entries i) ∧
    (SymbolHeap.given past call ≠ SymbolHeap.endObject ∧ SymbolTables.given past call ≠ .endOfText) ∧
    (∀ room p r q, outcome (read room) p = (.ok r, q) →
      (symbolRead? q.symbols r = some .endOfText ↔ outcome nextToken p = (.ok none, q))) ∧
    ∀ text symbols room ds, (Port.ofText text symbols).forms room = (ds, none) →
      ∃ missing, AreForms (tokensOf (scan text.toList) ++ List.replicate missing ")") ds := by
  have split : past ++ call :: between = past ++ [call] ++ between := by simp
  have entry : ((SymbolHeap.after (past ++ call :: between)).entries call.table).lookup call.name =
      some (SymbolHeap.given past call) := by
    rw [split]
    exact SymbolHeap.lookup_later _ between (SymbolHeap.lookup_interned past call)
  have entry' := SymbolHeap.lookup_interned (past ++ call :: between) call'
  have sound := SymbolHeap.sound_after (past ++ call :: between)
  have named := sound.named _ _ _ entry
  refine ⟨⟨?_, ?_⟩, ⟨?_, named.1⟩, ⟨?_, ?_, ?_⟩, ?_, ?_, ⟨named.2, ?_⟩, ?_, ?_⟩
  · exact (SymbolHeap.sound_after _).same_iff (SymbolHeap.lookup_later _ [call'] entry) entry'
  · rw [SymbolTables.given_eq, SymbolTables.given_eq, Symbol.mk.injEq]
    refine and_congr_right fun same => ?_
    rw [← same]
    by_cases core : call.name ∈ coreNames <;> simp [core]
  · rw [SymbolTables.given_eq, SymbolTables.given_eq]
    unfold Symbol.isEqual Symbol.hashCode
    dsimp only
    rw [beq_iff_eq]
    exact and_iff_left_of_imp fun same => congrArg hash same
  · rw [SymbolTables.contains_after]
    simp
  · unfold SymbolHeap.given
    rw [SymbolHeap.intern_of_some entry]
    rfl
  · rw [SymbolTables.given_eq, SymbolTables.given_eq]
  · intro i
    exact ⟨SymbolTables.size_after past i, SymbolTables.length_entries_after past i, fun name =>
      ⟨SymbolTables.contains_after past i name, SymbolTables.isSome_lookup_after past i name⟩⟩
  · intro i other
    rw [SymbolTables.after_append_singleton, SymbolHeap.after_append_singleton]
    exact ⟨SymbolTables.intern_other _ other, SymbolHeap.entries_intern_other _ other⟩
  · exact SymbolTable.intern_ne_endOfText _ _
  · intro room p r q read
    exact symbolRead?_eq_endOfText_iff read
  · intro text symbols room ds accepted
    have short := explained_forms text symbols room
    rw [accepted] at short
    have all := readsAll_forms text symbols room short
    rw [accepted] at all
    obtain ⟨missing, _, forms⟩ := all
    exact ⟨missing, forms⟩

end Laws

end SmallLisp
