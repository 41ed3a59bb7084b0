import SmallLisp.Proofs.Diagnosis
/-!
# Forms as they are written

A text that the reader accepts is a sequence of written forms: atoms, marked forms and lists, with their
lexemes and so with their places. A parenthesis that the end of the text stands for is written there.
-/
namespace SmallLisp.Editor

open Reader

/-- A form with its lexemes. -/
inductive Written where
  | atom (lexeme : Lexeme)
  | marked (mark : Lexeme) (form : Written)
  | list (opening : Lexeme) (items : List Written) (closing : Lexeme)

namespace Written

mutual

def lexemes : Written → List Lexeme
  | atom t => [t]
  | marked mark form => mark :: form.lexemes
  | list opening items closing => opening :: (allLexemes items ++ [closing])

def allLexemes : List Written → List Lexeme
  | [] => []
  | w :: ws => w.lexemes ++ allLexemes ws

end

def first : Written → Lexeme
  | atom t => t
  | marked mark _ => mark
  | list opening _ _ => opening

theorem lexemes_eq_cons (w : Written) : ∃ more, w.lexemes = w.first :: more := by
  cases w with
  | atom t => exact ⟨_, rfl⟩
  | marked mark form => exact ⟨_, rfl⟩
  | list opening items closing => exact ⟨_, rfl⟩

/-- What a lexeme on its own is read as, if it is a form. -/
def atomDatum? (t : Lexeme) : Option Datum :=
  if t.isOpen || t.isClose || (quoteKeyword? t.token).isSome then none
  else (Reader.atom t.token).toOption

mutual

/-- What a written form is read as, if its lexemes are what they are to be. -/
def datum? : Written → Option Datum
  | atom t => atomDatum? t
  | marked mark form =>
    (quoteKeyword? mark.token).bind fun keyword => form.datum?.map fun d => .list [.symbol keyword, d]
  | list opening items closing =>
    if opening.isOpen && closing.isClose then (data? items).map .list else none

def data? : List Written → Option (List Datum)
  | [] => some []
  | w :: ws => w.datum?.bind fun d => (data? ws).map fun ds => d :: ds

end

mutual

/-- The lists in a form, at whatever depth, in the order in which they begin. -/
def lists : Written → List Written
  | atom _ => []
  | marked _ form => form.lists
  | list opening items closing => list opening items closing :: allLists items

def allLists : List Written → List Written
  | [] => []
  | w :: ws => w.lists ++ allLists ws

end

variable {t mark opening closing : Lexeme} {w form : Written} {ws items : List Written} {d : Datum}
  {ds : List Datum}

theorem datum?_atom : (atom t).datum? = some d ↔
    t.isOpen = false ∧ t.isClose = false ∧ quoteKeyword? t.token = none ∧ Reader.atom t.token = .ok d := by
  simp only [datum?, atomDatum?]
  cases t.isOpen <;> cases t.isClose <;> cases quoteKeyword? t.token <;>
    cases Reader.atom t.token <;> simp [Except.toOption]

theorem datum?_marked : (marked mark form).datum? = some d ↔
    ∃ keyword d', quoteKeyword? mark.token = some keyword ∧ form.datum? = some d' ∧
      d = .list [.symbol keyword, d'] := by
  simp only [datum?, Option.bind_eq_some_iff, Option.map_eq_some_iff]
  constructor
  · rintro ⟨keyword, quote, d', read, rfl⟩
    exact ⟨keyword, d', quote, read, rfl⟩
  · rintro ⟨keyword, d', quote, read, rfl⟩
    exact ⟨keyword, quote, d', read, rfl⟩

theorem datum?_list : (list opening items closing).datum? = some d ↔
    opening.isOpen = true ∧ closing.isClose = true ∧ ∃ ds, data? items = some ds ∧ d = .list ds := by
  simp only [datum?]
  cases opening.isOpen <;> cases closing.isClose <;> simp [eq_comm]

theorem data?_cons : data? (w :: ws) = some ds ↔
    ∃ d ds', w.datum? = some d ∧ data? ws = some ds' ∧ ds = d :: ds' := by
  simp only [data?, Option.bind_eq_some_iff, Option.map_eq_some_iff]
  constructor
  · rintro ⟨d, read, ds', others, rfl⟩
    exact ⟨d, ds', read, others, rfl⟩
  · rintro ⟨d, ds', read, others, rfl⟩
    exact ⟨d, read, ds', others, rfl⟩

theorem datum?_of_mem (read : data? ws = some ds) (mem : w ∈ ws) : ∃ d ∈ ds, w.datum? = some d := by
  induction ws generalizing ds with
  | nil => cases mem
  | cons w' ws ih =>
    obtain ⟨d, ds', first, others, rfl⟩ := data?_cons.mp read
    rcases List.mem_cons.mp mem with rfl | mem
    · exact ⟨d, List.mem_cons_self, first⟩
    · obtain ⟨d', mem', same⟩ := ih others mem
      exact ⟨d', List.mem_cons_of_mem d mem', same⟩

mutual

/-- The lists in a form that can be read can be read. -/
theorem datum?_lists (w : Written) {d : Datum} (read : w.datum? = some d) :
    ∀ u ∈ w.lists, u.datum?.isSome = true := by
  cases w with
  | atom t => exact nofun
  | marked mark form =>
    obtain ⟨_, _, _, inside, _⟩ := datum?_marked.mp read
    exact datum?_lists form inside
  | list opening items closing =>
    obtain ⟨_, _, ds, inside, _⟩ := datum?_list.mp read
    intro u mem
    rcases List.mem_cons.mp mem with rfl | mem
    · rw [read]
      rfl
    · exact datum?_allLists items inside u mem

theorem datum?_allLists (ws : List Written) {ds : List Datum} (read : data? ws = some ds) :
    ∀ u ∈ allLists ws, u.datum?.isSome = true := by
  cases ws with
  | nil => exact nofun
  | cons w ws =>
    obtain ⟨_, _, first, others, _⟩ := data?_cons.mp read
    intro u mem
    rcases List.mem_append.mp mem with mem | mem
    · exact datum?_lists w first u mem
    · exact datum?_allLists ws others u mem

end

theorem first_mem_lexemes (w : Written) : w.first ∈ w.lexemes := by
  obtain ⟨more, same⟩ := w.lexemes_eq_cons
  rw [same]
  exact List.mem_cons_self

theorem mem_allLexemes (mem : w ∈ ws) (among : t ∈ w.lexemes) : t ∈ allLexemes ws := by
  induction ws with
  | nil => cases mem
  | cons w' ws ih =>
    refine List.mem_append.mpr ?_
    rcases List.mem_cons.mp mem with rfl | mem
    · exact Or.inl among
    · exact Or.inr (ih mem)

mutual

/-- The lexemes of the lists in a form are among those of the form. -/
theorem mem_lexemes_of_lists (w : Written) {u : Written} {t : Lexeme} (mem : u ∈ w.lists)
    (among : t ∈ u.lexemes) : t ∈ w.lexemes := by
  cases w with
  | atom _ => cases mem
  | marked mark form => exact List.mem_cons_of_mem mark (mem_lexemes_of_lists form mem among)
  | list opening items closing =>
    rcases List.mem_cons.mp mem with rfl | mem
    · exact among
    · exact List.mem_cons_of_mem _ (List.mem_append_left _ (mem_lexemes_of_allLists items mem among))

theorem mem_lexemes_of_allLists (ws : List Written) {u : Written} {t : Lexeme} (mem : u ∈ allLists ws)
    (among : t ∈ u.lexemes) : t ∈ allLexemes ws := by
  cases ws with
  | nil => cases mem
  | cons w ws =>
    refine List.mem_append.mpr ?_
    rcases List.mem_append.mp mem with mem | mem
    · exact Or.inl (mem_lexemes_of_lists w mem among)
    · exact Or.inr (mem_lexemes_of_allLists ws mem among)

end

/-- A list among forms is among their lists. -/
theorem mem_allLists (mem : list opening items closing ∈ ws) : list opening items closing ∈ allLists ws := by
  induction ws with
  | nil => cases mem
  | cons w ws ih =>
    refine List.mem_append.mpr ?_
    rcases List.mem_cons.mp mem with rfl | mem
    · exact Or.inl List.mem_cons_self
    · exact Or.inr (ih mem)

end Written

/-! ## Accepted texts -/

/-- The forms that a text is written as. The lists that are open at its end are closed there. -/
structure Writes (text : String) (ws : List Written) (ds : List Datum) : Prop where
  lexemes : ∃ missing, Written.allLexemes ws = scan text.toList ++
    List.replicate missing ⟨[')'], .afterText text.toList, false⟩
  data : Written.data? ws = some ds

mutual

/-- The lexemes of a form write it. -/
theorem written_of_isForm {us : List String} {d : Datum} (h : IsForm us d) {ts : List Lexeme}
    (same : tokensOf ts = us) : ∃ w : Written, w.lexemes = ts ∧ w.datum? = some d := by
  cases h with
  | @atom token _ notOpen notClose notQuote h =>
    obtain ⟨t, rfl, rfl⟩ := List.map_eq_singleton_iff.mp same
    refine ⟨.atom t, rfl, Written.datum?_atom.mpr ⟨?_, ?_, notQuote, h⟩⟩
    · exact Bool.eq_false_iff.mpr fun isOpen => notOpen ((token_eq_open t).mpr isOpen)
    · exact Bool.eq_false_iff.mpr fun isClose => notClose ((token_eq_close t).mpr isClose)
  | @quoted token keyword us d quote form =>
    obtain ⟨t, ts, rfl, rfl, inside⟩ := List.map_eq_cons_iff.mp same
    obtain ⟨w, rfl, read⟩ := written_of_isForm form inside
    exact ⟨.marked t w, rfl, Written.datum?_marked.mpr ⟨keyword, d, quote, read, rfl⟩⟩
  | @list us ds items =>
    obtain ⟨t, ts, rfl, isOpen, more⟩ := List.map_eq_cons_iff.mp same
    obtain ⟨inside, last, rfl, within, closes⟩ := List.map_eq_append_iff.mp more
    obtain ⟨c, rfl, isClose⟩ := List.map_eq_singleton_iff.mp closes
    obtain ⟨ws, rfl, read⟩ := written_of_areForms items within
    refine ⟨.list t ws c, rfl, Written.datum?_list.mpr ⟨?_, ?_, ds, read, rfl⟩⟩
    · exact (token_eq_open t).mp isOpen
    · exact (token_eq_close c).mp isClose

theorem written_of_areForms {us : List String} {ds : List Datum} (h : AreForms us ds) {ts : List Lexeme}
    (same : tokensOf ts = us) :
    ∃ ws : List Written, Written.allLexemes ws = ts ∧ Written.data? ws = some ds := by
  cases h with
  | nil =>
    obtain rfl := List.map_eq_nil_iff.mp same
    exact ⟨[], rfl, rfl⟩
  | @cons us vs d ds first rest =>
    obtain ⟨ts, ts', rfl, one, others⟩ := List.map_eq_append_iff.mp same
    obtain ⟨w, rfl, read⟩ := written_of_isForm first one
    obtain ⟨ws, rfl, more⟩ := written_of_areForms rest others
    exact ⟨w :: ws, rfl, Written.data?_cons.mpr ⟨d, ds, read, more, rfl⟩⟩

end

/-- A text whose forms are all read is written as these forms, and no string in it is left open. -/
theorem writes_of_accepted {text : String} {symbols : SymbolTable} {room : Nat} {ds : List Datum}
    (accepted : (Port.ofText text symbols).forms room = (ds, none)) :
    AllClosed (scan text.toList) ∧ ∃ ws, Writes text ws ds := by
  have short := explained_forms text symbols room
  rw [accepted] at short
  have all := readsAll_forms text symbols room short
  rw [accepted] at all
  obtain ⟨missing, closed, forms⟩ := all
  refine ⟨closed, ?_⟩
  have same : tokensOf (scan text.toList ++
      List.replicate missing ⟨[')'], .afterText text.toList, false⟩) =
      tokensOf (scan text.toList) ++ List.replicate missing ")" := by
    rw [tokensOf_append, tokensOf, tokensOf, List.map_replicate]
    rfl
  obtain ⟨ws, lexemes, data⟩ := written_of_areForms forms same
  exact ⟨ws, ⟨missing, lexemes⟩, data⟩

mutual

/-- The tokens of a form that can be read. -/
theorem isForm_of_written (w : Written) {d : Datum} (read : w.datum? = some d) :
    IsForm (tokensOf w.lexemes) d := by
  cases w with
  | atom t =>
    obtain ⟨isOpen, isClose, notQuote, read⟩ := Written.datum?_atom.mp read
    refine .atom (fun same => ?_) (fun same => ?_) notQuote read
    · rw [(token_eq_open t).mp same] at isOpen
      cases isOpen
    · rw [(token_eq_close t).mp same] at isClose
      cases isClose
  | marked mark form =>
    obtain ⟨_, _, quote, inside, rfl⟩ := Written.datum?_marked.mp read
    exact .quoted quote (isForm_of_written form inside)
  | list opening items closing =>
    obtain ⟨isOpen, isClose, _, inside, rfl⟩ := Written.datum?_list.mp read
    have items := IsForm.list (areForms_of_written items inside)
    rw [← (token_eq_open opening).mpr isOpen, ← (token_eq_close closing).mpr isClose] at items
    simpa only [Written.lexemes, tokensOf, List.map_cons, List.map_append, List.map_nil] using items

theorem areForms_of_written (ws : List Written) {ds : List Datum} (data : Written.data? ws = some ds) :
    AreForms (tokensOf (Written.allLexemes ws)) ds := by
  cases ws with
  | nil =>
    cases data
    exact .nil
  | cons w ws =>
    obtain ⟨_, _, first, others, rfl⟩ := Written.data?_cons.mp data
    rw [Written.allLexemes, tokensOf_append]
    exact .cons (isForm_of_written w first) (areForms_of_written ws others)

end

/-- A text that is written as forms is accepted where there is room for them. -/
theorem accepted_of_written {text : String} {ws : List Written} {ds : List Datum} {room : Nat}
    (lexemes : Written.allLexemes ws = scan text.toList) (closed : AllClosed (scan text.toList))
    (data : Written.data? ws = some ds) (fits : Datum.depths ds ≤ room) (symbols : SymbolTable) :
    (Port.ofText text symbols).forms room = (ds, none) := by
  have gives := Port.Gives.ofText (lexed_scan text.toList) symbols
  have forms := areForms_of_written ws data
  rw [lexemes] at forms
  refine forms.collect fits ?_ rfl closed gives
  rw [tokensOf, List.length_map]
  exact Nat.lt_succ_of_le gives.length_le_unread

end SmallLisp.Editor
