import Mathlib.Data.List.DropRight
import SmallLisp.Editor.Word
/-!
# The word at a cursor

A cursor stands before a character of its row or at the end of the row. The word there is the greatest run of word
characters that contains or touches the cursor. It is found for every cursor in a row. An editor may also put a cursor
beyond the end of its line and mean the end of the line by it; such a cursor is not moved back, and beyond the break of
its row it is refused.
-/
namespace SmallLisp.Text

/-- What is taken from the front goes no further when it is ended there. -/
theorem takeWhile_append_of_ends {α : Type} {p : α → Bool} {xs ys : List α} (ends : ∀ y ∈ ys.head?, p y = false) :
    (xs ++ ys).takeWhile p = xs.takeWhile p := by
  induction xs with
  | nil =>
    cases ys with
    | nil => rfl
    | cons y ys => simp [ends y rfl]
  | cons x xs ih =>
    rw [List.cons_append, List.takeWhile_cons, List.takeWhile_cons, ih]

/-- The parts of a row: characters that end no row, and then its break, unless the text ends there. -/
structure IsRow (body ending : List Char) : Prop where
  body : ∀ c ∈ body, isRowBreak c = false
  ending : ending = [] ∨ ending = ['\r', '\n'] ∨ ∃ c, isRowBreak c = true ∧ ending = [c]

/-- The length of a row without its break. -/
def lineEnd (row : List Char) : Nat :=
  (row.takeWhile fun c => !isRowBreak c).length

variable {row body ending : List Char}

theorem IsRow.head?_ending (h : IsRow body ending) : ∀ c ∈ ending.head?, isRowBreak c = true := by
  intro c first
  rcases h.ending with rfl | rfl | ⟨d, isBreak, rfl⟩
  · cases first
  · cases first
    decide
  · cases first
    exact isBreak

theorem IsRow.lineEnd_eq (h : IsRow body ending) : lineEnd (body ++ ending) = body.length := by
  have plain : ∀ c ∈ body, (!isRowBreak c) = true := by
    intro c mem
    simp [h.body c mem]
  have ends : ∀ c ∈ ending.head?, (!isRowBreak c) = false := by
    intro c first
    simp [h.head?_ending c first]
  rw [lineEnd, takeWhile_append_of_ends ends, List.takeWhile_eq_self_iff.mpr plain]

theorem IsRow.cons {c : Char} (h : IsRow body ending) (plain : isRowBreak c = false) : IsRow (c :: body) ending where
  body := List.forall_mem_cons.mpr ⟨plain, h.body⟩
  ending := h.ending

/-- A character in front of rows: it joins a newline that stands alone, or is a break itself, or is put into the
first row. -/
theorem consRow_cases (c : Char) (rest : List (List Char)) :
    (∃ below, c = '\r' ∧ rest = ['\n'] :: below ∧ consRow c rest = ['\r', '\n'] :: below) ∨
      (isRowBreak c = true ∧ consRow c rest = [c] :: rest) ∨
      (isRowBreak c = false ∧ consRow c rest = extendFirst c rest) := by
  unfold consRow
  by_cases isReturn : c = '\r'
  · rw [if_pos isReturn]
    split
    · rename_i below
      exact Or.inl ⟨below, isReturn, rfl, rfl⟩
    · subst isReturn
      exact Or.inr (Or.inl ⟨rfl, rfl⟩)
  · rw [if_neg isReturn]
    cases isBreak : isRowBreak c with
    | true => exact Or.inr (Or.inl ⟨rfl, if_pos rfl⟩)
    | false => exact Or.inr (Or.inr ⟨rfl, if_neg Bool.false_ne_true⟩)

/-- Every row is made so. -/
theorem isRow_of_mem_rows (cs : List Char) :
    ∀ row ∈ rows cs, ∃ body ending, row = body ++ ending ∧ IsRow body ending := by
  induction cs with
  | nil => exact nofun
  | cons c cs ih =>
    intro row mem
    rw [rows_cons] at mem
    rcases consRow_cases c (rows cs) with ⟨below, _, above, same⟩ | ⟨isBreak, same⟩ | ⟨plain, same⟩
    · rw [same] at mem
      rcases List.mem_cons.mp mem with rfl | later
      · exact ⟨[], _, rfl, nofun, Or.inr (Or.inl rfl)⟩
      · exact ih row (above ▸ List.mem_cons_of_mem _ later)
    · rw [same] at mem
      rcases List.mem_cons.mp mem with rfl | later
      · exact ⟨[], _, rfl, nofun, Or.inr (Or.inr ⟨c, isBreak, rfl⟩)⟩
      · exact ih row later
    · rw [same] at mem
      cases below : rows cs with
      | nil =>
        rw [below, extendFirst, List.mem_singleton] at mem
        exact ⟨[c], [], mem, List.forall_mem_singleton.mpr plain, Or.inl rfl⟩
      | cons first others =>
        rw [below, extendFirst] at mem
        rw [below] at ih
        rcases List.mem_cons.mp mem with rfl | later
        · obtain ⟨body, ending, rfl, isRow⟩ := ih first List.mem_cons_self
          exact ⟨c :: body, ending, rfl, isRow.cons plain⟩
        · exact ih row (List.mem_cons_of_mem _ later)

end SmallLisp.Text

namespace SmallLisp.Editor

/-- A stretch of a row that has word characters only and contains or touches a cursor. -/
structure IsRun (row : List Char) (column start stop : Nat) : Prop where
  begins : start ≤ column
  ends : column ≤ stop
  inRow : stop ≤ row.length
  isWord : ∀ i, start ≤ i → i < stop → ∀ c ∈ row[i]?, isWordChar c = true

/-- Every run at the cursor is a part of this one. -/
structure IsGreatestRun (row : List Char) (column start stop : Nat) : Prop where
  isRun : IsRun row column start stop
  greatest : ∀ s e, IsRun row column s e → start ≤ s ∧ e ≤ stop

/-- The characters of the greatest run at a cursor, none if it is empty. -/
def IsWordAt (row : List Char) (column : Nat) (word : Option String) : Prop :=
  ∃ start stop, IsGreatestRun row column start stop ∧
    word = if start = stop then none else some (String.ofList ((row.take stop).drop start))

variable {row front run rest : List Char} {column start stop : Nat} {word : Option String}

theorem runBefore_eq (cs : List Char) : runBefore cs = cs.rtakeWhile isWordChar := rfl

/-- What is left when the last characters of a kind are dropped does not end in one. -/
theorem last_rdropWhile (p : Char → Bool) (cs : List Char) : ∀ c ∈ (cs.rdropWhile p).getLast?, p c = false := by
  intro c last
  have nonempty : cs.rdropWhile p ≠ [] := by
    intro none
    rw [none] at last
    cases last
  have no := List.rdropWhile_last_not p cs nonempty
  rw [List.getLast?_eq_getLast_of_ne_nil nonempty] at last
  exact Option.some.inj last ▸ Bool.eq_false_iff.mpr no

/-- A run is the greatest when no word character stands before or behind it. -/
theorem isGreatestRun_of_split (isWord : ∀ c ∈ run, isWordChar c = true)
    (before : ∀ c ∈ front.getLast?, isWordChar c = false) (behind : ∀ c ∈ rest.head?, isWordChar c = false)
    (begins : front.length ≤ column) (ends : column ≤ front.length + run.length) :
    IsGreatestRun (front ++ run ++ rest) column front.length (front.length + run.length) := by
  constructor
  · constructor
    · exact begins
    · exact ends
    · simp only [List.length_append]
      omega
    · intro i from' below c found
      rw [List.append_assoc, List.getElem?_append_right from', List.getElem?_append_left (by omega)] at found
      exact isWord c (List.mem_of_getElem? found)
  · intro s e other
    have inRow := other.inRow
    have begins := other.begins
    have ends := other.ends
    simp only [List.length_append] at inRow
    constructor
    · -- the character before the run would be in the other one
      by_contra early
      have last : (front ++ run ++ rest)[front.length - 1]? = front.getLast? := by
        rw [List.append_assoc, List.getElem?_append_left (by omega), List.getLast?_eq_getElem?]
      obtain ⟨c, found⟩ : ∃ c, front.getLast? = some c := by
        cases front with
        | nil => simp at early
        | cons d more => exact ⟨_, List.getLast?_cons⟩
      have inside := other.isWord (front.length - 1) (by omega) (by omega) c (last.trans found)
      rw [before c found] at inside
      cases inside
    · by_contra late
      have first : (front ++ run ++ rest)[front.length + run.length]? = rest.head? := by
        rw [List.getElem?_append_right (by simp), List.head?_eq_getElem?]
        simp
      obtain ⟨c, found⟩ : ∃ c, rest.head? = some c := by
        cases rest with
        | nil => simp at inRow; omega
        | cons d more => exact ⟨d, rfl⟩
      have inside := other.isWord _ (by omega) (by omega) c (first.trans found)
      rw [behind c found] at inside
      cases inside

theorem IsGreatestRun.unique {start' stop' : Nat} (h : IsGreatestRun row column start stop)
    (h' : IsGreatestRun row column start' stop') : start = start' ∧ stop = stop' := by
  have := h.greatest start' stop' h'.isRun
  have := h'.greatest start stop h.isRun
  omega

theorem IsWordAt.unique {word' : Option String} (h : IsWordAt row column word) (h' : IsWordAt row column word') :
    word = word' := by
  obtain ⟨start, stop, greatest, rfl⟩ := h
  obtain ⟨start', stop', greatest', rfl⟩ := h'
  obtain ⟨rfl, rfl⟩ := greatest.unique greatest'
  rfl

/-- The word of a run that cannot be extended. -/
theorem isWordAt_of_split (split : row = front ++ run ++ rest) (isWord : ∀ c ∈ run, isWordChar c = true)
    (before : ∀ c ∈ front.getLast?, isWordChar c = false) (behind : ∀ c ∈ rest.head?, isWordChar c = false)
    (begins : front.length ≤ column) (ends : column ≤ front.length + run.length) :
    IsWordAt row column (if run = [] then none else some (String.ofList run)) := by
  subst split
  refine ⟨_, _, isGreatestRun_of_split isWord before behind begins ends, ?_⟩
  by_cases empty : run = []
  · simp [empty]
  · have positive : 0 < run.length := List.length_pos_iff.mpr empty
    rw [if_neg empty, if_neg (by omega), ← List.length_append, List.take_left, List.drop_left]

/-- The word found at a cursor in its row. -/
def wordIn (row : List Char) (column : Nat) : Option String :=
  if runAround row column = [] then none else some (String.ofList (runAround row column))

theorem isWordAt_wordIn (inRow : column ≤ row.length) : IsWordAt row column (wordIn row column) := by
  have split : row = (row.take column).rdropWhile isWordChar ++ runAround row column ++
      (row.drop column).dropWhile isWordChar := by
    rw [runAround, runBefore_eq, ← List.append_assoc, List.rdropWhile_append_rtakeWhile, List.append_assoc,
      List.takeWhile_append_dropWhile, List.take_append_drop]
  have lengths := congrArg List.length (List.rdropWhile_append_rtakeWhile (p := isWordChar) (l := row.take column))
  rw [List.length_append, List.length_take, Nat.min_eq_left inRow] at lengths
  apply isWordAt_of_split split
  · intro c mem
    rcases List.mem_append.mp mem with before | behind
    · exact List.mem_rtakeWhile_imp before
    · exact List.mem_takeWhile_imp behind
  · exact last_rdropWhile isWordChar _
  · intro c first
    have no := List.head?_dropWhile_not isWordChar (row.drop column)
    rw [first] at no
    exact no
  · omega
  · rw [runAround, List.length_append, runBefore_eq]
    omega

theorem wordAt_eq (text : String) (line column : Nat) :
    wordAt text line column = match (Text.rows text.toList)[line]? with
      | none => .ok none
      | some row => if row.length < column then .error .stringIndex else .ok (wordIn row column) := by
  unfold wordAt wordIn
  cases (Text.rows text.toList)[line]? with
  | none => rfl
  | some row =>
    dsimp only
    by_cases beyond : row.length < column
    · rw [if_pos beyond, if_pos beyond]
    · rw [if_neg beyond, if_neg beyond]
      cases runAround row column <;> simp

/-! ## Cursors behind the end of a line -/

variable {body ending : List Char}

/-- No character of the break is a word character: there is no word behind the end of the line. -/
theorem wordIn_of_break (silent : ∀ c ∈ ending, isWordChar c = false) (behind : body.length < column)
    (inRow : column ≤ (body ++ ending).length) : wordIn (body ++ ending) column = none := by
  rw [List.length_append] at inRow
  obtain ⟨n, rfl⟩ : ∃ n, column = body.length + (n + 1) := ⟨column - body.length - 1, by omega⟩
  have split : body ++ ending = body ++ ending.take (n + 1) ++ [] ++ ending.drop (n + 1) := by simp
  have empty : IsWordAt (body ++ ending) (body.length + (n + 1)) none := by
    apply isWordAt_of_split split nofun
    · intro c last
      have nonempty : ending.take (n + 1) ≠ [] := by
        cases ending with
        | nil =>
          simp only [List.length_nil] at inRow
          omega
        | cons d more => exact List.cons_ne_nil _ _
      rw [List.getLast?_append_of_ne_nil _ nonempty] at last
      exact silent c (List.mem_of_mem_take (List.mem_of_getLast? last))
    · intro c first
      exact silent c (List.mem_of_mem_drop (List.mem_of_head? first))
    · simp only [List.length_append, List.length_take]
      omega
    · simp only [List.length_append, List.length_take, List.length_nil]
      omega
  exact (isWordAt_wordIn (by simpa using inRow)).unique empty

/-- A break that is a word character goes on with the word before it, so the word is the same on both sides of it. -/
theorem isWordAt_lineEnd_of_break {c : Char} (isWord : isWordChar c = true) :
    IsWordAt (body ++ [c]) body.length (wordIn (body ++ [c]) (body.length + 1)) := by
  have split : body ++ [c] = body.rdropWhile isWordChar ++ (body.rtakeWhile isWordChar ++ [c]) ++ [] := by
    rw [List.append_nil, ← List.append_assoc, List.rdropWhile_append_rtakeWhile]
  have lengths := congrArg List.length (List.rdropWhile_append_rtakeWhile (p := isWordChar) (l := body))
  rw [List.length_append] at lengths
  have isRun : ∀ d ∈ body.rtakeWhile isWordChar ++ [c], isWordChar d = true := by
    intro d mem
    rcases List.mem_append.mp mem with before | last
    · exact List.mem_rtakeWhile_imp before
    · exact List.mem_singleton.mp last ▸ isWord
  have word (column : Nat) (near : column = body.length ∨ column = body.length + 1) :
      IsWordAt (body ++ [c]) column (some (String.ofList (body.rtakeWhile isWordChar ++ [c]))) := by
    have reaches : column ≤ (body.rdropWhile isWordChar).length + (body.rtakeWhile isWordChar ++ [c]).length := by
      rw [List.length_append, List.length_singleton]
      omega
    have whole := isWordAt_of_split split isRun (last_rdropWhile isWordChar body) nofun (by omega) reaches
    rwa [if_neg (List.concat_ne_nil c _)] at whole
  have inRow : body.length + 1 ≤ (body ++ [c]).length := by simp
  rw [(isWordAt_wordIn inRow).unique (word _ (Or.inr rfl))]
  exact word _ (Or.inl rfl)

/-- A break has no word character, or it is one. -/
theorem ending_cases (isRow : Text.IsRow body ending) :
    (∀ c ∈ ending, isWordChar c = false) ∨ ∃ c, isWordChar c = true ∧ ending = [c] := by
  rcases isRow.ending with rfl | rfl | ⟨c, _, rfl⟩
  · exact Or.inl nofun
  · exact Or.inl (List.forall_mem_cons.mpr ⟨rfl, List.forall_mem_singleton.mpr rfl⟩)
  · cases isWord : isWordChar c with
    | true => exact Or.inr ⟨c, isWord, rfl⟩
    | false => exact Or.inl (List.forall_mem_singleton.mpr isWord)

/-- Behind the end of a line the word is that at the end of the line just when there is none there, or the break is a
word character itself. -/
theorem isWordAt_lineEnd_iff (isRow : Text.IsRow body ending) (behind : body.length < column)
    (inRow : column ≤ (body ++ ending).length) :
    IsWordAt (body ++ ending) body.length (wordIn (body ++ ending) column) ↔
      IsWordAt (body ++ ending) body.length none ∨ ∃ c ∈ (body ++ ending).getLast?, isWordChar c = true := by
  rcases ending_cases isRow with silent | ⟨c, isWord, rfl⟩
  · have noWord : ¬ ∃ c ∈ (body ++ ending).getLast?, isWordChar c = true := by
      rintro ⟨c, isLast, isWord⟩
      have nonempty : ending ≠ [] := by
        rintro rfl
        rw [List.append_nil] at inRow
        omega
      rw [List.getLast?_append_of_ne_nil _ nonempty] at isLast
      rw [silent c (List.mem_of_getLast? isLast)] at isWord
      cases isWord
    rw [wordIn_of_break silent behind inRow, or_iff_left noWord]
  · obtain rfl : column = body.length + 1 := by
      rw [List.length_append, List.length_singleton] at inRow
      omega
    have before : IsWordAt (body ++ [c]) body.length _ := isWordAt_lineEnd_of_break isWord
    exact ⟨fun _ => Or.inr ⟨c, List.getLast?_concat, isWord⟩, fun _ => before⟩

/-- A row that has the given number, and the cursor in it. A word is found for every cursor that is not beyond the row,
and it is the greatest run there, none just when this is empty; a cursor beyond the row is refused. A cursor behind the
end of its line gets the word at the end of the line just when the break does not hide it: when there is no such word,
or the break is a word character itself. Where there is no row there is no word. -/
theorem word_at_cursor (text : String) (line column : Nat) :
    ((Text.rows text.toList)[line]? = none → wordAt text line column = .ok none) ∧
    ∀ row, (Text.rows text.toList)[line]? = some row →
      (column ≤ row.length → ∃ word, IsWordAt row column word ∧ wordAt text line column = .ok word) ∧
      (row.length < column → wordAt text line column = .error .stringIndex) ∧
      ((∃ word, IsWordAt row (min column (Text.lineEnd row)) word ∧ wordAt text line column = .ok word) ↔
        column ≤ Text.lineEnd row ∨ column ≤ row.length ∧
          (IsWordAt row (Text.lineEnd row) none ∨ ∃ c ∈ row.getLast?, isWordChar c = true)) := by
  constructor
  · intro missing
    rw [wordAt_eq, missing]
  · intro row found
    obtain ⟨body, ending, rfl, isRow⟩ := Text.isRow_of_mem_rows _ row (List.mem_of_getElem? found)
    have within (inRow : column ≤ (body ++ ending).length) :
        wordAt text line column = .ok (wordIn (body ++ ending) column) := by
      rw [wordAt_eq, found]
      exact if_neg (Nat.not_lt_of_le inRow)
    have beyond (out : (body ++ ending).length < column) : wordAt text line column = .error .stringIndex := by
      rw [wordAt_eq, found]
      exact if_pos out
    refine ⟨fun inRow => ⟨_, isWordAt_wordIn inRow, within inRow⟩, beyond, ?_⟩
    rw [isRow.lineEnd_eq]
    have given (inRow : column ≤ (body ++ ending).length) (end' : Nat) :
        (∃ word, IsWordAt (body ++ ending) end' word ∧ wordAt text line column = .ok word) ↔
          IsWordAt (body ++ ending) end' (wordIn (body ++ ending) column) := by
      rw [within inRow]
      constructor
      · rintro ⟨word, isWordAt, same⟩
        cases same
        exact isWordAt
      · intro isWordAt
        exact ⟨_, isWordAt, rfl⟩
    by_cases inLine : column ≤ body.length
    · have inRow : column ≤ (body ++ ending).length := by
        rw [List.length_append]
        omega
      rw [Nat.min_eq_left inLine, given inRow]
      exact ⟨fun _ => Or.inl inLine, fun _ => isWordAt_wordIn inRow⟩
    · rw [Nat.min_eq_right (by omega), or_iff_right inLine]
      by_cases inRow : column ≤ (body ++ ending).length
      · rw [given inRow, isWordAt_lineEnd_iff isRow (by omega) inRow, and_iff_right inRow]
      · rw [beyond (by omega)]
        constructor
        · rintro ⟨word, _, same⟩
          cases same
        · rintro ⟨inRow', _⟩
          exact absurd inRow' inRow

end SmallLisp.Editor
