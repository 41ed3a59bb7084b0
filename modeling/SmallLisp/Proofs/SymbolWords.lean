import SmallLisp.Proofs.CursorWords
import SmallLisp.Proofs.RecordedPlaces
/-!
# The word at a symbol

The editor finds a word within the rows of a text, and a word ends at white space and parentheses only. The index
counts lines, and to the reader a symbol ends at quote markers, strings and comments as well. So at the place of a
symbol the editor finds the symbol with whatever touches it, and just the symbol when nothing but white space and
parentheses stands beside it. Rows are lines where newlines, alone or after carriage returns, are the only breaks.
-/
namespace SmallLisp.Text

/-- Every break of a row is a newline or a carriage return with a newline after it. -/
def hasPlainBreaks : List Char → Bool
  | [] => true
  | '\r' :: '\n' :: cs => hasPlainBreaks cs
  | c :: cs => (c == '\n' || !isRowBreak c) && hasPlainBreaks cs

variable {cs before rest first : List Char} {below : List (List Char)}

theorem consRow_of_plain {c : Char} (plain : isRowBreak c = false) (rest : List (List Char)) :
    consRow c rest = extendFirst c rest := by
  rcases consRow_cases c rest with ⟨_, rfl, _⟩ | ⟨isBreak, _⟩ | ⟨_, same⟩
  · cases plain
  · rw [plain] at isBreak
    cases isBreak
  · exact same

/-- Characters that end no row are put into the first row of what follows them. -/
theorem rows_append (plain : ∀ c ∈ cs, isRowBreak c = false) (nonempty : cs ≠ []) (rest : List Char) :
    ∃ first below, rows (cs ++ rest) = (cs ++ first) :: below ∧ first ++ below.flatten = rest := by
  have split : ∃ first below, rows (cs ++ rest) = (cs ++ first) :: below := by
    induction cs with
    | nil => exact absurd rfl nonempty
    | cons c cs ih =>
      obtain ⟨plainFirst, plainRest⟩ := List.forall_mem_cons.mp plain
      rw [List.cons_append, rows_cons, consRow_of_plain plainFirst]
      by_cases last : cs = []
      · subst last
        rw [List.nil_append]
        cases rows rest with
        | nil => exact ⟨[], [], rfl⟩
        | cons row below => exact ⟨row, below, rfl⟩
      · obtain ⟨first, below, same⟩ := ih plainRest last
        rw [same]
        exact ⟨first, below, rfl⟩
  obtain ⟨first, below, split⟩ := split
  refine ⟨first, below, split, ?_⟩
  have whole := flatten_rows (cs ++ rest)
  rw [split, List.flatten_cons, List.append_assoc] at whole
  exact List.append_cancel_left whole

end SmallLisp.Text

namespace SmallLisp.Editor

open Reader Text

variable {cs before after rest first : List Char} {all below : List (List Char)} {c : Char} {p q : Position}

/-! ## Places by rows -/

/-- Some rows have these characters, and then go on with further rows within a row. Counting the rows and the characters
in the last one leads from one place to another. -/
def CountsRows (before : List Char) (all : List (List Char)) (first : List Char) (below : List (List Char))
    (p q : Position) : Prop :=
  ∃ above front, before = above.flatten ++ front ∧ (∀ row ∈ above, row.getLast? = some '\n') ∧
    all = above ++ (front ++ first) :: below ∧
    q = ⟨p.line + above.length, (if above = [] then p.column else 0) + front.length⟩

theorem CountsRows.newline (h : CountsRows cs all first below ⟨p.line + 1, 0⟩ q) (row : List Char)
    (last : row.getLast? = some '\n') : CountsRows (row ++ cs) (row :: all) first below p q := by
  obtain ⟨above, front, rfl, lasts, rfl, rfl⟩ := h
  refine ⟨row :: above, front, ?_, List.forall_mem_cons.mpr ⟨last, lasts⟩, rfl, ?_⟩
  · rw [List.flatten_cons, List.append_assoc]
  · simp only [List.length_cons, if_neg (List.cons_ne_nil _ _), ite_self, Position.mk.injEq, and_true]
    omega

theorem CountsRows.plain (h : CountsRows cs all first below (p.right 1) q) :
    CountsRows (c :: cs) (extendFirst c all) first below p q := by
  obtain ⟨above, front, rfl, lasts, rfl, rfl⟩ := h
  cases above with
  | nil =>
    refine ⟨[], c :: front, rfl, nofun, rfl, ?_⟩
    simp only [Position.right, List.length_nil, List.length_cons, if_pos, Position.mk.injEq, true_and]
    omega
  | cons row above =>
    obtain ⟨last, lasts⟩ := List.forall_mem_cons.mp lasts
    refine ⟨(c :: row) :: above, front, rfl, List.forall_mem_cons.mpr ⟨?_, lasts⟩, rfl, ?_⟩
    · rw [List.getLast?_cons, last]
      rfl
    · simp only [Position.right, List.length_cons, if_neg (List.cons_ne_nil _ _)]

/-- Where all breaks are plain, the place that the index counts by lines is found by rows. -/
theorem countsRows_of_plainBreaks (plain : hasPlainBreaks before = true) (here : rows rest = first :: below)
    (p : Position) : CountsRows before (rows (before ++ rest)) first below p (before.foldl Position.after p) := by
  fun_induction hasPlainBreaks before generalizing p with
  | case1 => exact ⟨[], [], rfl, nofun, here, rfl⟩
  | case2 cs ih =>
    have pair : rows ('\r' :: '\n' :: cs ++ rest) = ['\r', '\n'] :: rows (cs ++ rest) := rfl
    rw [pair]
    exact (ih plain _).newline ['\r', '\n'] rfl
  | case3 c cs notPair ih =>
    rw [Bool.and_eq_true] at plain
    by_cases isNewline : c = '\n'
    · subst isNewline
      have alone : rows ('\n' :: cs ++ rest) = ['\n'] :: rows (cs ++ rest) := rfl
      rw [alone]
      exact (ih plain.2 _).newline ['\n'] rfl
    · have plainFirst : isRowBreak c = false := by
        simpa [isNewline] using plain.1
      have right : p.after c = p.right 1 := if_neg isNewline
      rw [List.cons_append, rows_cons, consRow_of_plain plainFirst, List.foldl_cons, right]
      exact (ih plain.2 _).plain

/-! ## Solid characters -/

/-- Neither white space nor a parenthesis. -/
def isSolid (c : Char) : Bool :=
  !isBlank c && c != '(' && c != ')'

theorem isSolid_newline : isSolid '\n' = false := by
  decide

theorem isBlank_of_isSolid (solid : isSolid c = true) : isBlank c = false := by
  unfold isSolid at solid
  simp only [Bool.and_eq_true, Bool.not_eq_true'] at solid
  exact solid.1.1

theorem isRowBreak_of_isSolid (solid : isSolid c = true) : isRowBreak c = false := by
  have noBlank := isBlank_of_isSolid solid
  unfold isBlank at noBlank
  unfold isRowBreak
  simp only [Bool.or_eq_false_iff, Bool.and_eq_false_iff, decide_eq_false_iff_not, beq_eq_false_iff_ne] at *
  omega

theorem isWordChar_of_isSolid (solid : isSolid c = true) : isWordChar c = true := by
  unfold isWordChar
  rw [Bool.not_eq_true']
  simp only [Bool.or_eq_false_iff, beq_eq_false_iff_ne]
  refine ⟨⟨⟨⟨⟨?_, ?_⟩, ?_⟩, ?_⟩, ?_⟩, ?_⟩ <;> (rintro rfl; cases solid)

/-- A stretch of text with plain breaks before it. White space next to it, or to the solid characters around it, is
such as ends a word. -/
structure PlainAround (before after : List Char) : Prop where
  breaks : hasPlainBreaks before = true
  begins : ∀ c ∈ (before.rdropWhile isSolid).getLast?, isWordChar c = false
  ends : ∀ c ∈ (after.dropWhile isSolid).head?, isWordChar c = false

/-- Solid characters with the solid ones around them. -/
def solidAround (before cs after : List Char) : String :=
  String.ofList (before.rtakeWhile isSolid ++ cs ++ after.takeWhile isSolid)

theorem rtakeWhile_append_of_ends (ends : ∀ c ∈ before.getLast?, isSolid c = false) :
    (before ++ cs).rtakeWhile isSolid = cs.rtakeWhile isSolid := by
  have flipped : ∀ c ∈ before.reverse.head?, isSolid c = false := by
    rwa [List.head?_reverse]
  rw [List.rtakeWhile, List.reverse_append, takeWhile_append_of_ends flipped, List.rtakeWhile]

theorem getLast?_flatten (lasts : ∀ row ∈ all, row.getLast? = some '\n') : ∀ c ∈ all.flatten.getLast?, c = '\n' := by
  intro c last
  induction all using List.reverseRecOn with
  | nil => cases last
  | append_singleton above row _ =>
    have ending := lasts row (by simp)
    have nonempty : row ≠ [] := by
      rintro rfl
      cases ending
    rw [List.flatten_append, List.flatten_singleton, List.getLast?_append_of_ne_nil _ nonempty, ending] at last
    exact (Option.some.inj last).symm

/-- Where white space ends what is before a stretch, it ends what is before it in its row. -/
theorem getLast?_rdropWhile_of_append {front : List Char} (ends : ∀ c ∈ before.getLast?, isSolid c = false)
    (begins : ∀ c ∈ ((before ++ front).rdropWhile isSolid).getLast?, isWordChar c = false) :
    ∀ c ∈ (front.rdropWhile isSolid).getLast?, isWordChar c = false := by
  have whole := List.rdropWhile_append_rtakeWhile (p := isSolid) (l := before ++ front)
  rw [rtakeWhile_append_of_ends ends] at whole
  have part := List.rdropWhile_append_rtakeWhile (p := isSolid) (l := front)
  nth_rewrite 3 [← part] at whole
  rw [← List.append_assoc] at whole
  rw [List.append_cancel_right whole] at begins
  intro c last
  have nonempty : front.rdropWhile isSolid ≠ [] := by
    intro empty
    rw [empty] at last
    cases last
  rw [List.getLast?_append_of_ne_nil _ nonempty] at begins
  exact begins c last

/-- In a row, the word at solid characters goes back to where they begin and on to where they end. -/
theorem wordIn_of_solid {front behind : List Char} {i : Nat} (solid : ∀ c ∈ cs ++ behind, isSolid c = true)
    (begins : ∀ c ∈ (front.rdropWhile isSolid).getLast?, isWordChar c = false)
    (ends : ∀ c ∈ first.head?, isWordChar c = false) (inside : i < cs.length) :
    wordIn (front ++ (cs ++ behind ++ first)) (front.length + i) =
      some (String.ofList (front.rtakeWhile isSolid ++ cs ++ behind)) := by
  have cut := List.rdropWhile_append_rtakeWhile (p := isSolid) (l := front)
  have lengths := congrArg List.length cut
  rw [List.length_append] at lengths
  have row : front ++ (cs ++ behind ++ first) =
      front.rdropWhile isSolid ++ (front.rtakeWhile isSolid ++ cs ++ behind) ++ first := by
    nth_rewrite 1 [← cut]
    simp only [List.append_assoc]
  have isWord : ∀ c ∈ front.rtakeWhile isSolid ++ cs ++ behind, isWordChar c = true := by
    intro c mem
    rw [List.append_assoc] at mem
    rcases List.mem_append.mp mem with before | here
    · exact isWordChar_of_isSolid (List.mem_rtakeWhile_imp before)
    · exact isWordChar_of_isSolid (solid c here)
  have nonempty : front.rtakeWhile isSolid ++ cs ++ behind ≠ [] := by
    intro empty
    have short := congrArg List.length empty
    simp only [List.length_append, List.length_nil] at short
    omega
  have reaches : front.length + i ≤
      (front.rdropWhile isSolid).length + (front.rtakeWhile isSolid ++ cs ++ behind).length := by
    simp only [List.length_append]
    omega
  have inRow : front.length + i ≤ (front ++ (cs ++ behind ++ first)).length := by
    simp only [List.length_append]
    omega
  have word := isWordAt_of_split row isWord begins ends (by omega) reaches
  rw [if_neg nonempty] at word
  exact (isWordAt_wordIn inRow).unique word

/-- The word at each of some solid characters. -/
theorem wordAt_of_plainAround {text : String} (split : text.toList = before ++ cs ++ after)
    (plain : PlainAround before after) (solid : ∀ c ∈ cs, isSolid c = true) {i : Nat} (inside : i < cs.length) :
    wordAt text (Position.afterText before).line ((Position.afterText before).column + i) =
      .ok (some (solidAround before cs after)) := by
  have onward : ∀ c ∈ cs ++ after.takeWhile isSolid, isSolid c = true := by
    intro c mem
    rcases List.mem_append.mp mem with here | behind
    · exact solid c here
    · exact List.mem_takeWhile_imp behind
  have nonempty : cs ++ after.takeWhile isSolid ≠ [] := by
    intro empty
    rw [(List.append_eq_nil_iff.mp empty).1] at inside
    cases inside
  obtain ⟨first, below, here, rest⟩ :=
    rows_append (fun c mem => isRowBreak_of_isSolid (onward c mem)) nonempty (after.dropWhile isSolid)
  obtain ⟨above, front, rfl, lasts, all, place⟩ := countsRows_of_plainBreaks plain.breaks here ⟨0, 0⟩
  have whole : text.toList =
      above.flatten ++ front ++ (cs ++ after.takeWhile isSolid ++ after.dropWhile isSolid) := by
    rw [split, List.append_assoc cs, List.takeWhile_append_dropWhile, List.append_assoc _ cs]
  have found : (rows text.toList)[above.length]? = some (front ++ (cs ++ after.takeWhile isSolid ++ first)) := by
    rw [whole, all]
    simp
  have counted : Position.afterText (above.flatten ++ front) = ⟨above.length, front.length⟩ := by
    rw [Position.afterText, place]
    simp
  have inRow : ¬ (front ++ (cs ++ after.takeWhile isSolid ++ first)).length < front.length + i := by
    simp only [List.length_append]
    omega
  have ended : ∀ c ∈ above.flatten.getLast?, isSolid c = false := by
    intro c last
    rw [getLast?_flatten lasts c last]
    exact isSolid_newline
  have behind : ∀ c ∈ first.head?, isWordChar c = false := by
    intro c next
    refine plain.ends c ?_
    rw [← rest, List.head?_append, next]
    rfl
  rw [wordAt_eq, counted, found]
  dsimp only
  rw [if_neg inRow, wordIn_of_solid onward (getLast?_rdropWhile_of_append ended plain.begins) behind inside, solidAround,
    rtakeWhile_append_of_ends ended]

theorem takeWhile_eq_nil_iff : cs.takeWhile isSolid = [] ↔ ∀ c ∈ cs.head?, isSolid c = false := by
  cases cs <;> simp [List.takeWhile_cons]

/-- The characters are alone just when no solid one touches them. -/
theorem solidAround_eq_iff : solidAround before cs after = String.ofList cs ↔
    (∀ c ∈ before.getLast?, isSolid c = false) ∧ ∀ c ∈ after.head?, isSolid c = false := by
  have none : solidAround before cs after = String.ofList cs ↔
      before.rtakeWhile isSolid = [] ∧ after.takeWhile isSolid = [] := by
    constructor
    · intro same
      have lengths := congrArg String.length same
      simp only [solidAround, String.length_ofList, List.length_append] at lengths
      exact ⟨List.length_eq_zero_iff.mp (by omega), List.length_eq_zero_iff.mp (by omega)⟩
    · rintro ⟨noneBefore, noneAfter⟩
      rw [solidAround, noneBefore, noneAfter, List.nil_append, List.append_nil]
  rw [none, List.rtakeWhile, List.reverse_eq_nil_iff, takeWhile_eq_nil_iff, takeWhile_eq_nil_iff, List.head?_reverse]

/-! ## Lexemes -/

variable {place : Position} {ts : List Lexeme} {t : Lexeme} {d : Definition}

theorem isSolid_of_isAtomChar (atom : isAtomChar c = true) : isSolid c = true := by
  have noBlank := isBlank_of_isAtomChar atom
  have noMark := isPunctuation_of_isAtomChar atom
  unfold isSolid
  rw [noBlank]
  by_cases opening : c = '('
  · subst opening
    cases noMark
  · by_cases closing : c = ')'
    · subst closing
      cases noMark
    · simp [opening, closing]

/-- A lexeme that may be a name is solid. -/
theorem Lexed.isSolid (h : Lexed place cs ts) : ∀ t ∈ ts, t.IsName → ∀ c ∈ t.text, isSolid c = true := by
  induction h with
  | done => exact nofun
  | blank _ _ ih => exact ih
  | comment _ _ _ ih => exact ih
  | @lexeme place text rest ts stands _ ih =>
    refine List.forall_mem_cons.mpr ⟨fun isName => ?_, ih⟩
    cases stands with
    | @mark c _ mark _ =>
      refine List.forall_mem_singleton.mpr ?_
      unfold isPunctuation at mark
      simp only [Bool.or_eq_true, beq_iff_eq] at mark
      rcases mark with (((rfl | rfl) | rfl) | rfl) | rfl
      · cases isName.notOpen
      · cases isName.notClose
      · rfl
      · rfl
      · rfl
    | splice => exact List.forall_mem_cons.mpr ⟨rfl, List.forall_mem_singleton.mpr rfl⟩
    | string => cases isName.notString
    | atom isAtom => exact fun c mem => isSolid_of_isAtomChar (isAtom.2 c mem)
  | openString _ _ _ _ ih =>
    refine List.forall_mem_cons.mpr ⟨fun isName => ?_, ih⟩
    cases isName.notString

theorem isName_of_symbol (symbol : IsForm [t.token] (.symbol t.token)) : t.IsName := by
  generalize same : [t.token] = us at symbol
  cases symbol with
  | atom notOpen notClose notQuote read =>
    obtain rfl := List.singleton_inj.mp same
    constructor
    · exact Bool.eq_false_iff.mpr fun isOpen => notOpen ((token_eq_open t).mpr isOpen)
    · exact Bool.eq_false_iff.mpr fun isClose => notClose ((token_eq_close t).mpr isClose)
    · refine Bool.eq_false_iff.mpr fun isString => ?_
      rcases atom_cases read with ⟨_, s, other⟩ | ⟨unquoted, _⟩
      · cases other
      · exact unquoted ((isString_iff t).mp isString)

theorem IsTarget.isName (h : IsTarget ts t) : t.IsName := by
  obtain ⟨before, after, rfl, aims⟩ := h
  cases aims with
  | direct _ _ isName => exact isName
  | first _ _ _ isName => exact isName

/-- A definition is recorded where its name stands. -/
theorem exists_parts_of_definition {text : String} (mem : d ∈ (Index.ofText text).definitions) :
    (∀ c ∈ d.name.toList, isSolid c = true) ∧
      ∃ before after, text.toList = before ++ d.name.toList ++ after ∧ d.place = .afterText before := by
  obtain ⟨t, target, records⟩ := isTarget_of_mem (index_last text mem).1
  have lexed := lexed_scan text.toList
  have name : d.name.toList = t.text := by
    rw [records.name, Lexeme.token, String.toList_ofList]
  obtain ⟨before, after, parts⟩ := lexed.parts t target.mem
  rw [name, records.place]
  exact ⟨lexed.isSolid t target.mem target.isName, before, after, parts.split, parts.place⟩

theorem describe?_of_mem {text : String} (mem : d ∈ (Index.ofText text).definitions) :
    Workspace.describe? (Index.ofText text) d.name = some ((signatures.lookup d.name).getD
      (d.name ++ ": " ++ d.kind.text ++ " (defined at " ++ toString (d.place.line + 1) ++ ":" ++
        toString (d.place.column + 1) ++ ")")) := by
  unfold Workspace.describe?
  rw [find?_of_mem_definitions text mem]
  cases signatures.lookup d.name <;> rfl

/-- The word at the place of a symbol in a text. It is the symbol with the solid characters that touch it, at each of
its own characters, and so it is the symbol itself just when none does. The definition of a name that stands alone is
shown at the place where it is recorded, or the signature if the name is built in. -/
theorem word_at_symbol (text : String) :
    (∀ t ∈ scan text.toList, IsForm [t.token] (.symbol t.token) →
      (∃ before after, t.Parts ⟨0, 0⟩ text.toList before after) ∧
      ∀ before after, t.Parts ⟨0, 0⟩ text.toList before after → PlainAround before after →
        (∀ i < t.text.length, wordAt text t.place.line (t.place.column + i) =
          .ok (some (solidAround before t.text after))) ∧
        (solidAround before t.text after = t.token ↔
          (∀ c ∈ before.getLast?, isSolid c = false) ∧ ∀ c ∈ after.head?, isSolid c = false)) ∧
    ∀ (w : Workspace) uri, w.document? uri = some ⟨text, Index.ofText text⟩ → ∀ d ∈ (Index.ofText text).definitions,
      (∃ before after, text.toList = before ++ d.name.toList ++ after ∧ d.place = .afterText before) ∧
      ∀ before after, text.toList = before ++ d.name.toList ++ after → d.place = .afterText before →
        PlainAround before after → (∀ c ∈ before.getLast?, isSolid c = false) →
        (∀ c ∈ after.head?, isSolid c = false) →
        ∀ i < d.name.length, w.hover uri d.place.line (d.place.column + i) =
          .ok (some ((signatures.lookup d.name).getD (d.name ++ ": " ++ d.kind.text ++ " (defined at " ++
            toString (d.place.line + 1) ++ ":" ++ toString (d.place.column + 1) ++ ")"))) := by
  constructor
  · intro t mem symbol
    have lexed := lexed_scan text.toList
    have solid := lexed.isSolid t mem (isName_of_symbol symbol)
    refine ⟨lexed.parts t mem, ?_⟩
    intro before after parts plain
    refine ⟨?_, solidAround_eq_iff⟩
    intro i inside
    rw [parts.place]
    exact wordAt_of_plainAround parts.split plain solid inside
  · intro w uri isOpen d mem
    obtain ⟨solid, exists_⟩ := exists_parts_of_definition mem
    refine ⟨exists_, ?_⟩
    intro before after split place plain begins ends i inside
    have word := wordAt_of_plainAround split plain solid inside
    rw [solidAround_eq_iff.mpr ⟨begins, ends⟩, String.ofList_toList, ← place] at word
    unfold Workspace.hover
    rw [isOpen]
    dsimp only
    rw [word]
    exact congrArg Except.ok (describe?_of_mem mem)

/-- A symbol that stands alone in the second row, behind a carriage return and a newline. -/
theorem word_at_symbol_alone : wordAt "(f\r\n x)" 1 1 = .ok (some "x") := by
  have among : ⟨['x'], ⟨1, 1⟩, false⟩ ∈ scan "(f\r\n x)".toList := by decide
  have symbol : IsForm ["x"] (.symbol "x") := .atom (by decide) (by decide) rfl rfl
  have parts : Lexeme.Parts ⟨['x'], ⟨1, 1⟩, false⟩ ⟨0, 0⟩ "(f\r\n x)".toList ['(', 'f', '\r', '\n', ' '] [')'] :=
    ⟨rfl, rfl, by decide⟩
  have plain : PlainAround ['(', 'f', '\r', '\n', ' '] [')'] := ⟨rfl, by rintro c ⟨⟩; rfl, by rintro c ⟨⟩; rfl⟩
  obtain ⟨word, alone⟩ := ((word_at_symbol "(f\r\n x)").1 _ among symbol).2 _ _ parts plain
  rw [alone.mpr ⟨by rintro c ⟨⟩; rfl, by rintro c ⟨⟩; rfl⟩] at word
  exact word 0 (by decide)

/-- A quote marker touches the symbol behind it and is found as a part of the word. -/
theorem word_at_quoted_symbol :
    (Port.ofText "'x" ⟨0, []⟩).forms 40 = ([.list [.symbol "quote", .symbol "x"]], none) ∧
      ⟨['x'], ⟨0, 1⟩, false⟩ ∈ scan "'x".toList ∧ IsForm ["x"] (.symbol "x") ∧
      wordAt "'x" 0 1 = .ok (some "'x") ∧ wordAt "'x" 0 1 ≠ .ok (some "x") := by
  refine ⟨rfl, by decide, .atom (by decide) (by decide) rfl rfl, rfl, ?_⟩
  have found : wordAt "'x" 0 1 = .ok (some "'x") := rfl
  rw [found]
  simp

end SmallLisp.Editor
