import Mathlib.Data.List.DropRight
import SmallLisp.Editor.Scan
import SmallLisp.Proofs.Ports
import SmallLisp.Proofs.Tokens
/-!
# How a text is made of lexemes

A text is blanks, comments and lexemes, one after another. The relation `Lexed` says so with the place of
every lexeme. The scan of the whole text gives lexemes that it is made of, and a port, which sees one line at
a time, gives the same ones; it stops at the first string that is left open.
-/
namespace SmallLisp.Editor

open Reader

/-- The text of a line is ended. -/
def AtLineEnd (rest : List Char) : Prop :=
  ∀ c ∈ rest.head?, c = '\n'

/-- A text is one whole lexeme when this follows it: a comma does not become a splice, and an atom does
not go on. -/
inductive Stands : (text rest : List Char) → Prop where
  | mark {c : Char} {rest : List Char} (h : isPunctuation c = true)
      (whole : c = ',' → rest.head? ≠ some '@') : Stands [c] rest
  | splice {rest : List Char} : Stands [',', '@'] rest
  | string {body rest : List Char} (h : IsStringToken body) : Stands ('"' :: (body ++ ['"'])) rest
  | atom {text rest : List Char} (h : IsAtomToken text) (ends : Ends rest) : Stands text rest

/-- A text that begins at a place and the lexemes that it is made of. -/
inductive Lexed : Position → List Char → List Lexeme → Prop where
  | done {place : Position} : Lexed place [] []
  | blank {place : Position} {c : Char} {rest : List Char} {ts : List Lexeme}
      (h : Text.isBlank c = true) (more : Lexed (place.after c) rest ts) : Lexed place (c :: rest) ts
  | comment {place : Position} {body rest : List Char} {ts : List Lexeme} (inLine : '\n' ∉ body)
      (ended : AtLineEnd rest) (more : Lexed (place.right (body.length + 1)) rest ts) :
      Lexed place (';' :: (body ++ rest)) ts
  | lexeme {place : Position} {text rest : List Char} {ts : List Lexeme} (h : Stands text rest)
      (more : Lexed (place.right text.length) rest ts) :
      Lexed place (text ++ rest) (⟨text, place, false⟩ :: ts)
  | openString {place : Position} {body rest : List Char} {ts : List Lexeme} (inLine : '\n' ∉ body)
      (ended : AtLineEnd rest) (unclosed : closeString? body = none)
      (more : Lexed (place.right (body.length + 1)) rest ts) :
      Lexed place ('"' :: (body ++ rest)) (⟨'"' :: body, place, true⟩ :: ts)

namespace Stands

variable {text rest : List Char}

theorem ne_nil (h : Stands text rest) : text ≠ [] := by
  cases h with
  | atom h => exact h.1
  | _ => nofun

theorem newline_not_mem (h : Stands text rest) : '\n' ∉ text := by
  cases h with
  | mark h =>
    intro mem
    obtain rfl := List.mem_singleton.mp mem
    cases h
  | splice => decide
  | string h => simpa using h.newline_not_mem
  | atom h => exact Reader.newline_not_mem h.2

/-- What follows may be cut at the end of the line, or begin a new line. -/
theorem congr {rest' : List Char} (h : Stands text rest)
    (same : ∀ c ∈ rest'.head?, c ∈ rest.head? ∨ c = '\n') : Stands text rest' := by
  cases h with
  | mark h whole =>
    refine .mark h fun comma next => ?_
    rcases same '@' next with old | new
    · exact whole comma old
    · cases new
  | splice => exact .splice
  | string h => exact .string h
  | atom h ends =>
    refine .atom h fun c next => ?_
    rcases same c next with old | rfl
    · exact ends c old
    · rfl

theorem ofLine (h : Stands text rest) : LineStart.ofLine (text ++ rest) = .token text rest := by
  cases h with
  | @mark c _ h whole =>
    unfold isPunctuation at h
    simp only [Bool.or_eq_true, beq_iff_eq] at h
    rcases h with (((rfl | rfl) | rfl) | rfl) | rfl
    · rfl
    · rfl
    · rfl
    · rfl
    · have next := whole rfl
      unfold LineStart.ofLine
      rw [List.singleton_append, List.dropWhile_cons_of_neg (by decide)]
      split
      · rename_i same
        cases same
      · rename_i same
        cases same
      · rename_i same
        cases same
        exact absurd rfl next
      · rename_i same
        cases same
      · rename_i same
        cases same
        rfl
  | splice => rfl
  | string h => exact h.ofLine rest
  | atom h ends => exact LineStart.ofLine_atom h ends

end Stands

end SmallLisp.Editor

namespace SmallLisp.Reader

theorem closeString?_append {cs inside rest : List Char} (h : closeString? cs = some (inside, rest)) :
    cs = inside ++ rest := by
  fun_induction closeString? cs generalizing inside rest with
  | case1 => cases h
  | case2 cs =>
    cases h
    rfl
  | case3 => cases h
  | case4 c cs plain ih =>
    obtain ⟨⟨inside, rest⟩, closed, same⟩ := Option.map_eq_some_iff.mp h
    cases same
    rw [ih closed]
    rfl
  | case5 => cases h
  | case6 c cs noQuote noEscape plain ih =>
    obtain ⟨⟨inside, rest⟩, closed, same⟩ := Option.map_eq_some_iff.mp h
    cases same
    rw [ih closed]
    rfl

/-- A string that is open in a text is open on its line. -/
theorem closeString?_line {body rest : List Char} (h : closeString? (body ++ rest) = none) :
    closeString? body = none := by
  cases closed : closeString? body with
  | none => rfl
  | some parts =>
    obtain ⟨inside, left⟩ := parts
    rw [closeString?_append closed, List.append_assoc, (closeString?_some closed).1] at h
    cases h

theorem ofLine_openString {body : List Char} (h : closeString? body = none) :
    LineStart.ofLine ('"' :: body) = .openString (('"' :: body).rdropWhile Text.isBlank) := by
  rw [LineStart.ofLine_quote, h]
  rfl

end SmallLisp.Reader

namespace SmallLisp.Text

variable {α : Type} [DecidableEq α]

/-- What precedes every separator is put in front of the first part. -/
theorem splitAt_append {sep : α} {xs ys first : List α} {parts : List (List α)} (h : sep ∉ xs)
    (split : splitAt sep ys = first :: parts) : splitAt sep (xs ++ ys) = (xs ++ first) :: parts := by
  induction xs with
  | nil => exact split
  | cons x xs ih =>
    have other : x ≠ sep := fun same => h (by simp [same])
    have rest : sep ∉ xs := fun mem => h (List.mem_cons_of_mem x mem)
    rw [List.cons_append, splitAt_cons, if_neg other, ih rest]
    rfl

end SmallLisp.Text

namespace SmallLisp.Editor

open Reader Run

variable {place : Position} {cs : List Char} {ts : List Lexeme}

theorem drop_length_takeWhile {α : Type} (p : α → Bool) (xs : List α) :
    xs.drop (xs.takeWhile p).length = xs.dropWhile p :=
  calc xs.drop (xs.takeWhile p).length
      = (xs.takeWhile p ++ xs.dropWhile p).drop (xs.takeWhile p).length := by
        rw [List.takeWhile_append_dropWhile]
    _ = xs.dropWhile p := List.drop_left

theorem not_of_head?_dropWhile {α : Type} {p : α → Bool} {xs : List α} {x : α}
    (h : x ∈ (xs.dropWhile p).head?) : p x = false := by
  have no := List.head?_dropWhile_not p xs
  rw [h] at no
  exact no

/-- The rest of a line, and what is after it. -/
theorem restOfLine (cs : List Char) :
    '\n' ∉ cs.takeWhile notNewline ∧ AtLineEnd (cs.dropWhile notNewline) := by
  constructor
  · intro mem
    have same := List.all_eq_true.mp (List.all_takeWhile (p := notNewline) (l := cs)) _ mem
    cases same
  · intro c next
    simpa [notNewline] using not_of_head?_dropWhile next

/-- The lexeme that a character begins, and what follows it. -/
theorem lexemeText_cases {c : Char} (noBlank : Text.isBlank c = false) (noComment : c ≠ ';')
    (cs : List Char) :
    (∃ text rest, lexemeText c cs = (text, false) ∧ c :: cs = text ++ rest ∧ Stands text rest) ∨
    ∃ body rest, lexemeText c cs = ('"' :: body, true) ∧ c :: cs = '"' :: (body ++ rest) ∧
      '\n' ∉ body ∧ AtLineEnd rest ∧ closeString? body = none := by
  unfold lexemeText
  by_cases quote : c = '"'
  · subst quote
    rw [if_pos rfl]
    cases closed : closeString? cs with
    | some parts =>
      obtain ⟨inside, rest⟩ := parts
      obtain ⟨alone, body, rfl, _⟩ := closeString?_some closed
      have whole := alone []
      rw [List.append_nil] at whole
      refine Or.inl ⟨_, rest, rfl, ?_, .string (IsStringToken.iff_closeString?.mpr whole)⟩
      rw [closeString?_append closed]
      rfl
    | none =>
      obtain ⟨inLine, ended⟩ := restOfLine cs
      refine Or.inr ⟨_, cs.dropWhile notNewline, rfl, ?_, inLine, ended, ?_⟩
      · rw [List.takeWhile_append_dropWhile]
      · rw [← List.takeWhile_append_dropWhile (p := notNewline) (l := cs)] at closed
        exact closeString?_line closed
  · rw [if_neg quote]
    refine Or.inl ?_
    by_cases splice : c = ',' ∧ cs.head? = some '@'
    · obtain ⟨rfl, next⟩ := splice
      cases cs with
      | nil => cases next
      | cons d cs =>
        cases next
        exact ⟨_, cs, rfl, rfl, .splice⟩
    · rw [if_neg splice]
      cases mark : isPunctuation c with
      | true => exact ⟨[c], cs, rfl, rfl, .mark mark fun comma next => splice ⟨comma, next⟩⟩
      | false =>
        have first := isAtomChar_of noBlank mark quote noComment
        refine ⟨_, cs.dropWhile isAtomChar, rfl, ?_, .atom ⟨nofun, ?_⟩ ?_⟩
        · rw [List.cons_append, List.takeWhile_append_dropWhile]
        · intro d mem
          rcases List.mem_cons.mp mem with rfl | mem
          · exact first
          · exact List.all_eq_true.mp List.all_takeWhile d mem
        · exact fun d next => not_of_head?_dropWhile next

theorem drop_lexeme {c : Char} {cs text rest : List Char} (nonempty : text ≠ [])
    (split : c :: cs = text ++ rest) : cs.drop (text.length - 1) = rest := by
  obtain ⟨d, text, rfl⟩ := List.exists_cons_of_ne_nil nonempty
  obtain ⟨_, rfl⟩ := List.cons.inj split
  exact List.drop_left

/-- A text is made of the lexemes that the scan gives. -/
theorem lexed_scanFrom (fuel : Nat) (place : Position) (cs : List Char) (enough : cs.length ≤ fuel) :
    Lexed place cs (scanFrom fuel place cs) := by
  induction fuel generalizing place cs with
  | zero =>
    obtain rfl := List.eq_nil_of_length_eq_zero (Nat.le_zero.mp enough)
    exact .done
  | succ fuel ih =>
    cases cs with
    | nil => exact .done
    | cons c cs =>
      have rest : cs.length ≤ fuel := Nat.le_of_succ_le_succ enough
      unfold scanFrom
      cases blank : Text.isBlank c with
      | true => exact .blank blank (ih _ cs rest)
      | false =>
        rw [if_neg Bool.false_ne_true]
        by_cases comment : c = ';'
        · subst comment
          obtain ⟨inLine, ended⟩ := restOfLine cs
          have after : (cs.dropWhile notNewline).length ≤ fuel :=
            (List.dropWhile_suffix notNewline).length_le.trans rest
          rw [if_pos rfl]
          dsimp only
          rw [drop_length_takeWhile]
          have whole := Lexed.comment inLine ended (ih (place.right _) _ after)
          rwa [List.takeWhile_append_dropWhile] at whole
        · rw [if_neg comment]
          rcases lexemeText_cases blank comment cs with
            ⟨text, after, given, split, stands⟩ | ⟨body, after, given, split, inLine, ended, unclosed⟩
          · rw [given]
            dsimp only
            have shorter := congrArg List.length split
            have positive := List.length_pos_iff.mpr stands.ne_nil
            rw [List.length_cons, List.length_append] at shorter
            rw [drop_lexeme stands.ne_nil split, split]
            exact .lexeme stands (ih _ after (by omega))
          · rw [given]
            dsimp only
            have shorter := congrArg List.length split
            rw [List.length_cons, List.length_cons, List.length_append] at shorter
            rw [drop_lexeme (List.cons_ne_nil _ _) split, split]
            exact .openString inLine ended unclosed (ih _ after (by omega))

theorem lexed_scan (cs : List Char) : Lexed ⟨0, 0⟩ cs (scan cs) :=
  lexed_scanFrom _ _ cs (Nat.le_refl _)

namespace Lexed

/-- Every lexeme takes a character. -/
theorem length_le (h : Lexed place cs ts) : ts.length ≤ cs.length := by
  induction h with
  | done => exact Nat.le_refl _
  | blank _ _ ih => exact Nat.le_succ_of_le ih
  | comment =>
    rw [List.length_cons, List.length_append]
    omega
  | lexeme h _ ih =>
    have positive := List.length_pos_iff.mpr h.ne_nil
    rw [List.length_cons, List.length_append]
    omega
  | openString =>
    rw [List.length_cons, List.length_cons, List.length_append]
    omega

end Lexed

namespace Lexeme

/-- The token that a lexeme is for the reader. -/
def token (t : Lexeme) : String :=
  String.ofList t.text

/-- What the reader reports of a string left open: its text, without the blanks at the end. -/
def unterminated (t : Lexeme) : Failure :=
  .malformed (String.ofList (t.text.rdropWhile Text.isBlank)) .unterminatedString

end Lexeme

end SmallLisp.Editor

namespace SmallLisp.Reader

open Editor Run

/-- The characters that are still to come from a port. At its beginning it has no line yet. -/
def Port.Holds (p : Port) (cs : List Char) : Prop :=
  Text.lines cs = p.line :: p.below ∨ p.line = [] ∧ Text.lines cs = p.below

/-- A port from which these lexemes are still to come. -/
def Port.Gives (p : Port) (ts : List Lexeme) : Prop :=
  ∃ place cs, p.Holds cs ∧ Lexed place cs ts

/-- An answer of a port with the given lexemes to come: the first of them, or that there is none, or the
report of a string left open. -/
def Answers (symbols : SymbolTable) (ts : List Lexeme) (o : Except Failure (Option String) × Port) :
    Prop :=
  match ts with
  | [] => o = (.ok none, ⟨[], [], symbols⟩)
  | t :: ts =>
    if t.isOpenString then ∃ q, o = (.error t.unterminated, q)
    else ∃ q, o = (.ok (some t.token), q) ∧ q.symbols = symbols ∧ q.Gives ts

variable {symbols : SymbolTable} {place : Position} {cs line line' : List Char}
  {below : List (List Char)} {ts us : List Lexeme} {t : Lexeme} {p q : Port} {fuel : Nat}

/-- An answer depends on what the line begins with only. -/
theorem Answers.congr (h : Answers symbols ts (nextTokenFrom symbols below line))
    (same : LineStart.ofLine line' = LineStart.ofLine line) :
    Answers symbols ts (nextTokenFrom symbols below line') := by
  unfold nextTokenFrom at h ⊢
  rw [same]
  cases start : LineStart.ofLine line with
  | token text rest =>
    rw [start] at h
    exact h
  | nothing =>
    rw [start] at h
    cases below with
    | nil => exact h
    | cons next below => exact h
  | openString text =>
    rw [start] at h
    -- the port keeps its line, which may differ
    cases ts with
    | nil => cases h
    | cons t ts =>
      unfold Answers at h ⊢
      dsimp only at h ⊢
      split at h
      · rename_i openString
        obtain ⟨q, same⟩ := h
        rw [if_pos openString]
        exact ⟨_, Prod.ext (Prod.mk.inj same).1 rfl⟩
      · obtain ⟨q, same, _⟩ := h
        cases same

theorem lines_ne_nil (cs : List Char) : ∃ line below, Text.lines cs = line :: below :=
  List.exists_cons_of_ne_nil (Text.splitAt_ne_nil '\n' cs)

/-- The first line of a text begins as the text does. -/
theorem head?_of_lines (split : Text.lines cs = line :: below) :
    ∀ c ∈ line.head?, c ∈ cs.head? ∨ c = '\n' := by
  cases cs with
  | nil =>
    cases split
    exact nofun
  | cons d cs =>
    intro c next
    unfold Text.lines at split
    rw [Text.splitAt_cons] at split
    split at split
    · cases split
      cases next
    · obtain ⟨first, parts, rest⟩ := List.exists_cons_of_ne_nil (Text.splitAt_ne_nil '\n' cs)
      rw [rest] at split
      cases split
      exact Or.inl next

/-- At the end of a line nothing of it is left. -/
theorem lines_of_atLineEnd (ended : AtLineEnd cs) (split : Text.lines cs = line :: below) :
    line = [] := by
  cases cs with
  | nil =>
    cases split
    rfl
  | cons d cs =>
    obtain rfl := ended d rfl
    cases split
    rfl

theorem answers_of_lexed (h : Lexed place cs ts) (split : Text.lines cs = line :: below) :
    Answers symbols ts (nextTokenFrom symbols below line) := by
  induction h generalizing line below with
  | done =>
    cases split
    rfl
  | @blank place c rest ts blank more ih =>
    obtain ⟨first, parts, after⟩ := lines_ne_nil rest
    unfold Text.lines at split
    rw [Text.splitAt_cons] at split
    split at split
    · obtain ⟨rfl, rfl⟩ := List.cons.inj split
      rw [← Text.lines, after]
      have answers := ih after
      exact answers
    · rw [← Text.lines, after] at split
      obtain ⟨rfl, rfl⟩ := List.cons.inj split
      exact (ih after).congr (LineStart.ofLine_blank blank first)
  | @comment place body rest ts inLine ended more ih =>
    obtain ⟨first, parts, after⟩ := lines_ne_nil rest
    obtain rfl := lines_of_atLineEnd ended after
    have noBreak : '\n' ∉ ';' :: body := by simpa using inLine
    have whole := Text.splitAt_append noBreak after
    rw [Text.lines] at split
    obtain ⟨rfl, rfl⟩ := List.cons.inj (split.symm.trans whole)
    exact (ih after).congr rfl
  | @lexeme place text rest ts stands more ih =>
    obtain ⟨first, parts, after⟩ := lines_ne_nil rest
    have whole := Text.splitAt_append stands.newline_not_mem after
    rw [Text.lines] at split
    obtain ⟨rfl, rfl⟩ := List.cons.inj (split.symm.trans whole)
    have start := (stands.congr (head?_of_lines after)).ofLine
    refine ⟨⟨first, below, symbols⟩, ?_, rfl, _, rest, Or.inl after, more⟩
    exact nextToken_of_token start
  | @openString place body rest ts inLine ended unclosed more ih =>
    obtain ⟨first, parts, after⟩ := lines_ne_nil rest
    obtain rfl := lines_of_atLineEnd ended after
    have noBreak : '\n' ∉ '"' :: body := by simpa using inLine
    have whole := Text.splitAt_append noBreak after
    rw [Text.lines] at split
    obtain ⟨rfl, rfl⟩ := List.cons.inj (split.symm.trans whole)
    refine ⟨⟨'"' :: body ++ [], below, symbols⟩, ?_⟩
    unfold nextTokenFrom
    rw [List.append_nil, ofLine_openString unclosed]
    rfl

namespace Port.Gives

theorem answers (h : p.Gives ts) : Answers p.symbols ts (outcome nextToken p) := by
  obtain ⟨line, below, symbols⟩ := p
  obtain ⟨place, cs, split | ⟨start, split⟩, lexed⟩ := h
  · exact answers_of_lexed lexed split
  · obtain ⟨first, parts, lines⟩ := lines_ne_nil cs
    cases start
    obtain rfl : below = first :: parts := split.symm.trans lines
    have answers : Answers symbols ts (nextTokenFrom symbols parts first) :=
      answers_of_lexed lexed lines
    exact answers

theorem nextToken_nil (h : p.Gives []) : outcome nextToken p = (.ok none, ⟨[], [], p.symbols⟩) :=
  h.answers

theorem nextToken_cons (h : p.Gives (t :: ts)) (closed : t.isOpenString = false) :
    ∃ q, outcome nextToken p = (.ok (some t.token), q) ∧ q.symbols = p.symbols ∧ q.Gives ts := by
  have answers := h.answers
  unfold Answers at answers
  dsimp only at answers
  rwa [closed, if_neg Bool.false_ne_true] at answers

theorem nextToken_openString (h : p.Gives (t :: ts)) (openString : t.isOpenString = true) :
    ∃ q, outcome nextToken p = (.error t.unterminated, q) := by
  have answers := h.answers
  unfold Answers at answers
  dsimp only at answers
  rwa [openString, if_pos rfl] at answers

theorem withSymbols (h : p.Gives ts) (table : SymbolTable) :
    Port.Gives { p with symbols := table } ts := h

/-- The lexemes of a text are to come from a port at its beginning. -/
theorem ofText {text : String} (h : Lexed place text.toList ts) (symbols : SymbolTable) :
    (Port.ofText text symbols).Gives ts :=
  ⟨place, text.toList, Or.inr ⟨rfl, rfl⟩, h⟩

end Port.Gives

theorem length_lines (split : Text.lines cs = line :: below) :
    line.length + (below.map fun l => l.length + 1).sum = cs.length := by
  induction cs generalizing line below with
  | nil =>
    cases split
    rfl
  | cons c cs ih =>
    obtain ⟨first, parts, rest⟩ := lines_ne_nil cs
    have length := ih rest
    unfold Text.lines at split rest
    rw [Text.splitAt_cons, rest] at split
    split at split
    · cases split
      simp only [List.map_cons, List.sum_cons, List.length_nil, List.length_cons]
      omega
    · cases split
      simp only [List.length_cons]
      omega

theorem Port.Holds.length_le_unread (h : p.Holds cs) : cs.length ≤ p.unread := by
  rw [unread_eq]
  rcases h with split | ⟨start, split⟩
  · exact (length_lines split).ge
  · obtain ⟨first, parts, lines⟩ := lines_ne_nil cs
    have length := length_lines lines
    rw [start, split.symm.trans lines, List.map_cons, List.sum_cons]
    omega

theorem Port.Gives.length_le_unread (h : p.Gives ts) : ts.length ≤ p.unread := by
  obtain ⟨place, cs, holds, lexed⟩ := h
  exact lexed.length_le.trans holds.length_le_unread

/-- The tokens that a port gives: its lexemes up to the first string that is left open. -/
theorem collect_nextToken (h : p.Gives ts) (enough : ts.length < fuel) :
    collect nextToken fuel p = ((ts.takeWhile fun t => !t.isOpenString).map Lexeme.token,
      (ts.find? fun t => t.isOpenString).map Lexeme.unterminated) := by
  induction fuel generalizing p ts with
  | zero => omega
  | succ fuel ih =>
    cases ts with
    | nil => exact collect_none h.nextToken_nil
    | cons t ts =>
      cases openString : t.isOpenString with
      | true =>
        obtain ⟨q, stopped⟩ := h.nextToken_openString openString
        rw [collect_error stopped]
        simp [openString]
      | false =>
        obtain ⟨q, given, _, more⟩ := h.nextToken_cons openString
        rw [collect_some given, ih more (Nat.lt_of_succ_lt_succ enough)]
        simp [openString]

/-- The scan of a text gives lexemes that the text is made of, and the reader gives the same tokens: all of
them, or those before the first string that is left open, which it then reports. -/
theorem tokens_eq_scan (text : String) (symbols : SymbolTable) :
    Lexed ⟨0, 0⟩ text.toList (scan text.toList) ∧
    (Port.ofText text symbols).tokens =
      (((scan text.toList).takeWhile fun t => !t.isOpenString).map Lexeme.token,
        ((scan text.toList).find? fun t => t.isOpenString).map Lexeme.unterminated) := by
  have lexed := lexed_scan text.toList
  have gives := Port.Gives.ofText lexed symbols
  exact ⟨lexed, collect_nextToken gives (Nat.lt_succ_of_le gives.length_le_unread)⟩

end SmallLisp.Reader
