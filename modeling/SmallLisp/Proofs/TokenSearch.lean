import SmallLisp.Proofs.Layouts
/-!
# The search for a token

A port looks for its next token in turns: an empty line is replaced by the line below it, and a line from which nothing
is read is emptied. There are at most two turns for each line, so every search ends. It ends with a token, which takes
its characters out of the port; or nothing but blanks and comments is left; or a string stays open on its line. An
answer without a token leaves a port that gives this answer for good.
-/
namespace SmallLisp.Reader

open Editor Run

/-- How reading ends: with a value or a failure, and the port that is left. -/
abbrev Ending (α : Type) := Except Failure α × Port

variable {p q : Port} {line body : List Char} {below : List (List Char)} {symbols : SymbolTable} {start : LineStart}
  {a : Except Failure (Option String)} {o : Ending (Option String)} {turns bound bound' : Nat}

/-! ## What a line begins with -/

/-- Nothing is read from a line of blanks, nor from a comment behind them. -/
def IsIdle (line : List Char) : Prop :=
  ∀ c ∈ (line.dropWhile Text.isBlank).head?, c = ';'

/-- A string that is open before these characters is closed by none of them. -/
def StaysOpen (body : List Char) : Prop :=
  ∀ inside rest, IsStringBody inside → body ≠ inside ++ '"' :: rest

/-- What a line begins with behind its blanks: a whole token, a string that stays open, or nothing that is read. -/
inductive Begins : (line : List Char) → LineStart → Prop where
  | token {blanks text rest : List Char} (blank : ∀ c ∈ blanks, Text.isBlank c = true) (stands : Stands text rest) :
      Begins (blanks ++ (text ++ rest)) (.token text rest)
  | openString {blanks body : List Char} (blank : ∀ c ∈ blanks, Text.isBlank c = true) (stays : StaysOpen body) :
      Begins (blanks ++ '"' :: body) (.openString (Text.trim ('"' :: body)))
  | nothing {line : List Char} (idle : IsIdle line) : Begins line .nothing

theorem isIdle_nil : IsIdle [] := nofun

theorem staysOpen_of_closeString? (h : closeString? body = none) : StaysOpen body := by
  intro inside rest legal split
  have closed := IsStringToken.iff_closeString?.mp legal.isStringToken
  have whole := (closeString?_some closed).1 rest
  rw [List.append_assoc, List.singleton_append, ← split, h] at whole
  cases whole

theorem Begins.blank {c : Char} (h : Begins line start) (blank : Text.isBlank c = true) : Begins (c :: line) start := by
  have all {blanks : List Char} (rest : ∀ d ∈ blanks, Text.isBlank d = true) :
      ∀ d ∈ c :: blanks, Text.isBlank d = true := List.forall_mem_cons.mpr ⟨blank, rest⟩
  cases h with
  | token more stands => exact .token (all more) stands
  | openString more stays => exact .openString (all more) stays
  | nothing idle =>
    refine .nothing fun d head => idle d ?_
    rwa [List.dropWhile_cons_of_pos blank] at head

theorem begins_of_ofLine (h : LineStart.ofLine line = start) : Begins line start := by
  subst h
  induction line with
  | nil => exact .nothing isIdle_nil
  | cons c cs ih =>
    cases blank : Text.isBlank c with
    | true =>
      rw [LineStart.ofLine_blank blank]
      exact ih.blank blank
    | false =>
      by_cases comment : c = ';'
      · subst comment
        exact .nothing fun d head => (Option.some.inj head).symm
      · rcases lexemeText_cases blank comment cs with
          ⟨text, rest, _, split, stands⟩ | ⟨body, rest, given, split, _⟩
        · rw [split, stands.ofLine]
          exact @Begins.token [] text rest nofun stands
        · obtain ⟨rfl, _⟩ := List.cons.inj split
          -- the scan would have gone on to the closing quote
          have unclosed : closeString? cs = none := by
            cases closed : closeString? cs with
            | none => rfl
            | some parts =>
              rw [lexemeText, if_pos rfl, closed] at given
              cases given
          rw [LineStart.ofLine_quote, unclosed]
          exact @Begins.openString [] cs nofun (staysOpen_of_closeString? unclosed)

/-! ## What a port answers -/

/-- The answer of a port that is asked for a token, and the port that is left. Lines from which nothing is read come
first. A token leaves what stands behind it on its line; a string that stays open leaves its whole line; at the end no
line is left. -/
inductive Port.Advances (p : Port) : Ending (Option String) → Prop where
  | token {skipped : List (List Char)} {blanks text : List Char} {q : Port}
      (lines : p.line :: p.below = skipped ++ (blanks ++ (text ++ q.line)) :: q.below) (idle : ∀ l ∈ skipped, IsIdle l)
      (blank : ∀ c ∈ blanks, Text.isBlank c = true) (stands : Stands text q.line) (table : q.symbols = p.symbols) :
      Advances p (.ok (some (String.ofList text)), q)
  | ended (idle : ∀ l ∈ p.line :: p.below, IsIdle l) : Advances p (.ok none, ⟨[], [], p.symbols⟩)
  | stopped {skipped : List (List Char)} {blanks body : List Char} {q : Port}
      (lines : p.line :: p.below = skipped ++ q.line :: q.below) (idle : ∀ l ∈ skipped, IsIdle l)
      (begins : q.line = blanks ++ '"' :: body) (blank : ∀ c ∈ blanks, Text.isBlank c = true) (stays : StaysOpen body)
      (table : q.symbols = p.symbols) :
      Advances p (.error (.malformed (String.ofList (Text.trim ('"' :: body))) .unterminatedString), q)

/-- A line from which nothing is read may stand before the others. -/
theorem Port.Advances.behind {next : List Char} (h : Port.Advances ⟨next, below, symbols⟩ o) (first : IsIdle line) :
    Port.Advances ⟨line, next :: below, symbols⟩ o := by
  have all {lines : List (List Char)} (rest : ∀ l ∈ lines, IsIdle l) : ∀ l ∈ line :: lines, IsIdle l :=
    List.forall_mem_cons.mpr ⟨first, rest⟩
  cases h with
  | token lines idle blank stands table =>
    exact .token (congrArg (line :: ·) lines) (all idle) blank stands table
  | ended idle => exact .ended (all idle)
  | stopped lines idle begins blank stays table =>
    exact .stopped (congrArg (line :: ·) lines) (all idle) begins blank stays table

theorem Port.advances (p : Port) : p.Advances (outcome nextToken p) := by
  obtain ⟨line, below, symbols⟩ := p
  change Advances _ (nextTokenFrom symbols below line)
  fun_induction nextTokenFrom symbols below line with
  | case1 line text rest below start =>
    cases begins_of_ofLine start with
    | token blank stands => exact .token (List.nil_append _).symm nofun blank stands rfl
  | case2 line text below start =>
    cases begins_of_ofLine start with
    | openString blank stays => exact .stopped (List.nil_append _).symm nofun rfl blank stays rfl
  | case3 line start =>
    cases begins_of_ofLine start with
    | nothing idle => exact .ended (List.forall_mem_singleton.mpr idle)
  | case4 line next below start ih =>
    cases begins_of_ofLine start with
    | nothing idle => exact ih.behind idle

/-- Every line counts with its end, but the first line has lost its own. -/
theorem unread_succ (p : Port) : p.unread + 1 = ((p.line :: p.below).map fun l => l.length + 1).sum := by
  rw [unread_eq, List.map_cons, List.sum_cons]
  omega

/-- A token is more than nothing, and its characters are read. -/
theorem unread_lt_of_token {token : String} (h : outcome nextToken p = (.ok (some token), q)) :
    token ≠ "" ∧ q.unread < p.unread := by
  have advances := p.advances
  rw [h] at advances
  cases advances with
  | @token skipped blanks text _ lines _ _ stands _ =>
    have positive := List.length_pos_iff.mpr stands.ne_nil
    have before := unread_succ p
    have after := unread_eq q
    rw [lines] at before
    simp only [List.map_append, List.map_cons, List.sum_append, List.sum_cons, List.length_append] at before
    refine ⟨fun empty => stands.ne_nil ?_, by omega⟩
    simpa using empty

theorem unread_le_of_answer (h : outcome nextToken p = (a, q)) :
    q.unread ≤ p.unread := by
  have advances := p.advances
  rw [h] at advances
  cases advances with
  | token => exact (unread_lt_of_token h).2.le
  | ended => exact Nat.zero_le _
  | @stopped skipped _ _ _ lines =>
    have before := unread_succ p
    have after := unread_succ q
    rw [lines, List.map_append, List.sum_append] at before
    omega

/-- An answer without a token is the answer from then on, and the port stays as it is. -/
theorem nextToken_again (h : outcome nextToken p = (a, q))
    (final : ∀ token, a ≠ .ok (some token)) : outcome nextToken q = (a, q) := by
  obtain ⟨line, below, symbols⟩ := p
  change nextTokenFrom symbols below line = _ at h
  fun_induction nextTokenFrom symbols below line with
  | case1 =>
    cases h
    exact absurd rfl (final _)
  | case2 line text below start =>
    cases h
    exact nextToken_of_openString start
  | case3 =>
    cases h
    rfl
  | case4 line next below start ih => exact ih h

/-! ## The search turn by turn -/

/-- One turn of the search: the answer and the port that is left, or the port with which the search goes on. An empty
line is replaced by the line below it; a line from which nothing is read is emptied. -/
def Port.turn (p : Port) : (Ending (Option String)) ⊕ Port :=
  match p.line, p.below with
  | [], [] => .inl (.ok none, p)
  | [], next :: below => .inr ⟨next, below, p.symbols⟩
  | c :: line, below =>
    match LineStart.ofLine (c :: line) with
    | .token text rest => .inl (.ok (some (String.ofList text)), ⟨rest, below, p.symbols⟩)
    | .openString text => .inl (.error (.malformed (String.ofList text) .unterminatedString), p)
    | .nothing => .inr ⟨[], below, p.symbols⟩

/-- A search that comes to its answer in so many turns. -/
inductive Searches : (turns : Nat) → Port → Ending (Option String) → Prop where
  | answer {p : Port} {o : Ending (Option String)} (h : p.turn = .inl o) : Searches 1 p o
  | goOn {turns : Nat} {p q : Port} {o : Ending (Option String)} (h : p.turn = .inr q)
      (more : Searches turns q o) : Searches (turns + 1) p o

/-- A turn answers as the whole search does, or leaves the answer to the rest of it. -/
theorem nextToken_eq_turn (p : Port) : outcome nextToken p = p.turn.elim id (outcome nextToken) := by
  obtain ⟨line, below, symbols⟩ := p
  cases line with
  | nil =>
    cases below with
    | nil => rfl
    | cons next below => exact nextToken_below rfl
  | cons c line =>
    unfold Port.turn
    dsimp only
    cases start : LineStart.ofLine (c :: line) with
    | token text rest => exact nextToken_of_token start
    | openString text => exact nextToken_of_openString start
    | nothing =>
      cases below with
      | nil => exact nextToken_of_nothing start
      | cons next below => exact (nextToken_below start).trans (nextToken_below rfl).symm

theorem Searches.nextToken_eq (h : Searches turns p o) : outcome nextToken p = o := by
  induction h with
  | answer h => rw [nextToken_eq_turn, h, Sum.elim_inl, id]
  | goOn h _ ih => rw [nextToken_eq_turn, h, Sum.elim_inr, ih]

/-- The search from a port ends within so many turns. -/
def Port.EndsWithin (p : Port) (bound : Nat) : Prop :=
  ∃ turns ≤ bound, Searches turns p (outcome nextToken p)

theorem Port.endsWithin_one (h : p.turn = .inl o) : p.EndsWithin 1 := by
  refine ⟨1, Nat.le_refl 1, .answer ?_⟩
  rw [nextToken_eq_turn, h, Sum.elim_inl, id]

theorem Port.EndsWithin.goOn (h : p.turn = .inr q) (more : q.EndsWithin bound) :
    p.EndsWithin (bound + 1) := by
  obtain ⟨turns, few, search⟩ := more
  refine ⟨turns + 1, Nat.succ_le_succ few, .goOn h ?_⟩
  rwa [nextToken_eq_turn p, h, Sum.elim_inr]

theorem Port.EndsWithin.mono (h : p.EndsWithin bound) (le : bound ≤ bound') :
    p.EndsWithin bound' := by
  obtain ⟨turns, few, search⟩ := h
  exact ⟨turns, few.trans le, search⟩

/-- A turn at a line that is not empty gives the answer or empties the line. -/
theorem turn_of_cons (c : Char) (line : List Char) (below : List (List Char)) (symbols : SymbolTable) :
    (∃ o, Port.turn ⟨c :: line, below, symbols⟩ = .inl o) ∨
      Port.turn ⟨c :: line, below, symbols⟩ = .inr ⟨[], below, symbols⟩ := by
  unfold Port.turn
  dsimp only
  cases LineStart.ofLine (c :: line) with
  | token text rest => exact Or.inl ⟨_, rfl⟩
  | openString text => exact Or.inl ⟨_, rfl⟩
  | nothing => exact Or.inr rfl

/-- A line takes one turn more than no line does. -/
theorem endsWithin_of_empty (h : Port.EndsWithin ⟨[], below, symbols⟩ bound) (line : List Char) :
    Port.EndsWithin ⟨line, below, symbols⟩ (bound + 1) := by
  cases line with
  | nil => exact h.mono (Nat.le_succ bound)
  | cons c line =>
    rcases turn_of_cons c line below symbols with ⟨o, answer⟩ | emptied
    · exact (Port.endsWithin_one answer).mono (Nat.le_add_left 1 bound)
    · exact .goOn emptied h

/-- Every line below takes two turns at most. -/
theorem Port.endsWithin (p : Port) : p.EndsWithin (2 * p.below.length + 2) := by
  obtain ⟨line, below, symbols⟩ := p
  induction below generalizing line with
  | nil => exact endsWithin_of_empty (Port.endsWithin_one rfl) line
  | cons next below ih =>
    have replaced : Port.turn ⟨[], next :: below, symbols⟩ = .inr ⟨next, below, symbols⟩ := rfl
    exact endsWithin_of_empty (.goOn replaced (ih next)) line

/-- The search for a token ends so. -/
def NextEnds (p : Port) (o : Ending (Option String)) : Prop :=
  ∃ turns, Searches turns p o

/-- A search ends with what the port answers and with nothing else. -/
theorem nextEnds_iff : NextEnds p o ↔ outcome nextToken p = o := by
  constructor
  · rintro ⟨turns, search⟩
    exact search.nextToken_eq
  · rintro rfl
    obtain ⟨turns, _, search⟩ := p.endsWithin
    exact ⟨turns, search⟩

end SmallLisp.Reader
