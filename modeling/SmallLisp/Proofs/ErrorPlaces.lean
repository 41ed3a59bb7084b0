import SmallLisp.Proofs.Diagnosis
/-!
# Where the error of a diagnosis stands

The reader refuses a closing parenthesis where a form has to begin, a string left open, and the end of the text
after a quote marker. The index looks for the place on its own, and knows nothing of quote markers: a parenthesis
that the reader refuses after one may close a list for the index.
-/
namespace SmallLisp.Run

variable {ε σ α β : Type}

/-- A sequence fails in its first part or in the rest. -/
theorem outcome_bind_error {a : Stateful ε σ α} {k : α → Stateful ε σ β} {m n : σ} {e : ε}
    (h : outcome (a >>= k) m = (.error e, n)) :
    outcome a m = (.error e, n) ∨ ∃ x l, outcome a m = (.ok x, l) ∧ outcome (k x) l = (.error e, n) := by
  rw [outcome_bind] at h
  rcases ended : outcome a m with ⟨e' | x, l⟩
  · rw [ended] at h
    cases h
    exact Or.inl rfl
  · rw [ended] at h
    exact Or.inr ⟨x, l, rfl, h⟩

end SmallLisp.Run

namespace SmallLisp.Reader

open Editor Run

variable {p q : Port} {ts : List Lexeme} {us vs : List String} {fuel room : Nat} {form : String}
  {fault : FormFault}

/-! ## Tokens before the one that is refused -/

theorem unmatched_succ_le (n : Nat) (us : List String) : unmatched (n + 1) us ≤ unmatched n us + 1 := by
  induction us generalizing n with
  | nil => exact Nat.le_refl _
  | cons t us ih =>
    rw [unmatched, unmatched]
    split
    · exact ih (n + 1)
    · split
      · cases n with
        | zero => exact Nat.le_succ _
        | succ n => exact ih n
      · exact ih n

/-- None of these tokens closes a list that was open before them. -/
def ClosesOwn (us : List String) : Prop :=
  ∀ n, ¬ HasStrayClose n us

theorem Balanced.closesOwn (h : Balanced us) : ClosesOwn us := by
  rintro n ⟨before, after, rfl, level⟩
  -- one more list that is open before does not outlast the stray parenthesis
  have above := unmatched_succ_le n before
  rw [level] at above
  have lost : unmatched (n + 1) (before ++ ")" :: after) = unmatched n (before ++ ")" :: after) := by
    rw [unmatched_append, unmatched_append, level]
    have none : unmatched (n + 1) before - 1 = 0 - 1 := by omega
    exact congrArg (unmatched · after) none
  rw [h, h] at lost
  omega

theorem ClosesOwn.append (h : ClosesOwn us) (h' : ClosesOwn vs) : ClosesOwn (us ++ vs) := by
  intro n stray
  rcases hasStrayClose_append.mp stray with stray | stray
  · exact h n stray
  · exact h' _ stray

theorem closesOwn_singleton {token : String} (notClose : token ≠ ")") : ClosesOwn [token] := by
  intro n stray
  rcases hasStrayClose_cons.mp stray with ⟨close, _⟩ | stray
  · exact notClose close
  · exact not_hasStrayClose_nil _ stray

/-- The last of these tokens is a quote marker. -/
def EndsQuoting (us : List String) : Prop :=
  ∃ before marker, us = before ++ [marker] ∧ (quoteKeyword? marker).isSome = true

theorem EndsQuoting.after (h : EndsQuoting us) (before : List String) : EndsQuoting (before ++ us) := by
  obtain ⟨inside, marker, rfl, quote⟩ := h
  exact ⟨before ++ inside, marker, (List.append_assoc ..).symm, quote⟩

/-! ## What is refused -/

/-- Which of some lexemes the reader refuses, what it has taken before, with what is known of it when a
parenthesis is refused, and what is still to come from the port that it leaves. -/
inductive Refuses (Before : List String → Prop) (ts : List Lexeme) : FormFault → Port → Prop
  | close (used : List Lexeme) {rest : List Lexeme} {t : Lexeme} {q : Port} : ts = used ++ t :: rest →
      AllClosed used → t.token = ")" → q.Gives rest → ClosesOwn (tokensOf used) → Before (tokensOf used) →
      Refuses Before ts .unexpectedClose q
  | openString (used : List Lexeme) {rest : List Lexeme} {t : Lexeme} {q : Port} : ts = used ++ t :: rest →
      AllClosed used → t.isOpenString = true → q.Gives (t :: rest) → Refuses Before ts .unterminatedString q
  | ended {q : Port} : AllClosed ts → q.Gives [] → EndsQuoting (tokensOf ts) →
      Refuses Before ts .nothingQuoted q

variable {Before Before' : List String → Prop}

/-- Something was taken before. -/
theorem Refuses.after (h : Refuses Before ts fault q) (before : List Lexeme) (closed : AllClosed before)
    (own : ts ≠ [] → ClosesOwn (tokensOf before) ∧ ∀ us, Before us → Before' (tokensOf before ++ us)) :
    Refuses Before' (before ++ ts) fault q := by
  cases h with
  | close used split closed' isClose gives own' known =>
    obtain ⟨own, later⟩ := own (by rw [split]; simp)
    refine .close (before ++ used) (by rw [split, List.append_assoc]) (closed.append closed') isClose gives
      ?_ ?_
    · rw [tokensOf_append]
      exact own.append own'
    · rw [tokensOf_append]
      exact later _ known
  | openString used split closed' isOpenString gives =>
    exact .openString (before ++ used) (by rw [split, List.append_assoc]) (closed.append closed')
      isOpenString gives
  | ended closed' gives idle =>
    refine .ended (closed.append closed') gives ?_
    rw [tokensOf_append]
    exact idle.after _

/-- The lines below a line with nothing on it hold the lexemes. -/
theorem lexed_below {place : Position} {cs line next : List Char} {below : List (List Char)}
    (h : Lexed place cs ts) (split : Text.lines cs = line :: next :: below)
    (nothing : LineStart.ofLine line = .nothing) :
    ∃ place' cs', Text.lines cs' = next :: below ∧ Lexed place' cs' ts := by
  induction h generalizing line with
  | done => cases split
  | @blank place c rest ts blank more ih =>
    obtain ⟨first, parts, after⟩ := lines_ne_nil rest
    unfold Text.lines at split
    rw [Text.splitAt_cons] at split
    split at split
    · exact ⟨_, rest, (List.cons.inj split).2, more⟩
    · rw [← Text.lines, after] at split
      obtain ⟨rfl, rfl⟩ := List.cons.inj split
      rw [LineStart.ofLine_blank blank] at nothing
      exact ih after nothing
  | @comment place body rest ts inLine ended more ih =>
    obtain ⟨first, parts, after⟩ := lines_ne_nil rest
    obtain rfl := lines_of_atLineEnd ended after
    have noBreak : '\n' ∉ ';' :: body := by simpa using inLine
    have whole := Text.splitAt_append noBreak after
    rw [Text.lines] at split
    obtain ⟨_, rfl⟩ := List.cons.inj (split.symm.trans whole)
    exact ih after rfl
  | @lexeme place text rest ts stands more =>
    obtain ⟨first, parts, after⟩ := lines_ne_nil rest
    have whole := Text.splitAt_append stands.newline_not_mem after
    rw [Text.lines] at split
    obtain ⟨rfl, _⟩ := List.cons.inj (split.symm.trans whole)
    rw [(stands.congr (head?_of_lines after)).ofLine] at nothing
    cases nothing
  | @openString place body rest ts inLine ended unclosed more =>
    obtain ⟨first, parts, after⟩ := lines_ne_nil rest
    obtain rfl := lines_of_atLineEnd ended after
    have noBreak : '\n' ∉ '"' :: body := by simpa using inLine
    have whole := Text.splitAt_append noBreak after
    rw [Text.lines] at split
    obtain ⟨rfl, _⟩ := List.cons.inj (split.symm.trans whole)
    rw [List.append_nil, ofLine_openString unclosed] at nothing
    cases nothing

/-- A port that fails to give a token keeps its lexemes. -/
theorem gives_of_error {symbols : SymbolTable} {below : List (List Char)} {line : List Char} {f : Failure}
    (gives : Port.Gives ⟨line, below, symbols⟩ ts)
    (h : outcome nextToken ⟨line, below, symbols⟩ = (.error f, q)) : q.Gives ts := by
  induction below generalizing line with
  | nil =>
    cases start : LineStart.ofLine line with
    | token text rest => cases (nextToken_of_token start).symm.trans h
    | openString text =>
      cases (nextToken_of_openString start).symm.trans h
      exact gives
    | nothing => cases (nextToken_of_nothing start).symm.trans h
  | cons next below ih =>
    cases start : LineStart.ofLine line with
    | token text rest => cases (nextToken_of_token start).symm.trans h
    | openString text =>
      cases (nextToken_of_openString start).symm.trans h
      exact gives
    | nothing =>
      refine ih ?_ ((nextToken_below start).symm.trans h)
      obtain ⟨place, cs, split | ⟨_, split⟩, lexed⟩ := gives
      · obtain ⟨place', cs', split', lexed'⟩ := lexed_below lexed split start
        exact ⟨place', cs', Or.inl split', lexed'⟩
      · exact ⟨place, cs, Or.inl split, lexed⟩

/-- A port that fails to give a token comes to a string left open, and stays there. -/
theorem Port.Gives.of_error {f : Failure} (gives : p.Gives ts) (h : outcome nextToken p = (.error f, q)) :
    ∃ t rest, ts = t :: rest ∧ t.isOpenString = true ∧ f = t.unterminated ∧ q.Gives (t :: rest) := by
  have keeps : q.Gives ts := gives_of_error gives h
  cases ts with
  | nil => cases gives.nextToken_nil.symm.trans h
  | cons t rest =>
    cases openString : t.isOpenString with
    | true =>
      obtain ⟨_, stopped⟩ := gives.nextToken_openString openString
      cases stopped.symm.trans h
      exact ⟨t, rest, rfl, openString, rfl, keeps⟩
    | false =>
      obtain ⟨_, given, _⟩ := gives.nextToken_cons openString
      cases given.symm.trans h

/-- What a quote marker is refused for. -/
theorem refuses_quoted {t : Lexeme} {keyword : String} (quote : quoteKeyword? t.token = some keyword)
    (closed : t.isOpenString = false) (gives : p.Gives ts)
    (inner : ∀ {room t ts form fault} {p q : Port}, p.Gives ts → t.isOpenString = false → t.token ≠ ")" →
      outcome (readFrom fuel room t.token) p = (.error (.malformed form fault), q) →
      Refuses EndsQuoting (t :: ts) fault q)
    (h : outcome (readFrom (fuel + 1) room t.token) p = (.error (.malformed form fault), q)) :
    Refuses EndsQuoting (t :: ts) fault q := by
  have isQuote : EndsQuoting (tokensOf [t]) := ⟨[], t.token, rfl, by rw [quote]; rfl⟩
  have whole : AllClosed [t] := .cons closed .nil
  obtain ⟨notOpen, notClose⟩ := not_mark_of_quote quote
  have own : ClosesOwn (tokensOf [t]) := closesOwn_singleton notClose
  cases room with
  | zero =>
    rw [readFrom, if_neg notOpen, if_neg notClose, quote] at h
    cases h
  | succ room =>
    rw [readFrom_quote quote] at h
    rcases outcome_bind_error h with stopped | ⟨next, r, first, h⟩
    · obtain ⟨t', rest, rfl, openString, same, keeps⟩ := gives.of_error stopped
      cases same
      exact .openString [t] rfl whole openString keeps
    · cases next with
      | none =>
        obtain ⟨rfl, rfl⟩ := gives.of_end first
        cases h
        exact .ended whole (.ended _) isQuote
      | some next =>
        obtain ⟨t', rest, rfl, rfl, closed', after⟩ := gives.of_token first
        rcases outcome_bind_error h with h | ⟨_, _, _, h⟩
        · by_cases close : t'.token = ")"
          · rw [close] at h
            cases fuel with
            | zero => cases h
            | succ fuel =>
              cases h
              exact .close [t] rfl whole close after own isQuote
          · exact (inner after closed' close h).after [t] whole fun _ => ⟨own, fun us last => last.after _⟩
        · cases h

/-- What is malformed is refused at one of the lexemes. -/
theorem refuses_reading (fuel : Nat) :
    (∀ {room form fault ts} {t : Lexeme} {p q : Port}, p.Gives ts → t.isOpenString = false → t.token ≠ ")" →
      outcome (readFrom fuel room t.token) p = (.error (.malformed form fault), q) →
      Refuses EndsQuoting (t :: ts) fault q) ∧
    (∀ {room form fault ts} {p q : Port}, p.Gives ts →
      outcome (readItems fuel room) p = (.error (.malformed form fault), q) →
      Refuses EndsQuoting ts fault q) := by
  induction fuel with
  | zero =>
    constructor
    · intro _ _ _ _ _ _ _ _ _ _ h
      cases h
    · intro _ _ _ _ _ _ _ h
      cases h
  | succ fuel ih =>
    obtain ⟨whole, items⟩ := ih
    constructor
    · intro room form fault ts t p q gives closed notClose h
      by_cases isOpen : t.token = "("
      · rw [isOpen, outcome_readFrom_open] at h
        cases room with
        | zero => cases h
        | succ room =>
          rcases outcome_bind_error (a := readItems fuel room) h with h | ⟨_, _, _, h⟩
          · exact (items gives h).after [t] (.cons closed .nil) fun _ =>
              ⟨closesOwn_singleton notClose, fun us last => last.after _⟩
          · cases h
      · cases quote : quoteKeyword? t.token with
        | some keyword => exact refuses_quoted quote closed gives whole h
        | none =>
          rw [readFrom_atomToken isOpen notClose quote] at h
          exact absurd h readAtom_ne_malformed
    · intro room form fault ts p q gives h
      unfold readItems at h
      rcases outcome_bind_error h with stopped | ⟨next, r, first, h⟩
      · obtain ⟨t, rest, rfl, openString, same, keeps⟩ := gives.of_error stopped
        cases same
        exact .openString [] rfl .nil openString keeps
      · cases next with
        | none => cases h
        | some token =>
          obtain ⟨t, rest, rfl, rfl, closed, after⟩ := gives.of_token first
          dsimp only at h
          by_cases isClose : t.token = ")"
          · rw [if_pos isClose] at h
            cases h
          · rw [if_neg isClose] at h
            rcases outcome_bind_error h with h | ⟨d, s, one, h⟩
            · exact whole after closed isClose h
            · obtain ⟨used, rest, rfl, closedUsed, gives, ending⟩ := (passes_of_ok fuel).1 after one
              rcases outcome_bind_error h with h | ⟨_, _, _, h⟩
              · -- a list that the end of the text has closed leaves nothing to refuse
                refine (items gives h).after (t :: used) (closedUsed.cons closed) fun left => ?_
                rcases ending with ⟨balanced, _⟩ | ⟨none, _⟩
                · exact ⟨balanced.closesOwn, fun us last => last.after _⟩
                · exact absurd none left
              · cases h

theorem refuses_read (gives : p.Gives ts)
    (h : outcome (read room) p = (.error (.malformed form fault), q)) :
    Refuses (fun us => us = [] ∨ EndsQuoting us) ts fault q := by
  unfold read at h
  rw [outcome_bind_of_ok (outcome_get p)] at h
  rcases outcome_bind_error h with stopped | ⟨next, r, first, h⟩
  · obtain ⟨t, rest, rfl, openString, same, keeps⟩ := gives.of_error stopped
    cases same
    exact .openString [] rfl .nil openString keeps
  · cases next with
    | none => cases h
    | some token =>
      obtain ⟨t, rest, rfl, rfl, closed, after⟩ := gives.of_token first
      rcases outcome_bind_error h with h | ⟨_, _, _, h⟩
      · by_cases close : t.token = ")"
        · rw [close] at h
          cases h
          exact .close [] rfl .nil close after (fun n => not_hasStrayClose_nil n) (Or.inl rfl)
        · exact ((refuses_reading _).1 after closed close h).after [] .nil fun _ =>
            ⟨fun n => not_hasStrayClose_nil n, fun us last => Or.inr last⟩
      · cases h

/-- Forms are read until the reader fails, which leaves a port. -/
inductive Port.Stops (room : Nat) : Port → Failure → Port → Prop
  | here {p q : Port} {f} : outcome (read room) p = (.error f, q) → Stops room p f q
  | later {p q r : Port} {d f} : outcome (read room) p = (.ok (some d), q) → Stops room q f r →
      Stops room p f r

/-- The reader stops at a lexeme that it refuses. Before a parenthesis that it refuses no list is open, or a
quote marker stands there. -/
theorem stops_of_collect (gives : p.Gives ts)
    (h : (collect (read room) fuel p).2 = some (.malformed form fault)) :
    ∃ q, p.Stops room (.malformed form fault) q ∧
      Refuses (fun us => unmatched 0 us = 0 ∨ EndsQuoting us) ts fault q := by
  induction fuel generalizing p ts with
  | zero => cases h
  | succ fuel ih =>
    rcases read : outcome (read room) p with ⟨f | _ | d, q⟩
    · rw [collect_error read] at h
      cases h
      refine ⟨q, .here read, (refuses_read gives read).after [] .nil fun _ => ?_⟩
      refine ⟨fun n => not_hasStrayClose_nil n, fun us known => known.imp_left ?_⟩
      rintro rfl
      rfl
    · rw [collect_none read] at h
      cases h
    · rw [collect_some read] at h
      obtain ⟨t, used, rest, rfl, closed, after, ending⟩ := read_of_ok gives read
      obtain ⟨r, stops, refuses⟩ := ih after h
      refine ⟨r, .later read stops, refuses.after (t :: used) closed fun left => ?_⟩
      rcases ending with ⟨balanced, _⟩ | ⟨none, _⟩
      · refine ⟨balanced.closesOwn, fun us known => known.imp (fun level => ?_) (·.after _)⟩
        rw [unmatched_append, balanced]
        exact level
      · exact absurd none left

end SmallLisp.Reader

namespace SmallLisp.Editor

open Reader Run

variable {place : Position} {cs : List Char} {ts used rest : List Lexeme} {t : Lexeme} {text : String} {room : Nat}
  {q : Port}

/-! ## Places in a text -/

theorem Position.order_le_foldl (p : Position) (cs : List Char) : p.order ≤ (cs.foldl Position.after p).order := by
  induction cs generalizing p with
  | nil => exact le_rfl
  | cons c cs ih => exact (p.order_le_after c).trans (ih _)

/-- Within a line the columns count the characters. -/
theorem Position.foldl_after {cs : List Char} (inLine : '\n' ∉ cs) (p : Position) :
    cs.foldl Position.after p = p.right cs.length := by
  induction cs generalizing p with
  | nil => rfl
  | cons c cs ih =>
    rw [List.mem_cons, not_or] at inLine
    have next : p.after c = p.right 1 := if_neg fun same => inLine.1 same.symm
    rw [List.foldl_cons, ih inLine.2, next, List.length_cons, Nat.add_comm cs.length]
    simp [Position.right, Nat.add_assoc]

/-- A lexeme stands before the end of the text. -/
theorem Lexed.place_lt (h : Lexed place cs ts) :
    ∀ t ∈ ts, t.place.order < (cs.foldl Position.after place).order := by
  induction h with
  | done => exact fun _ mem => absurd mem List.not_mem_nil
  | blank _ _ ih => exact ih
  | @comment place body rest _ inLine _ _ ih =>
    have noBreak : '\n' ∉ ';' :: body := by simpa using inLine
    change ∀ t ∈ _, _ < ((';' :: body ++ rest).foldl Position.after place).order
    rw [List.foldl_append, Position.foldl_after noBreak]
    exact ih
  | @lexeme place text rest _ stands _ ih =>
    rw [List.foldl_append, Position.foldl_after stands.newline_not_mem]
    have first := place.order_lt_right (List.length_pos_iff.mpr stands.ne_nil)
    exact List.forall_mem_cons.mpr ⟨first.trans_le (Position.order_le_foldl _ rest), ih⟩
  | @openString place body rest _ inLine _ _ _ ih =>
    have noBreak : '\n' ∉ '"' :: body := by simpa using inLine
    change ∀ t ∈ _, _ < (('"' :: body ++ rest).foldl Position.after place).order
    rw [List.foldl_append, Position.foldl_after noBreak]
    have first := place.order_lt_right (Nat.succ_pos body.length)
    exact List.forall_mem_cons.mpr ⟨first.trans_le (Position.order_le_foldl _ rest), ih⟩

/-- A string left open begins with a quote. -/
theorem Lexed.isString (h : Lexed place cs ts) : ∀ t ∈ ts, t.isOpenString = true → t.isString = true := by
  induction h with
  | done => exact fun _ mem => absurd mem List.not_mem_nil
  | blank _ _ ih => exact ih
  | comment _ _ _ ih => exact ih
  | lexeme _ _ ih =>
    intro t mem openString
    rcases List.mem_cons.mp mem with rfl | mem
    · cases openString
    · exact ih t mem openString
  | openString _ _ _ _ ih =>
    intro t mem openString
    rcases List.mem_cons.mp mem with rfl | mem
    · rfl
    · exact ih t mem openString

/-! ## What the index finds first -/

namespace Progress

theorem step_openStrings (progress : Progress) (closed : t.isOpenString = false) (rest : List Lexeme) :
    (progress.step t rest).openStrings = progress.openStrings := by
  unfold step
  rw [closed, if_neg Bool.false_ne_true]
  split
  · rfl
  · split
    · split
      · rfl
      · rfl
    · rfl

/-- A parenthesis closes the innermost list, or it is stray. -/
theorem step_close (progress : Progress) (closed : t.isOpenString = false) (isClose : t.token = ")")
    (rest : List Lexeme) : (progress.step t rest).strayCloses =
      progress.strayCloses ++ if progress.opens.length = 0 then [t.place] else [] := by
  have notOpen : ¬ t.isOpen = true := fun isOpen => by
    rw [← token_eq_open, isClose] at isOpen
    exact absurd isOpen (by decide)
  unfold step
  rw [closed, if_neg Bool.false_ne_true, if_neg notOpen, if_pos ((token_eq_close t).mp isClose)]
  cases progress.opens with
  | nil => rfl
  | cons place opens => exact (List.append_nil _).symm

/-- Lexemes of which none is a string left open. -/
theorem run_closed (progress : Progress) (closed : AllClosed used) (rest : List Lexeme) :
    ∃ later : Progress, progress.run (used ++ rest) = later.run rest ∧
      later.openStrings = progress.openStrings ∧
      later.opens.length = unmatched progress.opens.length (tokensOf used) ∧
      (later.strayCloses = [] ↔
        progress.strayCloses = [] ∧ ¬ HasStrayClose progress.opens.length (tokensOf used)) := by
  induction used generalizing progress with
  | nil => exact ⟨progress, rfl, rfl, rfl, by simp [tokensOf, not_hasStrayClose_nil]⟩
  | cons u used ih =>
    have first := closed u (by simp)
    obtain ⟨level, stray⟩ := step_levels progress first (used ++ rest)
    obtain ⟨later, run, strings, levels, strays⟩ := ih (progress.step u (used ++ rest))
      fun l mem => closed l (List.mem_cons_of_mem u mem)
    refine ⟨later, run, strings.trans (progress.step_openStrings first _), ?_, ?_⟩
    · rw [levels, level, ← unmatched_append]
      rfl
    · change _ ↔ _ ∧ ¬ HasStrayClose _ (u.token :: tokensOf used)
      rw [strays, stray, level, hasStrayClose_cons, not_or, and_assoc]
      rfl

theorem step_found (progress : Progress) (t : Lexeme) (rest : List Lexeme) :
    ∃ strays strings, (progress.step t rest).strayCloses = progress.strayCloses ++ strays ∧
      (progress.step t rest).openStrings = progress.openStrings ++ strings ∧
      ∀ p ∈ strays, p = t.place := by
  have nothing : ∀ p ∈ ([] : List Position), p = t.place := nofun
  unfold step
  split
  · exact ⟨[], [t.place], (List.append_nil _).symm, rfl, nothing⟩
  · split
    · exact ⟨[], [], (List.append_nil _).symm, (List.append_nil _).symm, nothing⟩
    · split
      · split
        · exact ⟨[], [], (List.append_nil _).symm, (List.append_nil _).symm, nothing⟩
        · exact ⟨[t.place], [], rfl, (List.append_nil _).symm, fun p mem => List.mem_singleton.mp mem⟩
      · exact ⟨[], [], (List.append_nil _).symm, (List.append_nil _).symm, nothing⟩

/-- What has been found stays first. -/
theorem run_found (progress : Progress) (ts : List Lexeme) :
    ∃ strays strings, (progress.run ts).strayCloses = progress.strayCloses ++ strays ∧
      (progress.run ts).openStrings = progress.openStrings ++ strings ∧
      ∀ p ∈ strays, ∃ t ∈ ts, p = t.place := by
  induction ts generalizing progress with
  | nil => exact ⟨[], [], (List.append_nil _).symm, (List.append_nil _).symm, nofun⟩
  | cons t ts ih =>
    obtain ⟨strays, strings, one, two, here⟩ := progress.step_found t ts
    obtain ⟨strays', strings', one', two', later⟩ := ih (progress.step t ts)
    refine ⟨strays ++ strays', strings ++ strings', ?_, ?_, fun p mem => ?_⟩
    · rw [run, one', one, List.append_assoc]
    · rw [run, two', two, List.append_assoc]
    · rcases List.mem_append.mp mem with mem | mem
      · exact ⟨t, by simp, here p mem⟩
      · obtain ⟨u, mem, same⟩ := later p mem
        exact ⟨u, List.mem_cons_of_mem t mem, same⟩

end Progress

/-- The place of a closing parenthesis that the reader refuses is found just when no list is open there. -/
theorem faultPlace_close (split : scan text.toList = used ++ t :: rest) (closed : AllClosed used)
    (isClose : t.token = ")") (own : ClosesOwn (tokensOf used)) :
    faultPlace (Index.ofText text) text .unexpectedClose = t.place ↔ unmatched 0 (tokensOf used) = 0 := by
  have lexed := lexed_scan text.toList
  rw [split] at lexed
  have notString : t.isOpenString = false := by
    by_contra openString
    have isString := lexed.isString t (by simp) (by simpa using openString)
    rw [Lexeme.isString, beq_iff_eq.mp ((token_eq_close t).mp isClose)] at isString
    cases isString
  obtain ⟨before, run, _, level, strays⟩ := Progress.start.run_closed closed (t :: rest)
  have none : before.strayCloses = [] := strays.mpr ⟨rfl, own 0⟩
  obtain ⟨found, _, stays, _, places⟩ := (before.step t rest).run_found rest
  have all : (Index.ofText text).strayCloses = (if before.opens.length = 0 then [t.place] else []) ++ found := by
    change (Progress.start.run (scan text.toList)).strayCloses = _
    rw [split, run, Progress.run, stays, before.step_close notString isClose, none, List.nil_append]
  change (Index.ofText text).strayCloses.headD (.afterText text.toList) = _ ↔
    unmatched Progress.start.opens.length _ = 0
  rw [← level, all]
  by_cases top : before.opens.length = 0
  · rw [if_pos top]
    exact iff_of_true rfl top
  · rw [if_neg top]
    -- the index takes the parenthesis for the end of a list, and all that it finds later stands behind it
    refine iff_of_false (fun same => ?_) top
    have later : t.place.order < (found.headD (.afterText text.toList)).order := by
      cases found with
      | nil => exact lexed.place_lt t (by simp)
      | cons p found =>
        obtain ⟨u, mem, rfl⟩ := places p (by simp)
        have ordered := List.pairwise_append.mp lexed.ordered.2
        exact (List.pairwise_cons.mp ordered.2.1).1 u mem
    exact absurd (congrArg Position.order same).symm later.ne

theorem faultPlace_openString (split : scan text.toList = used ++ t :: rest) (closed : AllClosed used)
    (isOpenString : t.isOpenString = true) :
    faultPlace (Index.ofText text) text .unterminatedString = t.place := by
  obtain ⟨before, run, strings, _⟩ := Progress.start.run_closed closed (t :: rest)
  obtain ⟨_, found, _, stays, _⟩ := (before.step t rest).run_found rest
  have here : (before.step t rest).openStrings = [t.place] := by
    rw [Progress.step, if_pos isOpenString, strings]
    rfl
  change (Progress.start.run (scan text.toList)).openStrings.headD _ = _
  rw [split, run, Progress.run, stays, here]
  rfl

/-! ## The error -/

/-- Where an error is shown when the reader leaves a port: at the lexeme that the reader has refused, or at the
end of the text; but a closing parenthesis after a quote marker is missed where a list is open. -/
inductive IsShown (ts : List Lexeme) (ending place : Position) : FormFault → Port → Prop
  | close {used rest : List Lexeme} {t : Lexeme} {q : Port} : ts = used ++ t :: rest → t.token = ")" →
      q.Gives rest → unmatched 0 (tokensOf used) = 0 ∨ EndsQuoting (tokensOf used) →
      (place = t.place ↔ unmatched 0 (tokensOf used) = 0) → IsShown ts ending place .unexpectedClose q
  | openString {used rest : List Lexeme} {t : Lexeme} {q : Port} : ts = used ++ t :: rest →
      t.isOpenString = true → t.isString = true → q.Gives (t :: rest) → place = t.place →
      IsShown ts ending place .unterminatedString q
  | ended {q : Port} : EndsQuoting (tokensOf ts) → q.Gives [] → place = ending →
      IsShown ts ending place .nothingQuoted q

/-- For every text that the reader refuses as malformed, the diagnosis begins with one error, which is shown where
the reader has stopped, unless that is a closing parenthesis after a quote marker in an open list. -/
theorem diagnose_error_place {form : String} {fault : FormFault}
    (refused : readerFailure? room text = some (.malformed form fault)) :
    ∃ d q, diagnose room text (Index.ofText text) = .ok (d :: warnings (Index.ofText text)) ∧
      d.severity = .error ∧ (Port.ofText text ⟨0, []⟩).Stops room (.malformed form fault) q ∧
      IsShown (scan text.toList) (.afterText text.toList) d.range.start fault q := by
  have lexed := lexed_scan text.toList
  obtain ⟨q, stops, refuses⟩ := stops_of_collect (.ofText lexed ⟨0, []⟩) refused
  let d : Diagnostic :=
    ⟨.ofWidth (faultPlace (Index.ofText text) text fault) 1, (Failure.malformed form fault).message, .error⟩
  refine ⟨d, q, ?_, rfl, stops, ?_⟩
  · rw [diagnose_eq, refused]
    rfl
  · cases refuses with
    | close used split closed isClose gives own known =>
      exact .close split isClose gives known (faultPlace_close split closed isClose own)
    | openString used split closed isOpenString gives =>
      have isString := lexed.isString _ (by rw [split]; simp) isOpenString
      exact .openString split isOpenString isString gives (faultPlace_openString split closed isOpenString)
    | ended closed gives idle => exact .ended idle gives rfl

/-- A closing parenthesis after a quote marker in an open list, for which the error is shown elsewhere. -/
theorem diagnose_error_place_quoted :
    readerFailure? 9 "(')" = some (.malformed ")" .unexpectedClose) ∧
    ∃ d, diagnose 9 "(')" (Index.ofText "(')") = .ok (d :: warnings (Index.ofText "(')")) ∧
      d.range.start ≠ ⟨0, 2⟩ := by
  have refused : readerFailure? 9 "(')" = some (.malformed ")" .unexpectedClose) := by decide
  have scanned : scan "(')".toList =
      [⟨['('], ⟨0, 0⟩, false⟩, ⟨['\''], ⟨0, 1⟩, false⟩, ⟨[')'], ⟨0, 2⟩, false⟩] := by decide
  obtain ⟨d, q, given, _, _, shown⟩ := diagnose_error_place refused
  refine ⟨refused, d, given, ?_⟩
  cases shown with
  | @close used rest t _ split isClose _ _ found =>
    rw [scanned] at split
    match used with
    | [] =>
      cases split
      exact absurd isClose (by decide)
    | [_] =>
      cases split
      exact absurd isClose (by decide)
    | [_, _] =>
      cases split
      exact mt found.mp (by decide)
    | _ :: _ :: _ :: more =>
      have none := congrArg List.length split
      simp only [List.length_append, List.length_cons, List.length_nil] at none
      omega

end SmallLisp.Editor
