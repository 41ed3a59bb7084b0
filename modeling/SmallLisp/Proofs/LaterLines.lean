import SmallLisp.Proofs.ReadingEnds
/-!
# Texts that go on

What is read from a port when more lines follow those that it has. A token ends on its line, so it is the
same whatever follows; a form is, unless it was the end of the text that closed it. Then its tokens leave
a list open, which can be told by counting parentheses.
-/
namespace SmallLisp.Reader

open Editor Run

variable {α β : Type} {p q r : Port} {ts : List Lexeme} {us : List String} {fuel room : Nat}
  {table : SymbolTable} {more : List (List Char)}

/-- A port with more lines below, and with another table. -/
def Port.onto (p : Port) (more : List (List Char)) (table : SymbolTable) : Port :=
  ⟨p.line, p.below ++ more, table⟩

theorem unread_onto (p : Port) (more : List (List Char)) (table : SymbolTable) :
    (p.onto more table).unread = p.unread + Port.unread ⟨[], more, table⟩ := by
  rw [unread_eq, unread_eq, unread_eq, Port.onto]
  simp only [List.map_append, List.sum_append, List.length_nil]
  omega

theorem Port.Gives.onto_nil (h : p.Gives ts) (table : SymbolTable) : (p.onto [] table).Gives ts := by
  unfold Port.onto
  rw [List.append_nil]
  exact h.withSymbols table

/-- A token that a port gives is that of its first lexeme. -/
theorem Port.Gives.of_token {token : String} (gives : p.Gives ts)
    (h : outcome nextToken p = (.ok (some token), q)) :
    ∃ t ts', ts = t :: ts' ∧ t.token = token ∧ t.isOpenString = false ∧ q.Gives ts' := by
  cases ts with
  | nil =>
    rw [gives.nextToken_nil] at h
    cases h
  | cons t ts =>
    cases openString : t.isOpenString with
    | true =>
      obtain ⟨_, stopped⟩ := gives.nextToken_openString openString
      rw [stopped] at h
      cases h
    | false =>
      obtain ⟨_, given, _, after⟩ := gives.nextToken_cons openString
      rw [given] at h
      cases h
      exact ⟨t, ts, rfl, rfl, openString, after⟩

theorem Port.Gives.of_end (gives : p.Gives ts) (h : outcome nextToken p = (.ok none, q)) :
    ts = [] ∧ q = ⟨[], [], p.symbols⟩ := by
  cases ts with
  | nil =>
    rw [gives.nextToken_nil] at h
    cases h
    exact ⟨rfl, rfl⟩
  | cons t ts =>
    cases openString : t.isOpenString with
    | true =>
      obtain ⟨_, stopped⟩ := gives.nextToken_openString openString
      rw [stopped] at h
      cases h
    | false =>
      obtain ⟨_, given, _⟩ := gives.nextToken_cons openString
      rw [given] at h
      cases h

/-- A computation reads something from a port whatever lines follow, with this much fuel or more. What it
enters into the table depends on neither. -/
def Carries (a : Nat → Reading α) (fuel : Nat) (p : Port) (x : α) (q : Port) : Prop :=
  ∀ table, ∃ table', ∀ enough more, fuel ≤ enough →
    outcome (a enough) (p.onto more table) = (.ok x, q.onto more table')

namespace Carries

variable {a : Nat → Reading α} {x : α} {y : β}

theorem pure (x : α) (p : Port) : Carries (fun _ => Pure.pure x) fuel p x p :=
  fun table => ⟨table, fun _ _ _ => rfl⟩

theorem bind {k : Nat → α → Reading β} (first : Carries a fuel p x q)
    (rest : Carries (fun n => k n x) fuel q y r) : Carries (fun n => a n >>= k n) fuel p y r := by
  intro table
  obtain ⟨table', reads⟩ := first table
  obtain ⟨table'', goesOn⟩ := rest table'
  refine ⟨table'', fun enough more le => ?_⟩
  rw [outcome_bind_of_ok (reads enough more le)]
  exact goesOn enough more le

theorem succ (h : Carries (fun n => a (n + 1)) fuel p x q) : Carries a (fuel + 1) p x q := by
  intro table
  obtain ⟨table', reads⟩ := h table
  refine ⟨table', fun enough more le => ?_⟩
  obtain ⟨enough, rfl⟩ : ∃ n, enough = n + 1 := ⟨enough - 1, by omega⟩
  exact reads enough more (Nat.le_of_succ_le_succ le)

theorem record (keyword : String) (p : Port) : Carries (fun _ => record keyword) fuel p () p :=
  fun table => ⟨(table.intern keyword).2, fun _ _ _ => rfl⟩

theorem readAtom {token : String} {d : Datum} (h : atom token = .ok d) (p : Port) :
    Carries (fun _ => readAtom token) fuel p d p := by
  intro table
  unfold Reader.readAtom
  rw [h]
  cases d with
  | symbol name => exact ⟨(table.intern name).2, fun _ _ _ => rfl⟩
  | _ => exact ⟨table, fun _ _ _ => rfl⟩

theorem nextToken {token : String} (h : outcome nextToken p = (.ok (some token), q)) :
    Carries (fun _ => nextToken) fuel p (some token) q := by
  refine fun table => ⟨table, fun _ more _ => ?_⟩
  obtain ⟨line, below, symbols⟩ := p
  change outcome Reader.nextToken ⟨line, below ++ more, table⟩ = _
  induction below generalizing line with
  | nil =>
    cases start : LineStart.ofLine line with
    | token text rest =>
      rw [nextToken_of_token start] at h ⊢
      cases h
      rfl
    | openString text =>
      rw [nextToken_of_openString start] at h
      cases h
    | nothing =>
      rw [nextToken_of_nothing start] at h
      cases h
  | cons next below ih =>
    cases start : LineStart.ofLine line with
    | token text rest =>
      rw [nextToken_of_token start] at h ⊢
      cases h
      rfl
    | openString text =>
      rw [nextToken_of_openString start] at h
      cases h
    | nothing =>
      rw [nextToken_below start] at h
      rw [List.cons_append, nextToken_below start]
      exact ih next h

end Carries

/-- Where a text has no more tokens, those of the lines below are next. -/
theorem nextToken_onto (h : outcome nextToken p = (.ok none, q)) (more : List (List Char))
    (table : SymbolTable) :
    outcome nextToken (p.onto more table) = outcome nextToken ⟨[], more, table⟩ := by
  obtain ⟨line, below, symbols⟩ := p
  change outcome nextToken ⟨line, below ++ more, table⟩ = _
  induction below generalizing line with
  | nil =>
    cases start : LineStart.ofLine line with
    | token text rest =>
      rw [nextToken_of_token start] at h
      cases h
    | openString text =>
      rw [nextToken_of_openString start] at h
      cases h
    | nothing =>
      cases more with
      | nil => exact (nextToken_of_nothing start).trans (nextToken_of_nothing rfl).symm
      | cons first more => exact (nextToken_below start).trans (nextToken_below rfl).symm
  | cons next below ih =>
    cases start : LineStart.ofLine line with
    | token text rest =>
      rw [nextToken_of_token start] at h
      cases h
    | openString text =>
      rw [nextToken_of_openString start] at h
      cases h
    | nothing =>
      rw [nextToken_below start] at h
      rw [List.cons_append, nextToken_below start]
      exact ih next h

/-- The same parentheses are unmatched after these tokens as before them. -/
def Balanced (us : List String) : Prop :=
  ∀ n, unmatched n us = n

/-- More parentheses are unmatched after these tokens than before them. -/
def LeavesOpen (us : List String) : Prop :=
  ∀ n, n < unmatched n us

theorem unmatched_open (n : Nat) (us : List String) : unmatched n ("(" :: us) = unmatched (n + 1) us :=
  rfl

theorem unmatched_cons_of_not_mark {token : String} (notOpen : token ≠ "(") (notClose : token ≠ ")")
    (n : Nat) (us : List String) : unmatched n (token :: us) = unmatched n us := by
  rw [unmatched, if_neg notOpen, if_neg notClose]

/-- Balanced tokens in an open list change nothing. -/
theorem Balanced.inside (h : Balanced us) (n : Nat) (vs : List String) :
    unmatched n ("(" :: (us ++ vs)) = unmatched n ("(" :: vs) := by
  rw [unmatched_open, unmatched_open, unmatched_append, h]

/-- How something was read that begins with the tokens before it: by tokens that are balanced, and then the
same way whatever lines follow, or up to the end of the text with a list left open. -/
def Passes (a : Nat → Reading α) (fuel : Nat) (before : List String) (ts : List Lexeme) (p : Port)
    (x : α) (q : Port) : Prop :=
  ∃ used rest, ts = used ++ rest ∧ AllClosed used ∧ q.Gives rest ∧
    (Balanced (before ++ tokensOf used) ∧ Carries a fuel p x q ∨
      rest = [] ∧ LeavesOpen (before ++ tokensOf used))

namespace Passes

variable {token : String} {d : Datum} {ds : List Datum} {t : Lexeme}

theorem atomToken (notOpen : token ≠ "(") (notClose : token ≠ ")") (notQuote : quoteKeyword? token = none)
    (gives : p.Gives ts) (h : outcome (readFrom (fuel + 1) room token) p = (.ok d, q)) :
    Passes (readFrom · room token) (fuel + 1) [token] ts p d q := by
  have step (n : Nat) : readFrom (n + 1) room token = readAtom token :=
    readFrom_atomToken notOpen notClose notQuote
  rw [step] at h
  have made := readAtom_ok h
  obtain ⟨table, read⟩ := readAtom_of_ok made p
  obtain rfl := (Prod.mk.inj (read.symm.trans h)).2
  refine ⟨[], ts, rfl, .nil, gives.withSymbols table, Or.inl ⟨fun n => ?_, .succ ?_⟩⟩
  · exact unmatched_cons_of_not_mark notOpen notClose n []
  · simp only [step]
    exact Carries.readAtom made p

/-- A list is read by its items. -/
theorem list (h : Passes (readItems · room) fuel ["("] ts p ds q) :
    Passes (readFrom · (room + 1) "(") (fuel + 1) ["("] ts p (.list ds) q := by
  obtain ⟨used, rest, split, closed, gives, ending⟩ := h
  refine ⟨used, rest, split, closed, gives, ending.imp_left fun ⟨balanced, carries⟩ => ?_⟩
  refine ⟨balanced, .succ ?_⟩
  simp only [readFrom, if_pos]
  exact carries.bind (.pure _ q)

/-- A quotation is read by what is quoted. -/
theorem quoted {keyword : String} (quote : quoteKeyword? token = some keyword)
    (first : outcome nextToken p = (.ok (some t.token), q)) (closed : t.isOpenString = false)
    (h : Passes (readFrom · room t.token) fuel [t.token] ts q d r) (symbols : SymbolTable) :
    Passes (readFrom · (room + 1) token) (fuel + 1) [token] (t :: ts) p (.list [.symbol keyword, d])
      { r with symbols } := by
  obtain ⟨notOpen, notClose⟩ := not_mark_of_quote quote
  have skip := unmatched_cons_of_not_mark notOpen notClose
  obtain ⟨used, rest, rfl, closedUsed, gives, ending⟩ := h
  refine ⟨t :: used, rest, rfl, closedUsed.cons closed, gives.withSymbols symbols, ?_⟩
  rcases ending with ⟨balanced, carries⟩ | ⟨ended, leftOpen⟩
  · refine Or.inl ⟨fun n => (skip n _).trans (balanced n), .succ ?_⟩
    simp only [readFrom_quote quote]
    refine (Carries.nextToken first).bind (carries.bind ?_)
    exact (Carries.record keyword r).bind (.pure _ r)
  · exact Or.inr ⟨ended, fun n => (leftOpen n).trans_eq (skip n _).symm⟩

/-- The items of a list end at its closing parenthesis. -/
theorem close (first : outcome nextToken p = (.ok (some t.token), q)) (closed : t.isOpenString = false)
    (isClose : t.token = ")") (gives : q.Gives ts) :
    Passes (readItems · room) (fuel + 1) ["("] (t :: ts) p [] q := by
  refine ⟨[t], ts, rfl, .cons closed .nil, gives, Or.inl ⟨fun n => ?_, .succ ?_⟩⟩
  · change unmatched (n + 1) [t.token] = n
    rw [isClose]
    rfl
  · simp only [readItems]
    refine (Carries.nextToken first).bind ?_
    simp only [if_pos isClose]
    exact .pure _ q

/-- The items of a list end with the text. -/
theorem ended (symbols : SymbolTable) :
    Passes (readItems · room) fuel ["("] [] p [] ⟨[], [], symbols⟩ :=
  ⟨[], [], rfl, .nil, .ended symbols, Or.inr ⟨rfl, fun n => Nat.lt_succ_self n⟩⟩

/-- An item and the items after it. -/
theorem item {s : Port} (first : outcome nextToken p = (.ok (some t.token), q))
    (closed : t.isOpenString = false) (notClose : t.token ≠ ")")
    (form : Passes (readFrom · room t.token) fuel [t.token] ts q d r)
    (later : ∀ rest, r.Gives rest → Passes (readItems · room) fuel ["("] rest r ds s) :
    Passes (readItems · room) (fuel + 1) ["("] (t :: ts) p (d :: ds) s := by
  obtain ⟨used, rest, rfl, closedUsed, gives, formEnd⟩ := form
  obtain ⟨used', rest', rfl, closedUsed', gives', itemsEnd⟩ := later rest gives
  refine ⟨t :: (used ++ used'), rest', by rw [List.cons_append, List.append_assoc],
    (closedUsed.append closedUsed').cons closed, gives', ?_⟩
  have tokens : ["("] ++ tokensOf (t :: (used ++ used')) =
      "(" :: (([t.token] ++ tokensOf used) ++ tokensOf used') := by
    rw [tokensOf, List.map_cons, List.map_append]
    rfl
  rw [tokens]
  rcases formEnd with ⟨balanced, carries⟩ | ⟨none, leftOpen⟩
  · rcases itemsEnd with ⟨balanced', carries'⟩ | ⟨none, leftOpen⟩
    · refine Or.inl ⟨fun n => (balanced.inside n _).trans (balanced' n), .succ ?_⟩
      simp only [readItems]
      refine (Carries.nextToken first).bind ?_
      simp only [if_neg notClose]
      exact carries.bind (carries'.bind (.pure _ s))
    · exact Or.inr ⟨none, fun n => (leftOpen n).trans_eq (balanced.inside n _).symm⟩
  · obtain ⟨rfl, rfl⟩ := List.append_eq_nil_iff.mp none
    refine Or.inr ⟨rfl, fun n => ?_⟩
    have more := leftOpen (n + 1)
    change n < unmatched (n + 1) (([t.token] ++ tokensOf used) ++ [])
    rw [List.append_nil]
    omega

end Passes

/-- Whatever is read is read in one of the two ways. -/
theorem passes_of_ok (fuel : Nat) :
    (∀ {room token ts p d q}, p.Gives ts → outcome (readFrom fuel room token) p = (.ok d, q) →
      Passes (readFrom · room token) fuel [token] ts p d q) ∧
    (∀ {room ts p ds q}, p.Gives ts → outcome (readItems fuel room) p = (.ok ds, q) →
      Passes (readItems · room) fuel ["("] ts p ds q) := by
  induction fuel with
  | zero =>
    constructor
    · intro _ _ _ _ _ _ _ h
      cases h
    · intro _ _ _ _ _ _ h
      cases h
  | succ fuel ih =>
    obtain ⟨form, items⟩ := ih
    constructor
    · intro room token ts p d q gives h
      by_cases isOpen : token = "("
      · subst isOpen
        rw [outcome_readFrom_open] at h
        obtain ⟨room, rfl, h⟩ := outcome_deeper_ok h
        obtain ⟨ds, r, inside, made⟩ := outcome_bind_ok.mp h
        cases made
        exact (items gives inside).list
      by_cases isClose : token = ")"
      · subst isClose
        cases h
      cases quote : quoteKeyword? token with
      | none => exact .atomToken isOpen isClose quote gives h
      | some keyword =>
        cases room with
        | zero =>
          rw [readFrom, if_neg isOpen, if_neg isClose, quote] at h
          cases h
        | succ room =>
          rw [readFrom_quote quote] at h
          obtain ⟨_ | next, q', first, h⟩ := outcome_bind_ok.mp h
          · cases h
          · obtain ⟨t, ts, rfl, rfl, closed, after⟩ := gives.of_token first
            obtain ⟨d', r, inner, made⟩ := outcome_bind_ok.mp h
            cases made
            exact .quoted quote first closed (form after inner) _
    · intro room ts p ds q gives h
      unfold readItems at h
      obtain ⟨_ | next, q', first, h⟩ := outcome_bind_ok.mp h
      · obtain ⟨rfl, rfl⟩ := gives.of_end first
        cases h
        exact .ended _
      · obtain ⟨t, ts, rfl, rfl, closed, after⟩ := gives.of_token first
        dsimp only at h
        by_cases isClose : t.token = ")"
        · rw [if_pos isClose] at h
          cases h
          exact .close first closed isClose after
        · rw [if_neg isClose] at h
          obtain ⟨d, r, one, h⟩ := outcome_bind_ok.mp h
          obtain ⟨ds', s, others, made⟩ := outcome_bind_ok.mp h
          cases made
          exact .item first closed isClose (form after one) fun rest gives => items gives others

/-! ## All forms of a text -/

/-- A form takes a token at least, and it is read the same way whatever follows it, unless a list was left
open. -/
theorem read_of_ok {d : Datum} (gives : p.Gives ts) (h : outcome (read room) p = (.ok (some d), q)) :
    ∃ t used rest, ts = t :: (used ++ rest) ∧ AllClosed (t :: used) ∧ q.Gives rest ∧
      (Balanced (tokensOf (t :: used)) ∧ Carries (fun _ => read room) 0 p (some d) q ∨
        rest = [] ∧ LeavesOpen (tokensOf (t :: used))) := by
  unfold read at h
  rw [outcome_bind_of_ok (outcome_get p)] at h
  obtain ⟨_ | next, q', first, h⟩ := outcome_bind_ok.mp h
  · cases h
  · obtain ⟨t, ts, rfl, rfl, closed, after⟩ := gives.of_token first
    obtain ⟨d', r, form, made⟩ := outcome_bind_ok.mp h
    cases made
    obtain ⟨used, rest, rfl, closedUsed, gives, ending⟩ := (passes_of_ok _).1 after form
    refine ⟨t, used, rest, rfl, closedUsed.cons closed, gives, ending.imp_left ?_⟩
    rintro ⟨balanced, carries⟩
    refine ⟨balanced, fun table => ?_⟩
    obtain ⟨table', first⟩ := Carries.nextToken first table
    obtain ⟨table'', form⟩ := carries table'
    refine ⟨table'', fun enough more le => read_form (first enough more le) (form _ more ?_)⟩
    rw [unread_onto]
    omega

/-- No form is read only where no lexeme is left. -/
theorem read_of_none (gives : p.Gives ts) (h : outcome (read room) p = (.ok none, q)) : ts = [] := by
  unfold read at h
  rw [outcome_bind_of_ok (outcome_get p)] at h
  obtain ⟨_ | next, q', first, h⟩ := outcome_bind_ok.mp h
  · exact (gives.of_end first).1
  · obtain ⟨_, _, _, made⟩ := outcome_bind_ok.mp h
    cases made

/-- What is read depends on the next token and on what is left after it. -/
theorem read_congr {p' : Port} (same : outcome nextToken p = outcome nextToken p') :
    outcome (read room) p = outcome (read room) p' := by
  unfold read
  rw [outcome_bind_of_ok (outcome_get p), outcome_bind_of_ok (outcome_get p')]
  refine outcome_bind_congr same fun next q first => ?_
  cases next with
  | none => rfl
  | some token =>
    have taken := (unread_lt_of_token first).2
    have taken' := (unread_lt_of_token (same.symm.trans first)).2
    refine outcome_bind_congr ?_ fun _ _ _ => rfl
    exact readFrom_fuel (by omega) (by omega)

/-- A port from which this many forms are read, each of them whatever lines follow, until nothing is left. -/
inductive ReadsOut (room : Nat) : Nat → Port → Prop where
  | done {p q : Port} (last : outcome nextToken p = (.ok none, q)) : ReadsOut room 0 p
  | form {n : Nat} {p q : Port} {d : Datum} (first : Carries (fun _ => read room) 0 p (some d) q)
      (rest : ReadsOut room n q) : ReadsOut room (n + 1) p

/-- When all forms of a text are read, its strings are closed; and when no list is left open besides, they
are read whatever lines follow. -/
theorem readsOut_of_collect (gives : p.Gives ts) (enough : ts.length < fuel)
    (h : (collect (read room) fuel p).2 = none) :
    AllClosed ts ∧ (unmatched 0 (tokensOf ts) = 0 → ∃ n ≤ ts.length, ReadsOut room n p) := by
  induction fuel generalizing p ts with
  | zero => omega
  | succ fuel ih =>
    rcases form : outcome (read room) p with ⟨f | _ | d, q⟩
    · rw [collect_error form] at h
      cases h
    · obtain rfl := read_of_none gives form
      exact ⟨.nil, fun _ => ⟨0, Nat.le_refl 0, .done gives.nextToken_nil⟩⟩
    · rw [collect_some form] at h
      obtain ⟨t, used, rest, rfl, closed, after, ending⟩ := read_of_ok gives form
      rw [List.length_cons, List.length_append] at enough
      obtain ⟨closedRest, more⟩ := ih after (by omega) h
      refine ⟨closed.append closedRest, fun level => ?_⟩
      rw [← List.cons_append, tokensOf_append, unmatched_append] at level
      rcases ending with ⟨balanced, carries⟩ | ⟨rfl, leftOpen⟩
      · rw [balanced] at level
        obtain ⟨n, le, out⟩ := more level
        refine ⟨n + 1, ?_, .form carries out⟩
        rw [List.length_cons, List.length_append]
        omega
      · exact absurd level (leftOpen 0).ne'

end SmallLisp.Reader
