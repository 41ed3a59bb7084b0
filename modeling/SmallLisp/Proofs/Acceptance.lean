import SmallLisp.Editor.Index
import SmallLisp.Proofs.Grammar
import SmallLisp.Proofs.RoundTrip
/-!
# Which texts are read

A text is refused just when a string is left open, a closing parenthesis is stray or a quote is idle. Every
other text is read as if the lists that are still open at its end were closed there; the index counts
exactly these. Integers with too many digits are left out, and so is nesting beyond the limit, which
needs more tokens that open a level than the limit allows.
-/
namespace SmallLisp.Reader

open Editor Run

variable {p q : Port} {ts : List Lexeme} {us : List String} {fuel room : Nat}

def HasOpenString (ts : List Lexeme) : Prop :=
  ∃ t ∈ ts, t.isOpenString = true

instance (ts : List Lexeme) : Decidable (HasOpenString ts) :=
  inferInstanceAs (Decidable (∃ t ∈ ts, t.isOpenString = true))

/-- What a text is refused for. -/
def IsFaulty (ts : List Lexeme) : Prop :=
  HasOpenString ts ∨ HasStrayClose 0 (tokensOf ts) ∨ HasIdleQuote (tokensOf ts)

instance (ts : List Lexeme) : Decidable (IsFaulty ts) :=
  inferInstanceAs (Decidable (HasOpenString ts ∨ _ ∨ _))

/-- A failure of reading for which the tokens are to blame. -/
def Blames (room : Nat) (us : List String) (openString : Prop) (f : Failure) : Prop :=
  f = .tooDeep ∧ room < levels us ∨
    (∃ form fault, f = .malformed form fault) ∧ (openString ∨ HasIdleQuote us)

/-- Reading took the first lexemes of a port. These tokens are whole, or become so when closing
parentheses are added and no lexeme is left. -/
def Took (Whole : List String → Prop) (before : List String) (ts : List Lexeme) (q : Port) : Prop :=
  ∃ used rest k, ts = used ++ rest ∧ AllClosed used ∧ q.Gives rest ∧
    Whole (before ++ tokensOf used ++ List.replicate k ")") ∧ (k = 0 ∨ rest = [])

/-- How reading ends: it took what it gives, or the tokens are to blame. -/
def EndsWell {α : Type} (Whole : α → List String → Prop) (room : Nat) (before : List String)
    (ts : List Lexeme) : Except Failure α × Port → Prop
  | (.ok a, q) => Took (Whole a) before ts q
  | (.error f, _) => Blames room (before ++ tokensOf ts) (HasOpenString ts) f

/-- How reading all forms ends: they are made of all the tokens, or the lexemes are faulty. -/
def ReadsAll (room : Nat) (ts : List Lexeme) : List Datum × Option Failure → Prop
  | (ds, none) => ∃ k, AllClosed ts ∧ AreForms (tokensOf ts ++ List.replicate k ")") ds
  | (_, some f) => f = .tooDeep ∧ room < levels (tokensOf ts) ∨
      (∃ form fault, f = .malformed form fault) ∧ IsFaulty ts

/-- The tokens of the items of an open list and of its end. -/
def AreItems (ds : List Datum) (us : List String) : Prop :=
  ∃ vs, us = vs ++ [")"] ∧ AreForms vs ds

theorem levels_append (us vs : List String) : levels (us ++ vs) = levels us + levels vs :=
  List.countP_append

theorem levels_cons_of_deeper {token : String} (h : goesDeeper token = true) (us : List String) :
    levels (token :: us) = levels us + 1 :=
  List.countP_cons_of_pos h

theorem HasOpenString.of_suffix {rest : List Lexeme} (h : HasOpenString rest) (used : List Lexeme) :
    HasOpenString (used ++ rest) := by
  obtain ⟨t, mem, openString⟩ := h
  exact ⟨t, List.mem_append_right used mem, openString⟩

theorem ShortIntegers.mono {vs : List String} (h : ShortIntegers vs) (sub : ∀ t ∈ us, t ∈ vs) :
    ShortIntegers us :=
  fun token mem => h token (sub token mem)

/-- The tokens after some of them. -/
theorem ShortIntegers.later {t : Lexeme} {used rest : List Lexeme}
    (h : ShortIntegers (tokensOf (t :: (used ++ rest)))) : ShortIntegers (tokensOf rest) := by
  refine h.mono fun token mem => ?_
  rw [tokensOf, List.map_cons, List.map_append]
  exact List.mem_cons_of_mem _ (List.mem_append_right _ mem)

namespace Blames

variable {openString openString' : Prop} {f : Failure}

/-- What a part is to blame for, the whole is. -/
theorem mono (h : Blames room us openString f) (before : List String) {room' : Nat}
    (deep : room < levels us → room' < levels (before ++ us)) (strings : openString → openString') :
    Blames room' (before ++ us) openString' f := by
  rcases h with ⟨nesting, few⟩ | ⟨malformed, why⟩
  · exact Or.inl ⟨nesting, deep few⟩
  · exact Or.inr ⟨malformed, why.imp strings fun idle => idle.append before⟩

theorem of_suffix {rest : List Lexeme} (h : Blames room (tokensOf rest) (HasOpenString rest) f)
    (used : List Lexeme) :
    Blames room (tokensOf (used ++ rest)) (HasOpenString (used ++ rest)) f := by
  rw [tokensOf_append]
  refine h.mono (tokensOf used) (fun few => ?_) fun strings => strings.of_suffix used
  rw [levels_append]
  exact Nat.lt_add_left _ few

theorem leftOpen {t : Lexeme} (openString : t.isOpenString = true) (us : List String) :
    Blames room us (HasOpenString (t :: ts)) t.unterminated :=
  Or.inr ⟨⟨_, _, rfl⟩, Or.inl ⟨t, by simp, openString⟩⟩

theorem idle {token : String} (form : String) (fault : FormFault)
    (quote : (quoteKeyword? token).isSome = true) (after : us = [] ∨ ∃ more, us = ")" :: more) :
    Blames room (token :: us) openString (.malformed form fault) :=
  Or.inr ⟨⟨form, fault, rfl⟩, Or.inr ⟨[], token, us, rfl, quote, after⟩⟩

theorem readsAll (h : Blames room (tokensOf ts) (HasOpenString ts) f) (ds : List Datum) :
    ReadsAll room ts (ds, some f) := by
  rcases h with few | ⟨malformed, openString | idle⟩
  · exact Or.inl few
  · exact Or.inr ⟨malformed, Or.inl openString⟩
  · exact Or.inr ⟨malformed, Or.inr (Or.inr idle)⟩

end Blames

theorem atom_of_short {token : String} (short : ShortIntegers (token :: us)) :
    ∃ d, atom token = .ok d := by
  unfold atom
  dsimp only
  split
  · exact ⟨_, rfl⟩
  · split
    · exact ⟨_, rfl⟩
    · split
      · exact ⟨_, rfl⟩
      · split
        · rename_i literal
          unfold integerAtom
          rw [if_neg (Nat.not_lt.mpr (short token (by simp) _ _ literal))]
          exact ⟨_, rfl⟩
        · split
          · exact ⟨_, rfl⟩
          · exact ⟨_, rfl⟩

theorem Port.Gives.ended (symbols : SymbolTable) : Port.Gives ⟨[], [], symbols⟩ [] :=
  ⟨⟨0, 0⟩, [], Or.inl rfl, .done⟩

/-- One level deeper, or no room for it. -/
theorem outcome_readFrom_open (fuel room : Nat) (p : Port) :
    outcome (readFrom (fuel + 1) room "(") p =
      outcome (deeper room fun room => do return .list (← readItems fuel room)) p := by
  rw [readFrom, if_pos rfl]

theorem endsWell_open (deeper : ∀ room, EndsWell AreItems room [] ts (outcome (readItems fuel room) p)) :
    EndsWell (fun d us => IsForm us d) room ["("] ts (outcome (readFrom (fuel + 1) room "(") p) := by
  have mark : goesDeeper "(" = true := rfl
  cases room with
  | zero =>
    have level := levels_cons_of_deeper mark (tokensOf ts)
    exact Or.inl ⟨rfl, by change 0 < levels ("(" :: tokensOf ts); omega⟩
  | succ room =>
    have inner := deeper room
    rw [outcome_readFrom_open]
    change EndsWell _ _ _ _ (outcome (readItems fuel room >>= fun ds => pure (Datum.list ds)) p)
    rw [outcome_bind]
    generalize outcome (readItems fuel room) p = o at inner
    rcases o with ⟨f | ds, q⟩
    · refine Blames.mono inner ["("] (fun few => ?_) id
      change room + 1 < levels ("(" :: tokensOf ts)
      rw [levels_cons_of_deeper mark]
      exact Nat.succ_lt_succ few
    · obtain ⟨used, rest, k, split, closed, gives, ⟨vs, whole, items⟩, ended⟩ := inner
      refine ⟨used, rest, k, split, closed, gives, ?_, ended⟩
      change IsForm ("(" :: (tokensOf used ++ List.replicate k ")")) _
      rw [List.nil_append] at whole
      rw [whole]
      exact .list items

theorem AllClosed.nil : AllClosed [] := fun _ mem => absurd mem List.not_mem_nil

theorem AllClosed.cons {t : Lexeme} (closed : t.isOpenString = false) (h : AllClosed ts) :
    AllClosed (t :: ts) := by
  intro l mem
  rcases List.mem_cons.mp mem with rfl | mem
  · exact closed
  · exact h l mem

theorem AllClosed.append {us : List Lexeme} (h : AllClosed ts) (h' : AllClosed us) :
    AllClosed (ts ++ us) := by
  intro l mem
  rcases List.mem_append.mp mem with mem | mem
  · exact h l mem
  · exact h' l mem

theorem goesDeeper_of_quote {token keyword : String} (quote : quoteKeyword? token = some keyword) :
    goesDeeper token = true := by
  unfold goesDeeper
  rw [quote, Option.isSome_some, Bool.or_true]

/-- A quoted form. -/
theorem endsWell_quoted {token keyword : String} {t : Lexeme} (quote : quoteKeyword? token = some keyword)
    (closed : t.isOpenString = false) {reading : Reading Datum}
    (inner : EndsWell (fun d us => IsForm us d) room [t.token] ts (outcome reading q)) :
    EndsWell (fun d us => IsForm us d) (room + 1) [token] (t :: ts)
      (outcome (do
        let quoted ← reading
        record keyword
        return .list [.symbol keyword, quoted]) q) := by
  rw [outcome_bind]
  generalize outcome reading q = o at inner
  rcases o with ⟨f | d, r⟩
  · refine Blames.mono inner [token] (fun few => ?_) fun strings => strings.of_suffix [t]
    change room + 1 < levels (token :: t.token :: tokensOf ts)
    rw [levels_cons_of_deeper (goesDeeper_of_quote quote)]
    exact Nat.succ_lt_succ few
  · obtain ⟨used, rest, k, rfl, closedUsed, gives, form, ended⟩ := inner
    exact ⟨t :: used, rest, k, rfl, closedUsed.cons closed, gives, .quoted quote form, ended⟩

/-- Reading goes on with the next token, unless it is missing, a closing parenthesis or a string left open. -/
theorem endsWell_quote {token keyword : String} (quote : quoteKeyword? token = some keyword)
    (gives : p.Gives ts) (positive : 0 < fuel)
    (deeper : ∀ t ts' q room, ts = t :: ts' → t.token ≠ ")" → q.Gives ts' →
      EndsWell (fun d us => IsForm us d) room [t.token] ts' (outcome (readFrom fuel room t.token) q)) :
    EndsWell (fun d us => IsForm us d) room [token] ts
      (outcome (readFrom (fuel + 1) room token) p) := by
  have isQuote : (quoteKeyword? token).isSome = true := by rw [quote]; rfl
  obtain ⟨notOpen, notClose⟩ := not_mark_of_quote quote
  cases room with
  | zero =>
    have level := levels_cons_of_deeper (goesDeeper_of_quote quote) (tokensOf ts)
    rw [readFrom, if_neg notOpen, if_neg notClose, quote]
    exact Or.inl ⟨rfl, by change 0 < levels (token :: tokensOf ts); omega⟩
  | succ room =>
    rw [readFrom_quote quote, outcome_bind]
    cases ts with
    | nil =>
      rw [gives.nextToken_nil]
      exact Blames.idle _ _ isQuote (Or.inl rfl)
    | cons t ts =>
      cases openString : t.isOpenString with
      | true =>
        obtain ⟨q, stopped⟩ := gives.nextToken_openString openString
        rw [stopped]
        exact Blames.leftOpen openString _
      | false =>
        obtain ⟨q, given, _, more⟩ := gives.nextToken_cons openString
        rw [given]
        dsimp only
        by_cases close : t.token = ")"
        · obtain ⟨fuel, rfl⟩ : ∃ n, fuel = n + 1 := ⟨fuel - 1, by omega⟩
          rw [close]
          refine Blames.idle _ _ isQuote (Or.inr ⟨tokensOf ts, ?_⟩)
          rw [← close]
          rfl
        · exact endsWell_quoted quote openString (deeper t ts q room rfl close more)

/-- What follows a form that was closed at the end is nothing but closing parentheses. -/
theorem closes_append {used used' rest' : List Lexeme} {k k' : Nat}
    (ended : k = 0 ∨ used' ++ rest' = []) (before : List String) :
    (before ++ tokensOf used ++ List.replicate k ")") ++ (tokensOf used' ++ List.replicate k' ")") =
      before ++ tokensOf (used ++ used') ++ List.replicate (k + k') ")" := by
  rw [tokensOf_append, List.replicate_add]
  rcases ended with rfl | none
  · simp
  · obtain ⟨rfl, rfl⟩ := List.append_eq_nil_iff.mp none
    simp [tokensOf]

/-- An item and the items after it. -/
theorem endsWell_item {d : Datum} {t : Lexeme} (closed : t.isOpenString = false)
    (item : Took (fun us => IsForm us d) [t.token] ts q)
    (later : ∀ used rest, ts = used ++ rest → q.Gives rest →
      EndsWell AreItems room [] rest (outcome (readItems fuel room) q)) :
    EndsWell AreItems room [] (t :: ts)
      (outcome (readItems fuel room >>= fun ds => pure (d :: ds)) q) := by
  obtain ⟨used, rest, k, rfl, closedUsed, gives, form, ended⟩ := item
  have more := later used rest rfl gives
  rw [outcome_bind]
  generalize outcome (readItems fuel room) q = o at more
  rcases o with ⟨f | ds, r⟩
  · exact Blames.of_suffix more (t :: used)
  · obtain ⟨used', rest', k', rfl, closedUsed', gives, ⟨vs, whole, items⟩, ended'⟩ := more
    refine ⟨t :: (used ++ used'), rest', k + k', ?_, ?_, gives, ⟨_, ?_, .cons form items⟩, ?_⟩
    · rw [List.cons_append, List.append_assoc]
    · exact (closedUsed.append closedUsed').cons closed
    · rw [List.nil_append] at whole
      rw [List.append_assoc (_ ++ _), ← whole]
      exact (closes_append ended [t.token]).symm
    · rcases ended' with rfl | none
      · rcases ended with rfl | none
        · exact Or.inl rfl
        · exact Or.inr (List.append_eq_nil_iff.mp none).2
      · exact Or.inr none

/-- The items of a list are read until it is closed or nothing is left. -/
theorem endsWell_items (gives : p.Gives ts)
    (form : ∀ t ts' q, ts = t :: ts' → t.token ≠ ")" → q.Gives ts' →
      EndsWell (fun d us => IsForm us d) room [t.token] ts' (outcome (readFrom fuel room t.token) q))
    (later : ∀ t used rest q, ts = t :: (used ++ rest) → q.Gives rest →
      EndsWell AreItems room [] rest (outcome (readItems fuel room) q)) :
    EndsWell AreItems room [] ts (outcome (readItems (fuel + 1) room) p) := by
  unfold readItems
  rw [outcome_bind]
  cases ts with
  | nil =>
    rw [gives.nextToken_nil]
    exact ⟨[], [], 1, rfl, .nil, .ended _, ⟨[], rfl, .nil⟩, Or.inr rfl⟩
  | cons t ts =>
    cases openString : t.isOpenString with
    | true =>
      obtain ⟨q, stopped⟩ := gives.nextToken_openString openString
      rw [stopped]
      exact Blames.leftOpen openString _
    | false =>
      obtain ⟨q, given, _, more⟩ := gives.nextToken_cons openString
      rw [given]
      dsimp only
      split
      · rename_i close
        refine ⟨[t], ts, 0, rfl, .cons openString .nil, more, ⟨[], ?_, .nil⟩, Or.inl rfl⟩
        simp [tokensOf, close]
      · rename_i notClose
        have first := form t ts q rfl notClose more
        rw [outcome_bind]
        generalize outcome (readFrom fuel room t.token) q = o at first
        rcases o with ⟨f | d, r⟩
        · exact Blames.mono first [] id fun strings => strings.of_suffix [t]
        · exact endsWell_item openString first fun used rest split gives =>
            later t used rest r (by rw [split]) gives

/-- Whatever the lexemes, reading a form or the items of a list ends well. -/
theorem endsWell_reading (fuel : Nat) :
    (∀ {room token ts p}, p.Gives ts → token ≠ ")" → ShortIntegers (token :: tokensOf ts) →
      2 * ts.length + 2 ≤ fuel →
      EndsWell (fun d us => IsForm us d) room [token] ts (outcome (readFrom fuel room token) p)) ∧
    (∀ {room ts p}, p.Gives ts → ShortIntegers (tokensOf ts) → 2 * ts.length + 1 ≤ fuel →
      EndsWell AreItems room [] ts (outcome (readItems fuel room) p)) := by
  induction fuel with
  | zero => exact ⟨fun _ _ _ enough => by omega, fun _ _ enough => by omega⟩
  | succ fuel ih =>
    obtain ⟨form, items⟩ := ih
    constructor
    · intro room token ts p gives notClose short enough
      have later : ShortIntegers (tokensOf ts) := short.mono fun t mem => List.mem_cons_of_mem _ mem
      by_cases isOpen : token = "("
      · subst isOpen
        exact endsWell_open fun room => items gives later (by omega)
      · cases quote : quoteKeyword? token with
        | some keyword =>
          refine endsWell_quote quote gives (by omega) fun t ts' q room same notClose more => ?_
          subst same
          rw [List.length_cons] at enough
          exact form more notClose later (by omega)
        | none =>
          obtain ⟨d, made⟩ := atom_of_short short
          obtain ⟨table, read⟩ := readAtom_of_ok made p
          rw [readFrom_atomToken isOpen notClose quote, read]
          exact ⟨[], ts, 0, rfl, .nil, gives.withSymbols table, .atom isOpen notClose quote made,
            Or.inl rfl⟩
    · intro room ts p gives short enough
      refine endsWell_items gives ?_ ?_
      · rintro t ts q rfl notClose more
        rw [List.length_cons] at enough
        exact form more notClose short (by omega)
      · rintro t used rest q rfl more
        rw [List.length_cons, List.length_append] at enough
        exact items more short.later (by omega)

/-- A form and the forms after it. -/
theorem readsAll_cons {d : Datum} {t : Lexeme} {all : List Datum × Option Failure}
    (closed : t.isOpenString = false) (item : Took (fun us => IsForm us d) [t.token] ts q)
    (later : ∀ used rest, ts = used ++ rest → q.Gives rest → ReadsAll room rest all) :
    ReadsAll room (t :: ts) (d :: all.1, all.2) := by
  obtain ⟨used, rest, k, rfl, closedUsed, gives, whole, ended⟩ := item
  have more := later used rest rfl gives
  have split : tokensOf (t :: (used ++ rest)) = tokensOf (t :: used) ++ tokensOf rest :=
    tokensOf_append (t :: used) rest
  obtain ⟨ds, _ | f⟩ := all
  · obtain ⟨k', closedRest, forms⟩ := more
    refine ⟨k + k', (closedUsed.append closedRest).cons closed, ?_⟩
    have both := AreForms.cons whole forms
    rwa [@closes_append used rest [] k k' (by rwa [List.append_nil]) [t.token]] at both
  · rcases more with few | ⟨malformed, openString | stray | idle⟩
    · exact (Blames.of_suffix (Or.inl few) (t :: used)).readsAll _
    · exact Or.inr ⟨malformed, Or.inl (openString.of_suffix (t :: used))⟩
    · rcases ended with rfl | rfl
      · rw [List.replicate_zero, List.append_nil] at whole
        have level : unmatched 0 (tokensOf (t :: used)) = 0 := (whole.balanced 0).1
        refine Or.inr ⟨malformed, Or.inr (Or.inl ?_)⟩
        rw [split, hasStrayClose_append, level]
        exact Or.inr stray
      · exact absurd stray (not_hasStrayClose_nil 0)
    · exact (Blames.of_suffix (Or.inr ⟨malformed, Or.inr idle⟩) (t :: used)).readsAll _

/-- Reading all forms of a port. -/
theorem readsAll_collect (room fuel : Nat) (gives : p.Gives ts) (short : ShortIntegers (tokensOf ts))
    (enough : ts.length < fuel) : ReadsAll room ts (collect (read room) fuel p) := by
  induction fuel generalizing p ts with
  | zero => omega
  | succ fuel ih =>
    cases ts with
    | nil =>
      rw [collect_none (read_end gives.nextToken_nil)]
      exact ⟨0, .nil, .nil⟩
    | cons t ts =>
      cases openString : t.isOpenString with
      | true =>
        obtain ⟨q, stopped⟩ := gives.nextToken_openString openString
        rw [collect_error (read_error stopped)]
        exact (Blames.leftOpen openString _).readsAll []
      | false =>
        obtain ⟨q, given, _, more⟩ := gives.nextToken_cons openString
        by_cases close : t.token = ")"
        · rw [close] at given
          have refused : outcome (readFrom (2 * p.unread + 2) room ")") q =
              (.error (.malformed ")" .unexpectedClose), q) := rfl
          rw [collect_error (read_form_error given refused)]
          refine Or.inr ⟨⟨_, _, rfl⟩, Or.inr (Or.inl ?_)⟩
          exact ⟨[], tokensOf ts, congrArg (· :: tokensOf ts) close, rfl⟩
        · have unread := gives.length_le_unread
          rw [List.length_cons] at unread enough
          have first : EndsWell _ room [t.token] ts _ :=
            (endsWell_reading (2 * p.unread + 2)).1 more close short (by omega)
          generalize form : outcome (readFrom (2 * p.unread + 2) room t.token) q = o at first
          rcases o with ⟨f | d, r⟩
          · have blamed := Blames.mono first [] id fun strings => HasOpenString.of_suffix strings [t]
            rw [collect_error (read_form_error given form)]
            exact blamed.readsAll []
          · rw [collect_some (read_form given form)]
            refine readsAll_cons openString first fun used rest split after => ?_
            subst split
            rw [List.length_append] at enough
            exact ih after short.later (by omega)

/-! ## The index -/

theorem token_eq_open (t : Lexeme) : t.token = "(" ↔ t.isOpen = true := by
  unfold Lexeme.token Lexeme.isOpen
  rw [← String.toList_inj, String.toList_ofList, beq_iff_eq]
  rfl

theorem token_eq_close (t : Lexeme) : t.token = ")" ↔ t.isClose = true := by
  unfold Lexeme.token Lexeme.isClose
  rw [← String.toList_inj, String.toList_ofList, beq_iff_eq]
  rfl

/-- One lexeme: how many parentheses are open then, and whether one was closed that was not. -/
theorem step_levels (progress : Progress) {t : Lexeme} (closed : t.isOpenString = false)
    (rest : List Lexeme) :
    (progress.step t rest).opens.length =
        unmatched progress.opens.length (tokensOf [t]) ∧
      ((progress.step t rest).strayCloses = [] ↔
        progress.strayCloses = [] ∧ ¬ (t.token = ")" ∧ progress.opens.length = 0)) := by
  unfold Progress.step
  rw [closed, if_neg Bool.false_ne_true]
  change _ = (if t.token = "(" then _ else if t.token = ")" then _ else _) ∧ _
  by_cases isOpen : t.token = "("
  · rw [if_pos isOpen, if_pos ((token_eq_open t).mp isOpen)]
    simp [isOpen]
  · rw [if_neg isOpen, if_neg fun same => isOpen ((token_eq_open t).mpr same)]
    by_cases isClose : t.token = ")"
    · rw [if_pos isClose, if_pos ((token_eq_close t).mp isClose)]
      cases opens : progress.opens with
      | nil => simp [isClose]
      | cons place opens => simp
    · rw [if_neg isClose, if_neg fun same => isClose ((token_eq_close t).mpr same)]
      simp [isClose]

/-- The index counts the unmatched opening parentheses and finds the stray closing ones. -/
theorem run_levels (progress : Progress) (closed : AllClosed ts) :
    (progress.run ts).opens.length = unmatched progress.opens.length (tokensOf ts) ∧
      ((progress.run ts).strayCloses = [] ↔
        progress.strayCloses = [] ∧ ¬ HasStrayClose progress.opens.length (tokensOf ts)) := by
  induction ts generalizing progress with
  | nil => exact ⟨rfl, by simp [Progress.run, tokensOf, not_hasStrayClose_nil]⟩
  | cons t ts ih =>
    obtain ⟨level, stray⟩ := step_levels progress (closed t (by simp)) ts
    obtain ⟨levels, strays⟩ := ih (progress.step t ts) fun l mem => closed l (List.mem_cons_of_mem t mem)
    rw [level, ← unmatched_append] at levels
    refine ⟨levels, ?_⟩
    change (Progress.run _ ts).strayCloses = [] ↔ _ ∧ ¬ HasStrayClose _ (t.token :: tokensOf ts)
    rw [strays, stray, level, hasStrayClose_cons, not_or, and_assoc]
    rfl

theorem index_levels {text : String} (closed : AllClosed (scan text.toList)) :
    (Index.ofText text).unclosed.length = unmatched 0 (tokensOf (scan text.toList)) ∧
      ((Index.ofText text).strayCloses = [] ↔ ¬ HasStrayClose 0 (tokensOf (scan text.toList))) := by
  obtain ⟨level, stray⟩ := run_levels .start closed
  refine ⟨?_, stray.trans (and_iff_right rfl)⟩
  change (Progress.run .start (scan text.toList)).opens.reverse.length = _
  rw [List.length_reverse]
  exact level

/-- When closing parentheses complete some tokens, there is one for each that is open. -/
theorem unmatched_of_completed {k : Nat} {ds : List Datum}
    (h : AreForms (us ++ List.replicate k ")") ds) : unmatched 0 us = k ∧ ¬ HasStrayClose 0 us := by
  obtain ⟨level, stray⟩ := h.balanced 0
  rw [unmatched_append, unmatched_closes] at level
  rw [hasStrayClose_append, not_or, not_hasStrayClose_closes] at stray
  exact ⟨Nat.le_antisymm (Nat.le_of_sub_eq_zero level) stray.2, stray.1⟩

/-! ## Texts with their lists closed -/

/-- A text with as many closing parentheses on a new line. -/
def completed (text : String) (k : Nat) : String :=
  text ++ "\n" ++ String.ofList (List.replicate k ')')

theorem toList_completed (text : String) (k : Nat) :
    (completed text k).toList = text.toList ++ '\n' :: List.replicate k ')' := by
  have newline : (text ++ "\n").toList = text.toList ++ ['\n'] := String.toList_append
  unfold completed
  rw [String.toList_append, newline, String.toList_ofList, List.append_assoc, List.singleton_append]

theorem lexed_closes (place : Position) (k : Nat) :
    ∃ us, Lexed place (List.replicate k ')') us ∧ tokensOf us = List.replicate k ")" ∧
      AllClosed us := by
  induction k generalizing place with
  | zero => exact ⟨[], .done, rfl, .nil⟩
  | succ k ih =>
    obtain ⟨us, lexed, same, closed⟩ := ih (place.right 1)
    have first : Stands [')'] (List.replicate k ')') := .mark rfl nofun
    refine ⟨_, .lexeme first lexed, congrArg (")" :: ·) same, ?_⟩
    intro l mem
    rcases List.mem_cons.mp mem with rfl | mem
    · rfl
    · exact closed l mem

/-- What is on later lines does not change the lexemes of a text. -/
theorem lexed_append {place : Position} {cs : List Char} (h : Lexed place cs ts) (more : List Char) :
    ∃ place', ∀ us, Lexed place' ('\n' :: more) us →
      Lexed place (cs ++ '\n' :: more) (ts ++ us) := by
  have ended {rest : List Char} (h : AtLineEnd rest) : AtLineEnd (rest ++ '\n' :: more) := by
    cases rest with
    | nil =>
      rintro c ⟨⟩
      rfl
    | cons d rest => exact h
  induction h with
  | @done place => exact ⟨place, fun us lexed => lexed⟩
  | blank blank _ ih =>
    obtain ⟨place', rest⟩ := ih
    exact ⟨place', fun us lexed => .blank blank (rest us lexed)⟩
  | comment inLine atEnd _ ih =>
    obtain ⟨place', rest⟩ := ih
    refine ⟨place', fun us lexed => ?_⟩
    have whole := Lexed.comment inLine (ended atEnd) (rest us lexed)
    rwa [← List.append_assoc] at whole
  | @lexeme place text after ts stands _ ih =>
    obtain ⟨place', rest⟩ := ih
    have still : Stands text (after ++ '\n' :: more) := stands.congr fun c next => by
      cases after with
      | nil =>
        cases next
        exact Or.inr rfl
      | cons d after => exact Or.inl next
    refine ⟨place', fun us lexed => ?_⟩
    rw [List.append_assoc]
    exact .lexeme still (rest us lexed)
  | openString inLine atEnd unclosed _ ih =>
    obtain ⟨place', rest⟩ := ih
    refine ⟨place', fun us lexed => ?_⟩
    have whole := Lexed.openString inLine (ended atEnd) unclosed (rest us lexed)
    rwa [← List.append_assoc] at whole

theorem find?_openString_eq_none : (ts.find? fun t => t.isOpenString) = none ↔ AllClosed ts := by
  simp [AllClosed]

theorem takeWhile_closed (closed : AllClosed ts) : (ts.takeWhile fun t => !t.isOpenString) = ts := by
  rw [List.takeWhile_eq_self_iff]
  intro t mem
  rw [closed t mem]
  rfl

/-- A text has one sequence of tokens only. -/
theorem tokensOf_scan {place : Position} {text : String} (h : Lexed place text.toList ts)
    (closed : AllClosed ts) :
    AllClosed (scan text.toList) ∧ tokensOf (scan text.toList) = tokensOf ts := by
  have scanned := collect_nextToken (.ofText (lexed_scan text.toList) ⟨0, []⟩)
    (Nat.lt_succ_of_le (Nat.le_max_left (scan text.toList).length ts.length))
  have given := collect_nextToken (.ofText h ⟨0, []⟩)
    (Nat.lt_succ_of_le (Nat.le_max_right (scan text.toList).length ts.length))
  rw [scanned, takeWhile_closed closed, find?_openString_eq_none.mpr closed, Prod.mk.injEq,
    Option.map_none, Option.map_eq_none_iff, find?_openString_eq_none] at given
  obtain ⟨same, closed'⟩ := given
  rw [takeWhile_closed closed'] at same
  exact ⟨closed', same⟩

/-- The lexemes of a text whose lists are closed on a new line. -/
theorem scan_completed {text : String} (closed : AllClosed (scan text.toList)) (k : Nat) :
    AllClosed (scan (completed text k).toList) ∧
      tokensOf (scan (completed text k).toList) =
        tokensOf (scan text.toList) ++ List.replicate k ")" := by
  obtain ⟨place, rest⟩ := lexed_append (lexed_scan text.toList) (List.replicate k ')')
  obtain ⟨us, lexed, same, closedRest⟩ := lexed_closes (place.after '\n') k
  have whole := rest us (.blank rfl lexed)
  rw [← toList_completed] at whole
  obtain ⟨closed', same'⟩ := tokensOf_scan whole (closed.append closedRest)
  exact ⟨closed', by rw [same', tokensOf_append, same]⟩

/-- Forms that take all tokens of a text leave nothing to refuse. -/
theorem not_isFaulty {k : Nat} {ds : List Datum} (closed : AllClosed ts)
    (h : AreForms (tokensOf ts ++ List.replicate k ")") ds) : ¬ IsFaulty ts := by
  rintro (⟨t, mem, openString⟩ | stray | idle)
  · rw [closed t mem] at openString
    cases openString
  · exact (unmatched_of_completed h).2 stray
  · exact h.not_hasIdleQuote (idle.closes k)

theorem readsAll_forms (text : String) (symbols : SymbolTable) (room : Nat)
    (short : ShortIntegers (tokensOf (scan text.toList))) :
    ReadsAll room (scan text.toList) ((Port.ofText text symbols).forms room) := by
  have gives := Port.Gives.ofText (lexed_scan text.toList) symbols
  exact readsAll_collect room _ gives short (Nat.lt_succ_of_le gives.length_le_unread)

/-- Forms that are read from a text are read from the text with its lists closed, which the index finds
balanced. -/
theorem forms_completed {text : String} {symbols : SymbolTable} {k : Nat} {ds : List Datum}
    (read : (Port.ofText text symbols).forms room = (ds, none)) (closed : AllClosed (scan text.toList))
    (forms : AreForms (tokensOf (scan text.toList) ++ List.replicate k ")") ds) :
    (Index.ofText text).unclosed.length = k ∧
      (Port.ofText (completed text k) symbols).forms room = (ds, none) ∧
      (Index.ofText (completed text k)).unclosed = [] ∧
      (Index.ofText (completed text k)).strayCloses = [] := by
  obtain ⟨closed', same⟩ := scan_completed closed k
  have fits : Datum.depths ds ≤ room := Datum.depths_le_iff.mpr fun d mem => by
    have readable := isReadableIn_of_forms room (Port.ofText text symbols)
    rw [read] at readable
    exact (readable d mem).2
  obtain ⟨level, stray⟩ := index_levels closed'
  obtain ⟨balanced, noStray⟩ := forms.balanced 0
  rw [same] at level stray
  refine ⟨?_, ?_, List.eq_nil_of_length_eq_zero (level.trans balanced), stray.mpr noStray⟩
  · rw [(index_levels closed).1]
    exact (unmatched_of_completed forms).1
  · have gives := Port.Gives.ofText (lexed_scan (completed text k).toList) symbols
    have length := congrArg List.length same
    rw [tokensOf, List.length_map] at length
    exact forms.collect fits (length ▸ Nat.lt_succ_of_le gives.length_le_unread) same closed' gives

/-- Unless the nesting limit stops it, for which a text must have more tokens that open a level, reading
fails with a syntax error just when the text is faulty. Otherwise the tokens of the text and a closing
parenthesis for each that the index finds unclosed are the tokens of the forms read; the same forms
are read from the text with these parentheses on a new line, which the index finds balanced. -/
theorem refused_iff_isFaulty (text : String) (symbols : SymbolTable) (room : Nat)
    (short : ShortIntegers (tokensOf (scan text.toList))) :
    (∃ ds, (Port.ofText text symbols).forms room = (ds, some .tooDeep)) ∧
        room < levels (tokensOf (scan text.toList)) ∨
    ((∃ ds form fault,
        (Port.ofText text symbols).forms room = (ds, some (.malformed form fault))) ↔
      IsFaulty (scan text.toList)) ∧
    (¬ IsFaulty (scan text.toList) → ∃ ds,
      (Port.ofText text symbols).forms room = (ds, none) ∧
      AreForms (tokensOf (scan text.toList) ++
        List.replicate (Index.ofText text).unclosed.length ")") ds ∧
      (Port.ofText (completed text (Index.ofText text).unclosed.length) symbols).forms room =
        (ds, none) ∧
      (Index.ofText (completed text (Index.ofText text).unclosed.length)).unclosed = [] ∧
      (Index.ofText (completed text (Index.ofText text).unclosed.length)).strayCloses = []) := by
  have all := readsAll_forms text symbols room short
  generalize read : (Port.ofText text symbols).forms room = given at all
  obtain ⟨ds, _ | f⟩ := given
  · obtain ⟨k, closed, forms⟩ := all
    have sound := not_isFaulty closed forms
    obtain ⟨rfl, whole⟩ := forms_completed read closed forms
    refine Or.inr ⟨⟨?_, fun faulty => absurd faulty sound⟩, fun _ => ⟨ds, rfl, forms, whole⟩⟩
    rintro ⟨ds', form, fault, refused⟩
    cases refused
  · rcases all with ⟨rfl, few⟩ | ⟨⟨form, fault, rfl⟩, faulty⟩
    · exact Or.inl ⟨⟨ds, rfl⟩, few⟩
    · exact Or.inr ⟨⟨fun _ => faulty, fun _ => ⟨ds, form, fault, rfl⟩⟩, fun sound => absurd faulty sound⟩

/-- Two lists and a quotation, none of them complete on its own. -/
theorem refused_iff_isFaulty_truncated :
    ShortIntegers (tokensOf (scan "(a 'b (c".toList)) ∧ ∃ ds,
      (Port.ofText "(a 'b (c" ⟨0, []⟩).forms 3 = (ds, none) ∧
      (Port.ofText (completed "(a 'b (c" 2) ⟨0, []⟩).forms 3 = (ds, none) := by
  have scanned : tokensOf (scan "(a 'b (c".toList) = ["(", "a", "'", "b", "(", "c"] := by decide
  have short : ShortIntegers (tokensOf (scan "(a 'b (c".toList)) := by
    intro token mem negative digits literal
    rw [scanned] at mem
    have none : ∀ t ∈ ["(", "a", "'", "b", "(", "c"], Number.integerLiteral? t.toList = none := by decide
    rw [none token mem] at literal
    cases literal
  refine ⟨short, ?_⟩
  rcases refused_iff_isFaulty "(a 'b (c" ⟨0, []⟩ 3 short with ⟨_, few⟩ | ⟨_, read⟩
  · exact absurd few (by decide)
  · obtain ⟨ds, given, _, again, _⟩ := read (by decide)
    exact ⟨ds, given, again⟩

end SmallLisp.Reader
