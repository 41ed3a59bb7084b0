import SmallLisp.Proofs.TokenSearch
/-!
# Reading comes to an end

The rules below put forms together from the answers of searches for tokens. No bound on the work occurs in them, and
what they derive they derive in finitely many steps. From every port they lead to one ending, which is that of the
reader: the bounds that it computes with are never met. Each form takes characters from the port until an answer is
the last; so calls for tokens and forms, mixed in any way, come to the same end.
-/
namespace SmallLisp.Reader

open Run

variable {p q r : Port} {d : Datum} {fuel room : Nat} {token : String} {f : Failure} {α : Type}

/-! ## The rules of reading -/

mutual

/-- The form that begins with a token is read so. Where there is no room, nothing goes deeper. -/
inductive FormEnds : (room : Nat) → (token : String) → Port → Ending Datum → Prop where
  | tooDeep {token : String} {p : Port} (deeper : goesDeeper token = true) : FormEnds 0 token p (.error .tooDeep, p)
  | list {room : Nat} {p q : Port} {a : Except Failure (List Datum)} (items : ItemsEnd room p (a, q)) :
      FormEnds (room + 1) "(" p (a.map .list, q)
  | stray {room : Nat} {p : Port} : FormEnds room ")" p (.error (.malformed ")" .unexpectedClose), p)
  | idleQuote {room : Nat} {token keyword : String} {p q : Port} (quote : quoteKeyword? token = some keyword)
      (ended : NextEnds p (.ok none, q)) : FormEnds (room + 1) token p (.error (.malformed token .nothingQuoted), q)
  | openQuote {room : Nat} {token keyword : String} {p q : Port} {f : Failure}
      (quote : quoteKeyword? token = some keyword) (stopped : NextEnds p (.error f, q)) :
      FormEnds (room + 1) token p (.error f, q)
  | failedQuote {room : Nat} {token keyword next : String} {p q r : Port} {f : Failure}
      (quote : quoteKeyword? token = some keyword) (first : NextEnds p (.ok (some next), q))
      (failed : FormEnds room next q (.error f, r)) : FormEnds (room + 1) token p (.error f, r)
  | quoted {room : Nat} {token keyword next : String} {p q r : Port} {d : Datum}
      (quote : quoteKeyword? token = some keyword) (first : NextEnds p (.ok (some next), q))
      (form : FormEnds room next q (.ok d, r)) :
      FormEnds (room + 1) token p
        (.ok (.list [.symbol keyword, d]), { r with symbols := (r.symbols.intern keyword).2 })
  | atom {room : Nat} {token : String} {p : Port} (notOpen : token ≠ "(") (notClose : token ≠ ")")
      (notQuote : quoteKeyword? token = none) : FormEnds room token p (outcome (readAtom token) p)

/-- The items of an open list are read so, up to its end or the end of the text. -/
inductive ItemsEnd : (room : Nat) → Port → Ending (List Datum) → Prop where
  | closed {room : Nat} {p q : Port} (close : NextEnds p (.ok (some ")"), q)) : ItemsEnd room p (.ok [], q)
  | ended {room : Nat} {p q : Port} (ended : NextEnds p (.ok none, q)) : ItemsEnd room p (.ok [], q)
  | stopped {room : Nat} {p q : Port} {f : Failure} (stopped : NextEnds p (.error f, q)) :
      ItemsEnd room p (.error f, q)
  | failed {room : Nat} {token : String} {p q r : Port} {f : Failure} (first : NextEnds p (.ok (some token), q))
      (notClose : token ≠ ")") (failed : FormEnds room token q (.error f, r)) : ItemsEnd room p (.error f, r)
  | item {room : Nat} {token : String} {p q r s : Port} {d : Datum} {a : Except Failure (List Datum)}
      (first : NextEnds p (.ok (some token), q)) (notClose : token ≠ ")") (form : FormEnds room token q (.ok d, r))
      (more : ItemsEnd room r (a, s)) : ItemsEnd room p (a.map (d :: ·), s)

end

/-- The next form is read so. -/
inductive ReadEnds (room : Nat) : Port → Ending (Option Datum) → Prop where
  | ended {p q : Port} (ended : NextEnds p (.ok none, q)) : ReadEnds room p (.ok none, q)
  | stopped {p q : Port} {f : Failure} (stopped : NextEnds p (.error f, q)) : ReadEnds room p (.error f, q)
  | form {token : String} {p q r : Port} {a : Except Failure Datum} (first : NextEnds p (.ok (some token), q))
      (form : FormEnds room token q (a, r)) : ReadEnds room p (a.map some, r)

/-- A step is repeated so, until it gives nothing more or fails. -/
inductive RepeatEnds (StepEnds : Port → Ending (Option α) → Prop) : Port → List α × Option Failure → Prop where
  | ended {p q : Port} (ended : StepEnds p (.ok none, q)) : RepeatEnds StepEnds p ([], none)
  | failed {p q : Port} {f : Failure} (failed : StepEnds p (.error f, q)) : RepeatEnds StepEnds p ([], some f)
  | more {p q : Port} {x : α} {xs : List α} {f : Option Failure} (given : StepEnds p (.ok (some x), q))
      (more : RepeatEnds StepEnds q (xs, f)) : RepeatEnds StepEnds p (x :: xs, f)

/-! ## What the rules keep -/

theorem NextEnds.unread_le {o : Ending (Option String)} (h : NextEnds p o) : o.2.unread ≤ p.unread :=
  unread_le_of_answer (nextEnds_iff.mp h)

theorem NextEnds.unread_lt (h : NextEnds p (.ok (some token), q)) : q.unread < p.unread :=
  (unread_lt_of_token (nextEnds_iff.mp h)).2

mutual

/-- Reading does not put anything back. -/
theorem FormEnds.unread_le {room : Nat} {token : String} {p : Port} {o : Ending Datum} :
    FormEnds room token p o → o.2.unread ≤ p.unread
  | .tooDeep _ => Nat.le_refl _
  | .list items => items.unread_le
  | .stray => Nat.le_refl _
  | .idleQuote _ ended => ended.unread_le
  | .openQuote _ stopped => stopped.unread_le
  | .failedQuote _ first failed => failed.unread_le.trans first.unread_le
  | .quoted _ first form => form.unread_le.trans first.unread_le
  | .atom _ _ _ => by
    rcases readAtom_cases token p with ⟨d, table, read⟩ | ⟨count, failed⟩
    · rw [read]
      exact Nat.le_refl _
    · rw [failed]

theorem ItemsEnd.unread_le {room : Nat} {p : Port} {o : Ending (List Datum)} :
    ItemsEnd room p o → o.2.unread ≤ p.unread
  | .closed close => close.unread_le
  | .ended ended => ended.unread_le
  | .stopped stopped => stopped.unread_le
  | .failed first _ failed => failed.unread_le.trans first.unread_le
  | .item first _ form more => more.unread_le.trans (form.unread_le.trans first.unread_le)

end

/-! ## The reader follows the rules -/

theorem nextEnds_nextToken (p : Port) : NextEnds p (outcome nextToken p) :=
  nextEnds_iff.mpr rfl

theorem readFrom_tooDeep (deeper : goesDeeper token = true) :
    outcome (readFrom (fuel + 1) 0 token) p = (.error .tooDeep, p) := by
  by_cases isOpen : token = "("
  · subst isOpen
    rfl
  · unfold goesDeeper at deeper
    rw [beq_false_of_ne isOpen, Bool.false_or] at deeper
    obtain ⟨keyword, quote⟩ := Option.isSome_iff_exists.mp deeper
    rw [readFrom, if_neg isOpen, if_neg (not_mark_of_quote quote).2, quote]
    rfl

theorem readItems_end (last : outcome nextToken p = (.ok none, q)) :
    outcome (readItems (fuel + 1) room) p = (.ok [], q) := by
  unfold readItems
  rw [outcome_bind_of_ok last]
  rfl

theorem readItems_error (stopped : outcome nextToken p = (.error f, q)) :
    outcome (readItems (fuel + 1) room) p = (.error f, q) := by
  unfold readItems
  exact outcome_bind_of_error stopped _

theorem readItems_some (first : outcome nextToken p = (.ok (some token), q)) (notClose : token ≠ ")") :
    outcome (readItems (fuel + 1) room) p = outcome (do
      let item ← readFrom fuel room token
      return item :: (← readItems fuel room)) q := by
  conv_lhs => unfold readItems
  rw [outcome_bind_of_ok first]
  dsimp only
  rw [if_neg notClose]

theorem formEnds_open (items : ∀ room, ItemsEnd room p (outcome (readItems fuel room) p)) (room : Nat) :
    FormEnds room "(" p (outcome (readFrom (fuel + 1) room "(") p) := by
  rw [outcome_readFrom_open]
  cases room with
  | zero => exact .tooDeep rfl
  | succ room =>
    change FormEnds _ _ _ (outcome (readItems fuel room >>= fun ds => pure (Datum.list ds)) p)
    rw [outcome_bind_pure]
    exact .list (items room)

theorem formEnds_quote {keyword : String} (quote : quoteKeyword? token = some keyword)
    (form : ∀ room next q, outcome nextToken p = (.ok (some next), q) →
      FormEnds room next q (outcome (readFrom fuel room next) q)) (room : Nat) :
    FormEnds room token p (outcome (readFrom (fuel + 1) room token) p) := by
  cases room with
  | zero =>
    rw [readFrom_tooDeep (goesDeeper_of_quote quote)]
    exact .tooDeep (goesDeeper_of_quote quote)
  | succ room =>
    rw [readFrom_quote quote, outcome_bind]
    have search := nextEnds_nextToken p
    rcases given : outcome nextToken p with ⟨f | _ | next, q⟩
    · exact .openQuote quote (given ▸ search)
    · exact .idleQuote quote (given ▸ search)
    · have inner := form room next q given
      dsimp only
      rw [outcome_bind]
      generalize outcome (readFrom fuel room next) q = o at inner
      rcases o with ⟨f | d, r⟩
      · exact .failedQuote quote (given ▸ search) inner
      · exact .quoted quote (given ▸ search) inner

theorem itemsEnd_of_parts (form : ∀ token q, outcome nextToken p = (.ok (some token), q) →
      FormEnds room token q (outcome (readFrom fuel room token) q))
    (items : ∀ q, q.unread < p.unread → ItemsEnd room q (outcome (readItems fuel room) q)) :
    ItemsEnd room p (outcome (readItems (fuel + 1) room) p) := by
  have search := nextEnds_nextToken p
  rcases given : outcome nextToken p with ⟨f | _ | token, q⟩
  · rw [readItems_error given]
    exact .stopped (given ▸ search)
  · rw [readItems_end given]
    exact .ended (given ▸ search)
  · rw [given] at search
    by_cases close : token = ")"
    · subst close
      rw [readItems_close given]
      exact .closed search
    · have first := form token q given
      rw [readItems_some given close, outcome_bind]
      generalize outcome (readFrom fuel room token) q = o at first
      rcases o with ⟨f | d, r⟩
      · exact .failed search close first
      · have later := items r (Nat.lt_of_le_of_lt first.unread_le search.unread_lt)
        dsimp only
        rw [outcome_bind_pure]
        exact .item search close first later

/-- With two steps for each unread character, and two more, what is computed follows from the rules. -/
theorem ends_of_fuel (fuel : Nat) :
    (∀ room token p, 2 * p.unread + 2 ≤ fuel → FormEnds room token p (outcome (readFrom fuel room token) p)) ∧
    ∀ room p, 2 * p.unread + 1 ≤ fuel → ItemsEnd room p (outcome (readItems fuel room) p) := by
  induction fuel with
  | zero => exact ⟨fun _ _ _ enough => by omega, fun _ _ enough => by omega⟩
  | succ fuel ih =>
    obtain ⟨form, items⟩ := ih
    constructor
    · intro room token p enough
      by_cases isOpen : token = "("
      · subst isOpen
        exact formEnds_open (fun room => items room p (by omega)) room
      by_cases isClose : token = ")"
      · subst isClose
        exact .stray
      cases quote : quoteKeyword? token with
      | none =>
        rw [readFrom_atomToken isOpen isClose quote]
        exact .atom isOpen isClose quote
      | some keyword =>
        refine formEnds_quote quote (fun room next q given => form room next q ?_) room
        have taken := (unread_lt_of_token given).2
        omega
    · intro room p enough
      refine itemsEnd_of_parts (fun token q given => form room token q ?_) fun q less => items room q (by omega)
      have taken := (unread_lt_of_token given).2
      omega

mutual

/-- What follows from the rules is computed. -/
theorem FormEnds.outcome_eq {room : Nat} {token : String} {p : Port} {o : Ending Datum} {fuel : Nat} :
    FormEnds room token p o → 2 * p.unread + 2 ≤ fuel + 1 → outcome (readFrom (fuel + 1) room token) p = o
  | .tooDeep deeper, _ => readFrom_tooDeep deeper
  | .list items, enough => by
    obtain ⟨fuel, rfl⟩ : ∃ n, fuel = n + 1 := ⟨fuel - 1, by omega⟩
    rw [outcome_readFrom_open]
    change outcome (readItems _ _ >>= fun ds => pure (Datum.list ds)) p = _
    rw [outcome_bind_pure, items.outcome_eq (by omega)]
  | .stray, _ => rfl
  | .idleQuote quote ended, _ => by
    rw [readFrom_quote quote, outcome_bind_of_ok (nextEnds_iff.mp ended)]
    rfl
  | .openQuote quote stopped, _ => by
    rw [readFrom_quote quote]
    exact outcome_bind_of_error (nextEnds_iff.mp stopped) _
  | .failedQuote quote first failed, enough => by
    have taken := first.unread_lt
    obtain ⟨fuel, rfl⟩ : ∃ n, fuel = n + 1 := ⟨fuel - 1, by omega⟩
    rw [readFrom_quote quote, outcome_bind_of_ok (nextEnds_iff.mp first)]
    exact outcome_bind_of_error (failed.outcome_eq (by omega)) _
  | .quoted quote first form, enough => by
    have taken := first.unread_lt
    obtain ⟨fuel, rfl⟩ : ∃ n, fuel = n + 1 := ⟨fuel - 1, by omega⟩
    rw [readFrom_quote quote, outcome_bind_of_ok (nextEnds_iff.mp first)]
    dsimp only
    rw [outcome_bind_of_ok (form.outcome_eq (by omega))]
    rfl
  | .atom notOpen notClose notQuote, _ => by
    rw [readFrom_atomToken notOpen notClose notQuote]

theorem ItemsEnd.outcome_eq {room : Nat} {p : Port} {o : Ending (List Datum)} {fuel : Nat} :
    ItemsEnd room p o → 2 * p.unread + 1 ≤ fuel + 1 → outcome (readItems (fuel + 1) room) p = o
  | .closed close, _ => readItems_close (nextEnds_iff.mp close)
  | .ended ended, _ => readItems_end (nextEnds_iff.mp ended)
  | .stopped stopped, _ => readItems_error (nextEnds_iff.mp stopped)
  | .failed first notClose failed, enough => by
    have taken := first.unread_lt
    obtain ⟨fuel, rfl⟩ : ∃ n, fuel = n + 1 := ⟨fuel - 1, by omega⟩
    rw [readItems_some (nextEnds_iff.mp first) notClose]
    exact outcome_bind_of_error (failed.outcome_eq (by omega)) _
  | .item first notClose form more, enough => by
    have taken := first.unread_lt
    have kept := form.unread_le
    dsimp only at kept
    obtain ⟨fuel, rfl⟩ : ∃ n, fuel = n + 1 := ⟨fuel - 1, by omega⟩
    rw [readItems_some (nextEnds_iff.mp first) notClose, outcome_bind_of_ok (form.outcome_eq (by omega)),
      outcome_bind_pure, more.outcome_eq (by omega)]

end

/-- More fuel than two steps for each unread character, and two more, is never used. -/
theorem readFrom_fuel {fuel' : Nat} (enough : 2 * p.unread + 2 ≤ fuel) (enough' : 2 * p.unread + 2 ≤ fuel') :
    outcome (readFrom fuel room token) p = outcome (readFrom fuel' room token) p := by
  obtain ⟨fuel, rfl⟩ : ∃ n, fuel = n + 1 := ⟨fuel - 1, by omega⟩
  exact ((ends_of_fuel fuel').1 room token p enough').outcome_eq enough

/-- A form is read as the rules say, and in no other way. -/
theorem readEnds_iff {o : Ending (Option Datum)} : ReadEnds room p o ↔ outcome (read room) p = o := by
  constructor
  · intro h
    cases h with
    | ended ended => exact read_end (nextEnds_iff.mp ended)
    | stopped stopped => exact read_error (nextEnds_iff.mp stopped)
    | @form token _ q r a first form =>
      have taken := first.unread_lt
      have given := nextEnds_iff.mp first
      have inner : outcome (readFrom (2 * p.unread + 2) room token) q = (a, r) := form.outcome_eq (by omega)
      cases a with
      | error f => exact read_form_error given inner
      | ok d => exact read_form given inner
  · rintro rfl
    have search := nextEnds_nextToken p
    rcases given : outcome nextToken p with ⟨f | _ | token, q⟩
    · rw [read_error given]
      exact .stopped (given ▸ search)
    · rw [read_end given]
      exact .ended (given ▸ search)
    · rw [given] at search
      have taken := search.unread_lt
      have form := (ends_of_fuel (2 * p.unread + 2)).1 room token q (by omega)
      generalize inner : outcome (readFrom (2 * p.unread + 2) room token) q = o at form
      rcases o with ⟨f | d, r⟩
      · rw [read_form_error given inner]
        exact .form search form
      · rw [read_form given inner]
        exact .form search form

/-! ## Final answers -/

/-- A string stays open on its line. -/
def isUnterminated : Failure → Bool
  | .malformed _ .unterminatedString => true
  | _ => false

/-- The end of the text is final, and so is a string that stays open. -/
def isFinal : Except Failure (Option α) → Bool
  | .ok given => given.isNone
  | .error f => isUnterminated f

theorem isFinal_map {β : Type} (g : α → β) (a : Except Failure (Option α)) :
    isFinal (a.map (Option.map g)) = isFinal a := by
  rcases a with f | _ | x
  · rfl
  · rfl
  · rfl

/-- A search that gives no token ends in the same way when it is repeated. -/
theorem NextEnds.again {a : Except Failure (Option String)} (h : NextEnds p (a, q))
    (none : ∀ token, a ≠ .ok (some token)) : outcome nextToken q = (a, q) :=
  nextToken_again (nextEnds_iff.mp h) none

/-- A search fails at strings that stay open only. -/
theorem NextEnds.isUnterminated (h : NextEnds p (.error f, q)) : isUnterminated f = true := by
  have advances := p.advances
  rw [nextEnds_iff.mp h] at advances
  cases advances with
  | stopped => rfl

/-- A search that is not final gives a token. -/
theorem NextEnds.unread_lt_of_not_final {o : Ending (Option String)} (h : NextEnds p o) (goesOn : isFinal o.1 = false) :
    o.2.unread < p.unread := by
  obtain ⟨f | _ | token, q⟩ := o
  · exact absurd (h.isUnterminated.symm.trans goesOn) nofun
  · cases goesOn
  · exact h.unread_lt

/-- What a failure tells of the port that is left: if it is one of nesting, the room was as small as is said; if a
string stays open, the port stands before it. -/
def Tells (small : Prop) (f : Failure) (q : Port) : Prop :=
  (f = .tooDeep → small) ∧ (isUnterminated f = true → outcome nextToken q = (.error f, q))

theorem Tells.mono {small small' : Prop} (h : Tells small f q) (imp : small → small') : Tells small' f q :=
  ⟨fun nesting => imp (h.1 nesting), h.2⟩

theorem NextEnds.tells {small : Prop} (h : NextEnds p (.error f, q)) : Tells small f q := by
  refine ⟨?_, fun _ => h.again nofun⟩
  rintro rfl
  exact absurd h.isUnterminated nofun

theorem error_of_map {β : Type} {g : α → β} {a : Except Failure α} (h : a.map g = .error f) : a = .error f := by
  cases a with
  | error e =>
    cases h
    rfl
  | ok x => cases h

mutual

/-- For every level that it goes deeper the reader has taken a character. -/
theorem FormEnds.tells {room : Nat} {token : String} {p : Port} {o : Ending Datum} {f : Failure} :
    FormEnds room token p o → o.1 = .error f → Tells (room ≤ p.unread) f o.2
  | .tooDeep _, failed => by
    cases failed
    exact ⟨fun _ => Nat.zero_le _, nofun⟩
  | .list items, failed => (items.tells (error_of_map failed)).mono id
  | .stray, failed => by
    cases failed
    exact ⟨nofun, nofun⟩
  | .idleQuote _ _, failed => by
    cases failed
    exact ⟨nofun, nofun⟩
  | .openQuote _ stopped, failed => by
    cases failed
    exact stopped.tells
  | .failedQuote _ first form, failed =>
    (form.tells failed).mono fun deep => Nat.lt_of_le_of_lt deep first.unread_lt
  | .quoted _ _ _, failed => nomatch failed
  | .atom _ _ _, failed => by
    rcases readAtom_cases token p with ⟨d, table, read⟩ | ⟨count, read⟩
    · rw [read] at failed
      cases failed
    · rw [read] at failed
      cases failed
      exact ⟨nofun, nofun⟩

theorem ItemsEnd.tells {room : Nat} {p : Port} {o : Ending (List Datum)} {f : Failure} :
    ItemsEnd room p o → o.1 = .error f → Tells (room < p.unread) f o.2
  | .closed _, failed => nomatch failed
  | .ended _, failed => nomatch failed
  | .stopped stopped, failed => by
    cases failed
    exact stopped.tells
  | .failed first _ form, failed =>
    (form.tells (congrArg Except.error (Except.error.inj failed))).mono fun deep =>
      Nat.lt_of_le_of_lt deep first.unread_lt
  | .item first _ form more, failed =>
    (more.tells (error_of_map failed)).mono fun deep => deep.trans_le (form.unread_le.trans first.unread_lt.le)

end

theorem ReadEnds.tells {o : Ending (Option Datum)} (h : ReadEnds room p o) (failed : o.1 = .error f) :
    Tells (room < p.unread) f o.2 := by
  cases h with
  | ended => cases failed
  | stopped stopped =>
    cases failed
    exact stopped.tells
  | form first form =>
    exact (form.tells (error_of_map failed)).mono fun deep => Nat.lt_of_le_of_lt deep first.unread_lt

/-- A form takes at least one token, and so does a failure that is not final. -/
theorem ReadEnds.unread_lt {o : Ending (Option Datum)} (h : ReadEnds room p o) (goesOn : isFinal o.1 = false) :
    o.2.unread < p.unread := by
  cases h with
  | ended => cases goesOn
  | stopped stopped => exact absurd (stopped.isUnterminated.symm.trans goesOn) nofun
  | form first form => exact form.unread_le.trans_lt first.unread_lt

/-- The end of the text is met by the search alone. -/
theorem ReadEnds.again {o : Ending (Option Datum)} (h : ReadEnds room p o) (ended : o.1 = .ok none) :
    outcome nextToken o.2 = (.ok none, o.2) := by
  cases h with
  | ended search => exact search.again nofun
  | stopped => cases ended
  | @form token _ q r a =>
    cases a with
    | error f => cases ended
    | ok d => cases ended

/-! ## Reading all there is -/

section Repeating

variable {step : Reading (Option α)} {StepEnds : Port → Ending (Option α) → Prop}

/-- Where every step that gives something takes something, a step for each unread character and one more is enough. -/
theorem repeatEnds_collect (ends : ∀ p, StepEnds p (outcome step p))
    (takes : ∀ p q x, outcome step p = (.ok (some x), q) → q.unread < p.unread) (enough : p.unread < fuel) :
    RepeatEnds StepEnds p (collect step fuel p) := by
  induction fuel generalizing p with
  | zero => omega
  | succ fuel ih =>
    have here := ends p
    rcases given : outcome step p with ⟨f | _ | x, q⟩
    · rw [collect_error given]
      exact .failed (given ▸ here)
    · rw [collect_none given]
      exact .ended (given ▸ here)
    · have less := takes p q x given
      rw [collect_some given]
      exact .more (given ▸ here) (ih (by omega))

theorem RepeatEnds.collect_eq {e : List α × Option Failure} (h : RepeatEnds StepEnds p e)
    (follows : ∀ p o, StepEnds p o → outcome step p = o)
    (takes : ∀ p q x, outcome step p = (.ok (some x), q) → q.unread < p.unread) (enough : p.unread ≤ fuel) :
    collect step (fuel + 1) p = e := by
  induction h generalizing fuel with
  | ended ended => exact collect_none (follows _ _ ended)
  | failed failed => exact collect_error (follows _ _ failed)
  | @more p q x xs f given _ ih =>
    have less := takes p q x (follows _ _ given)
    obtain ⟨fuel, rfl⟩ : ∃ n, fuel = n + 1 := ⟨fuel - 1, by omega⟩
    rw [collect_some (follows _ _ given), ih (by omega)]

/-- A step whose ending follows from rules is repeated as the rules say. -/
theorem repeatEnds_iff {e : List α × Option Failure} (rules : ∀ p o, StepEnds p o ↔ outcome step p = o)
    (takes : ∀ p q x, outcome step p = (.ok (some x), q) → q.unread < p.unread) :
    RepeatEnds StepEnds p e ↔ collect step (p.unread + 1) p = e := by
  constructor
  · intro h
    exact h.collect_eq (fun p o => (rules p o).mp) takes (Nat.le_refl _)
  · rintro rfl
    exact repeatEnds_collect (fun p => (rules p _).mpr rfl) takes (Nat.lt_succ_self _)

end Repeating

theorem repeatEnds_forms_iff {e : List Datum × Option Failure} :
    RepeatEnds (ReadEnds room) p e ↔ p.forms room = e :=
  repeatEnds_iff (fun _ _ => readEnds_iff) fun _ _ _ given => (readEnds_iff.mpr given).unread_lt rfl

end SmallLisp.Reader
