import SmallLisp.Proofs.Lexing
import SmallLisp.Proofs.Readable
/-!
# The grammar of forms

Which tokens make a form, and which a sequence of forms. The reader follows the grammar: from the tokens of
forms it reads these forms, and whenever it gives forms, its tokens make them once the lists that are still
open at the end are closed. It fails for a reason that shows in the tokens.
-/
namespace SmallLisp.Reader

open Editor Run

mutual

/-- The tokens of one form. -/
inductive IsForm : List String → Datum → Prop where
  | atom {token : String} {d : Datum} (notOpen : token ≠ "(") (notClose : token ≠ ")")
      (notQuote : quoteKeyword? token = none) (h : Reader.atom token = .ok d) : IsForm [token] d
  | quoted {token keyword : String} {ts : List String} {d : Datum}
      (h : quoteKeyword? token = some keyword) (form : IsForm ts d) :
      IsForm (token :: ts) (.list [.symbol keyword, d])
  | list {ts : List String} {ds : List Datum} (items : AreForms ts ds) :
      IsForm ("(" :: (ts ++ [")"])) (.list ds)

/-- The tokens of forms one after another. -/
inductive AreForms : List String → List Datum → Prop where
  | nil : AreForms [] []
  | cons {ts us : List String} {d : Datum} {ds : List Datum} (first : IsForm ts d)
      (rest : AreForms us ds) : AreForms (ts ++ us) (d :: ds)

end

/-- The unmatched opening parentheses after some tokens, `n` being unmatched before them. -/
def unmatched : Nat → List String → Nat
  | n, [] => n
  | n, t :: ts => unmatched (if t = "(" then n + 1 else if t = ")" then n - 1 else n) ts

/-- Some closing parenthesis has no unmatched opening parenthesis before it. -/
def HasStrayClose (n : Nat) (ts : List String) : Prop :=
  ∃ before after, ts = before ++ ")" :: after ∧ unmatched n before = 0

/-- Some quote marker is followed at once by a closing parenthesis or by the end. -/
def HasIdleQuote (ts : List String) : Prop :=
  ∃ before token after, ts = before ++ token :: after ∧ (quoteKeyword? token).isSome = true ∧
    (after = [] ∨ ∃ more, after = ")" :: more)

/-- No integer token has too many digits. -/
def ShortIntegers (ts : List String) : Prop :=
  ∀ token ∈ ts, ∀ negative digits, Number.integerLiteral? token.toList = some (negative, digits) →
    digits.length ≤ digitLimit

/-- A token inside which the reader is one level deeper. -/
def goesDeeper (token : String) : Bool :=
  token == "(" || (quoteKeyword? token).isSome

def levels (ts : List String) : Nat :=
  ts.countP goesDeeper

def tokensOf (ts : List Lexeme) : List String :=
  ts.map Lexeme.token

theorem tokensOf_append (ts us : List Lexeme) : tokensOf (ts ++ us) = tokensOf ts ++ tokensOf us :=
  List.map_append

theorem unmatched_append (n : Nat) (ts us : List String) :
    unmatched n (ts ++ us) = unmatched (unmatched n ts) us := by
  induction ts generalizing n with
  | nil => rfl
  | cons t ts ih => exact ih _

theorem unmatched_closes (n k : Nat) : unmatched n (List.replicate k ")") = n - k := by
  induction k generalizing n with
  | zero => rfl
  | succ k ih =>
    rw [List.replicate_succ]
    change unmatched (n - 1) _ = _
    rw [ih]
    omega

theorem not_hasStrayClose_nil (n : Nat) : ¬ HasStrayClose n [] := by
  rintro ⟨before, after, split, _⟩
  exact List.append_ne_nil_of_right_ne_nil _ (List.cons_ne_nil _ _) split.symm

theorem hasStrayClose_cons {n : Nat} {t : String} {ts : List String} :
    HasStrayClose n (t :: ts) ↔ t = ")" ∧ n = 0 ∨
      HasStrayClose (if t = "(" then n + 1 else if t = ")" then n - 1 else n) ts := by
  constructor
  · rintro ⟨before, after, split, none⟩
    cases before with
    | nil =>
      obtain ⟨rfl, _⟩ := List.cons.inj split
      exact Or.inl ⟨rfl, none⟩
    | cons u before =>
      obtain ⟨rfl, rfl⟩ := List.cons.inj split
      exact Or.inr ⟨before, after, rfl, none⟩
  · rintro (⟨rfl, rfl⟩ | ⟨before, after, rfl, none⟩)
    · exact ⟨[], ts, rfl, rfl⟩
    · exact ⟨t :: before, after, rfl, none⟩

theorem hasStrayClose_append {n : Nat} {ts us : List String} :
    HasStrayClose n (ts ++ us) ↔ HasStrayClose n ts ∨ HasStrayClose (unmatched n ts) us := by
  induction ts generalizing n with
  | nil => simp [not_hasStrayClose_nil, unmatched]
  | cons t ts ih =>
    rw [List.cons_append, hasStrayClose_cons, hasStrayClose_cons, ih, or_assoc]
    rfl

theorem not_hasStrayClose_closes {n k : Nat} :
    ¬ HasStrayClose n (List.replicate k ")") ↔ k ≤ n := by
  induction k generalizing n with
  | zero => simp [not_hasStrayClose_nil]
  | succ k ih =>
    rw [List.replicate_succ, hasStrayClose_cons, not_or]
    have rest : ¬ HasStrayClose (n - 1) (List.replicate k ")") ↔ k ≤ n - 1 := ih
    change ¬ _ ∧ ¬ HasStrayClose (n - 1) _ ↔ _
    rw [rest]
    simp only [true_and]
    omega

/-- A suffix with an idle quote. -/
theorem HasIdleQuote.append {us : List String} (h : HasIdleQuote us) (ts : List String) :
    HasIdleQuote (ts ++ us) := by
  obtain ⟨before, token, after, rfl, quote, idle⟩ := h
  exact ⟨ts ++ before, token, after, by rw [List.append_assoc], quote, idle⟩

/-- Closing what is open leaves a quote idle. -/
theorem HasIdleQuote.closes {ts : List String} (h : HasIdleQuote ts) (k : Nat) :
    HasIdleQuote (ts ++ List.replicate k ")") := by
  obtain ⟨before, token, after, rfl, quote, idle⟩ := h
  refine ⟨before, token, after ++ List.replicate k ")", by simp, quote, ?_⟩
  rcases idle with rfl | ⟨more, rfl⟩
  · cases k with
    | zero => exact Or.inl rfl
    | succ k => exact Or.inr ⟨_, List.replicate_succ⟩
  · exact Or.inr ⟨more ++ List.replicate k ")", rfl⟩

theorem not_hasIdleQuote_nil : ¬ HasIdleQuote [] := by
  rintro ⟨before, token, after, split, _⟩
  exact List.append_ne_nil_of_right_ne_nil _ (List.cons_ne_nil _ _) split.symm

theorem hasIdleQuote_cons {t : String} {ts : List String} :
    HasIdleQuote (t :: ts) ↔
      (quoteKeyword? t).isSome = true ∧ (ts = [] ∨ ∃ more, ts = ")" :: more) ∨ HasIdleQuote ts := by
  constructor
  · rintro ⟨before, token, after, split, quote, idle⟩
    cases before with
    | nil =>
      obtain ⟨rfl, rfl⟩ := List.cons.inj split
      exact Or.inl ⟨quote, idle⟩
    | cons u before =>
      obtain ⟨rfl, rfl⟩ := List.cons.inj split
      exact Or.inr ⟨before, token, after, rfl, quote, idle⟩
  · rintro (⟨quote, idle⟩ | later)
    · exact ⟨[], t, ts, rfl, quote, idle⟩
    · exact later.append [t]

/-- Whether a closing parenthesis comes first. -/
theorem begins_with_close_iff {ts : List String} :
    (∃ more, ts = ")" :: more) ↔ ts.head? = some ")" := by
  cases ts with
  | nil => simp
  | cons t ts => simp

instance decideStrayClose : (n : Nat) → (ts : List String) → Decidable (HasStrayClose n ts)
  | n, [] => isFalse (not_hasStrayClose_nil n)
  | n, t :: ts =>
    have := decideStrayClose (if t = "(" then n + 1 else if t = ")" then n - 1 else n) ts
    decidable_of_iff _ hasStrayClose_cons.symm

instance decideIdleQuote : (ts : List String) → Decidable (HasIdleQuote ts)
  | [] => isFalse not_hasIdleQuote_nil
  | _ :: ts =>
    have := decideIdleQuote ts
    have : Decidable (∃ more, ts = ")" :: more) := decidable_of_iff _ begins_with_close_iff.symm
    decidable_of_iff _ hasIdleQuote_cons.symm

theorem not_mark_of_quote {token keyword : String} (h : quoteKeyword? token = some keyword) :
    token ≠ "(" ∧ token ≠ ")" := by
  constructor
  · rintro rfl
    cases h
  · rintro rfl
    cases h

/-- A form does not begin with a closing parenthesis. -/
theorem IsForm.begins {ts : List String} {d : Datum} (h : IsForm ts d) :
    ∃ t us, ts = t :: us ∧ t ≠ ")" := by
  cases h with
  | atom _ notClose => exact ⟨_, _, rfl, notClose⟩
  | quoted h => exact ⟨_, _, rfl, (not_mark_of_quote h).2⟩
  | list => exact ⟨_, _, rfl, by decide⟩

mutual

/-- A form is balanced. -/
theorem IsForm.balanced {ts : List String} {d : Datum} (h : IsForm ts d) (n : Nat) :
    unmatched n ts = n ∧ ¬ HasStrayClose n ts := by
  cases h with
  | @atom token _ notOpen notClose =>
    constructor
    · simp [unmatched, notOpen, notClose]
    · rw [hasStrayClose_cons]
      simp [notClose, not_hasStrayClose_nil]
  | quoted h form =>
    obtain ⟨notOpen, notClose⟩ := not_mark_of_quote h
    rw [hasStrayClose_cons, unmatched, if_neg notOpen, if_neg notClose]
    exact ⟨(form.balanced n).1, by simp [notClose, (form.balanced n).2]⟩
  | list items =>
    obtain ⟨level, inside⟩ := items.balanced (n + 1)
    rw [hasStrayClose_cons, unmatched, if_pos rfl, hasStrayClose_append, unmatched_append, level]
    refine ⟨rfl, ?_⟩
    rintro (⟨close, _⟩ | stray | stray)
    · exact absurd close (by decide)
    · exact inside stray
    · exact (not_hasStrayClose_closes (k := 1)).mpr (Nat.succ_pos n) stray

theorem AreForms.balanced {ts : List String} {ds : List Datum} (h : AreForms ts ds) (n : Nat) :
    unmatched n ts = n ∧ ¬ HasStrayClose n ts := by
  cases h with
  | nil => exact ⟨rfl, not_hasStrayClose_nil n⟩
  | cons first rest =>
    obtain ⟨level, one⟩ := first.balanced n
    obtain ⟨whole, others⟩ := rest.balanced n
    rw [unmatched_append, hasStrayClose_append, level]
    exact ⟨whole, by simp [one, others]⟩

end

mutual

/-- No quote of a form is idle. -/
theorem IsForm.idle {ts : List String} {d : Datum} (h : IsForm ts d) {rest : List String}
    (idle : HasIdleQuote (ts ++ rest)) : HasIdleQuote rest := by
  cases h with
  | atom _ _ notQuote =>
    rcases hasIdleQuote_cons.mp idle with ⟨quote, _⟩ | later
    · rw [notQuote] at quote
      cases quote
    · exact later
  | quoted _ form =>
    rcases hasIdleQuote_cons.mp idle with ⟨_, none | ⟨more, close⟩⟩ | later
    · obtain ⟨t, us, rfl, _⟩ := form.begins
      cases none
    · obtain ⟨t, us, rfl, notClose⟩ := form.begins
      exact absurd (List.cons.inj close).1 notClose
    · exact form.idle later
  | list items =>
    rcases hasIdleQuote_cons.mp idle with ⟨quote, _⟩ | later
    · cases quote
    · change HasIdleQuote (_ ++ [")"] ++ rest) at later
      rw [List.append_assoc] at later
      rcases hasIdleQuote_cons.mp (items.idle later) with ⟨quote, _⟩ | later
      · cases quote
      · exact later

theorem AreForms.idle {ts : List String} {ds : List Datum} (h : AreForms ts ds) {rest : List String}
    (idle : HasIdleQuote (ts ++ rest)) : HasIdleQuote rest := by
  cases h with
  | nil => exact idle
  | cons first others =>
    rw [List.append_assoc] at idle
    exact others.idle (first.idle idle)

end

theorem AreForms.not_hasIdleQuote {ts : List String} {ds : List Datum} (h : AreForms ts ds) :
    ¬ HasIdleQuote ts := by
  intro idle
  rw [← List.append_nil ts] at idle
  exact not_hasIdleQuote_nil (h.idle idle)

/-! ## Reading the tokens of forms -/

variable {p q : Port} {ts rest : List Lexeme} {us : List String} {fuel room : Nat}

theorem readAtom_of_ok {token : String} {d : Datum} (h : atom token = .ok d) (p : Port) :
    ∃ table, outcome (readAtom token) p = (.ok d, { p with symbols := table }) := by
  unfold readAtom
  rw [h]
  cases d with
  | symbol name => exact ⟨_, rfl⟩
  | _ => exact ⟨_, rfl⟩

theorem readAtom_of_error {token : String} {f : Failure} (h : atom token = .error f) (p : Port) :
    outcome (readAtom token) p = (.error f, p) := by
  unfold readAtom
  rw [h]
  rfl

theorem atom_error {token : String} {f : Failure} (h : atom token = .error f) :
    ∃ count, f = .longInteger count := by
  unfold atom at h
  dsimp only at h
  split at h
  · cases h
  · split at h
    · cases h
    · split at h
      · cases h
      · split at h
        · unfold integerAtom at h
          split at h
          · cases h
            exact ⟨_, rfl⟩
          · cases h
        · split at h
          · cases h
          · cases h

/-- An atom is read, or it is an integer with too many digits. It takes nothing more from the port. -/
theorem readAtom_cases (token : String) (p : Port) :
    (∃ d table, outcome (readAtom token) p = (.ok d, { p with symbols := table })) ∨
      ∃ count, outcome (readAtom token) p = (.error (.longInteger count), p) := by
  cases made : atom token with
  | ok d =>
    obtain ⟨table, read⟩ := readAtom_of_ok made p
    exact Or.inl ⟨d, table, read⟩
  | error f =>
    obtain ⟨count, rfl⟩ := atom_error made
    exact Or.inr ⟨count, readAtom_of_error made p⟩

theorem readAtom_ne_malformed {token form : String} {fault : FormFault} :
    outcome (readAtom token) p ≠ (.error (.malformed form fault), q) := by
  intro h
  rcases readAtom_cases token p with ⟨d, table, read⟩ | ⟨count, failed⟩
  · cases read.symm.trans h
  · cases failed.symm.trans h

theorem readFrom_atomToken {token : String} (notOpen : token ≠ "(") (notClose : token ≠ ")")
    (notQuote : quoteKeyword? token = none) :
    readFrom (fuel + 1) room token = readAtom token := by
  unfold readFrom
  rw [if_neg notOpen, if_neg notClose, notQuote]

theorem readFrom_quote {token keyword : String} (h : quoteKeyword? token = some keyword) :
    readFrom (fuel + 1) (room + 1) token = (do
      let some next ← nextToken | throw (.malformed token .nothingQuoted)
      let quoted ← readFrom fuel room next
      record keyword
      return .list [.symbol keyword, quoted]) := by
  obtain ⟨notOpen, notClose⟩ := not_mark_of_quote h
  rw [readFrom, if_neg notOpen, if_neg notClose, h]
  rfl

theorem readFrom_quoted {token keyword next : String} {d : Datum} {r : Port}
    (h : quoteKeyword? token = some keyword) (first : outcome nextToken p = (.ok (some next), q))
    (form : outcome (readFrom fuel room next) q = (.ok d, r)) :
    ∃ table, outcome (readFrom (fuel + 1) (room + 1) token) p =
      (.ok (.list [.symbol keyword, d]), { r with symbols := table }) := by
  refine ⟨(r.symbols.intern keyword).2, ?_⟩
  rw [readFrom_quote h, outcome_bind_of_ok first]
  dsimp only
  rw [outcome_bind_of_ok form]
  rfl

/-- Lexemes of which none is a string left open. -/
def AllClosed (ts : List Lexeme) : Prop :=
  ∀ t ∈ ts, t.isOpenString = false

/-- The next token of a port is the first of the given ones. -/
theorem Port.Gives.nextToken_of_tokens {t : String} (h : p.Gives (ts ++ rest)) (closed : AllClosed ts)
    (same : tokensOf ts = t :: us) :
    ∃ q ts', outcome nextToken p = (.ok (some t), q) ∧ tokensOf ts' = us ∧ AllClosed ts' ∧
      q.Gives (ts' ++ rest) := by
  cases ts with
  | nil => cases same
  | cons l ts =>
    obtain ⟨rfl, rfl⟩ := List.cons.inj same
    obtain ⟨q, given, _, more⟩ := Port.Gives.nextToken_cons h (closed l (by simp))
    exact ⟨q, ts, given, rfl, fun l' mem => closed l' (List.mem_cons_of_mem l mem), more⟩

theorem tokensOf_split {us vs : List String} (same : tokensOf ts = us ++ vs) (closed : AllClosed ts) :
    ∃ first second, ts = first ++ second ∧ tokensOf first = us ∧ tokensOf second = vs ∧
      AllClosed first ∧ AllClosed second := by
  obtain ⟨first, second, rfl, one, two⟩ := List.map_eq_append_iff.mp same
  exact ⟨first, second, rfl, one, two, fun l mem => closed l (List.mem_append_left _ mem),
    fun l mem => closed l (List.mem_append_right _ mem)⟩

theorem depth_quoted (keyword : String) (d : Datum) :
    (Datum.list [.symbol keyword, d]).depth = d.depth + 1 := by
  rw [Datum.depth_list]
  simp [Datum.depths, Datum.depth]

mutual

/-- The tokens of a form are read as this form, where there is room for its lists. -/
theorem IsForm.read {us : List String} {d : Datum} (h : IsForm us d) {fuel room : Nat}
    (fits : d.depth ≤ room) (enough : 2 * us.length ≤ fuel) {ts rest : List Lexeme} {p : Port}
    (same : tokensOf ts = us) (closed : AllClosed ts) (gives : p.Gives (ts ++ rest)) :
    ∃ token q r, outcome nextToken p = (.ok (some token), q) ∧ token ≠ ")" ∧
      outcome (readFrom fuel room token) q = (.ok d, r) ∧ r.Gives rest := by
  cases h with
  | @atom token _ notOpen notClose notQuote h =>
    obtain ⟨fuel, rfl⟩ : ∃ n, fuel = n + 1 := ⟨fuel - 1, by simp at enough; omega⟩
    obtain ⟨q, ts, first, none, _, gives⟩ := gives.nextToken_of_tokens closed same
    obtain rfl := List.map_eq_nil_iff.mp none
    obtain ⟨table, read⟩ := readAtom_of_ok h q
    have step : readFrom (fuel + 1) room token = readAtom token :=
      readFrom_atomToken notOpen notClose notQuote
    rw [← step] at read
    exact ⟨token, q, _, first, notClose, read, gives.withSymbols table⟩
  | @quoted token keyword us d h form =>
    rw [depth_quoted] at fits
    rw [List.length_cons] at enough
    obtain ⟨fuel, rfl⟩ : ∃ n, fuel = n + 1 := ⟨fuel - 1, by omega⟩
    obtain ⟨room, rfl⟩ : ∃ n, room = n + 1 := ⟨room - 1, by omega⟩
    obtain ⟨q, ts, first, same, closed, gives⟩ := gives.nextToken_of_tokens closed same
    obtain ⟨next, q', r, second, _, inner, gives⟩ :=
      form.read (Nat.le_of_succ_le_succ fits) (by omega : 2 * us.length ≤ fuel) same closed gives
    obtain ⟨table, whole⟩ := readFrom_quoted h second inner
    exact ⟨token, q, _, first, (not_mark_of_quote h).2, whole, gives.withSymbols table⟩
  | @list us ds items =>
    rw [Datum.depth_list] at fits
    rw [List.length_cons, List.length_append, List.length_singleton] at enough
    obtain ⟨fuel, rfl⟩ : ∃ n, fuel = n + 1 := ⟨fuel - 1, by omega⟩
    obtain ⟨room, rfl⟩ : ∃ n, room = n + 1 := ⟨room - 1, by omega⟩
    obtain ⟨q, ts, first, same, closed, gives⟩ := gives.nextToken_of_tokens closed same
    obtain ⟨r, inside, gives⟩ :=
      items.readItems (Nat.le_of_succ_le_succ fits) (by omega : 2 * us.length + 1 ≤ fuel) same closed gives
    exact ⟨"(", q, r, first, by decide, readFrom_open inside, gives⟩

/-- The tokens of forms and a closing parenthesis. -/
theorem AreForms.readItems {us : List String} {ds : List Datum} (h : AreForms us ds)
    {fuel room : Nat} (fits : Datum.depths ds ≤ room) (enough : 2 * us.length + 1 ≤ fuel)
    {ts rest : List Lexeme} {p : Port} (same : tokensOf ts = us ++ [")"]) (closed : AllClosed ts)
    (gives : p.Gives (ts ++ rest)) :
    ∃ r, outcome (Reader.readItems fuel room) p = (.ok ds, r) ∧ r.Gives rest := by
  obtain ⟨fuel, rfl⟩ : ∃ n, fuel = n + 1 := ⟨fuel - 1, by omega⟩
  cases h with
  | nil =>
    obtain ⟨q, ts, first, none, _, gives⟩ := gives.nextToken_of_tokens closed same
    obtain rfl := List.map_eq_nil_iff.mp none
    exact ⟨q, readItems_close first, gives⟩
  | @cons us vs d ds form others =>
    unfold Datum.depths at fits
    rw [List.append_assoc] at same
    obtain ⟨one, more, rfl, sameOne, sameMore, closedOne, closedMore⟩ := tokensOf_split same closed
    obtain ⟨t, us', begins, _⟩ := form.begins
    have positive : 0 < us.length := by rw [begins]; exact Nat.succ_pos _
    rw [List.length_append] at enough
    rw [List.append_assoc] at gives
    obtain ⟨token, q, r, first, notClose, item, gives⟩ :=
      form.read (by omega : d.depth ≤ room) (by omega : 2 * us.length ≤ fuel) sameOne closedOne gives
    obtain ⟨last, rest, gives⟩ := others.readItems (by omega : Datum.depths ds ≤ room)
      (by omega : 2 * vs.length + 1 ≤ fuel) sameMore closedMore gives
    exact ⟨last, readItems_item first notClose item rest, gives⟩

end

/-- The tokens of forms are read as these forms and nothing else. -/
theorem AreForms.collect {ds : List Datum} (h : AreForms us ds) (fits : Datum.depths ds ≤ room)
    (enough : us.length < fuel) (same : tokensOf ts = us) (closed : AllClosed ts)
    (gives : p.Gives ts) : Reader.collect (Reader.read room) fuel p = (ds, none) := by
  induction ds generalizing us fuel ts p with
  | nil =>
    cases h
    obtain rfl := List.map_eq_nil_iff.mp same
    obtain ⟨fuel, rfl⟩ : ∃ n, fuel = n + 1 := ⟨fuel - 1, by omega⟩
    exact collect_none (read_end gives.nextToken_nil)
  | cons d ds ih =>
    cases h with
    | @cons us vs _ _ form others =>
      unfold Datum.depths at fits
      obtain ⟨one, more, rfl, sameOne, sameMore, closedOne, closedMore⟩ := tokensOf_split same closed
      obtain ⟨t, us', begins, _⟩ := form.begins
      have positive : 0 < us.length := by rw [begins]; exact Nat.succ_pos _
      rw [List.length_append] at enough
      obtain ⟨fuel, rfl⟩ : ∃ n, fuel = n + 1 := ⟨fuel - 1, by omega⟩
      have unread := gives.length_le_unread
      have length : us.length = one.length := by rw [← sameOne]; exact List.length_map _
      rw [List.length_append] at unread
      obtain ⟨token, q, r, first, _, item, gives⟩ :=
        form.read (by omega : d.depth ≤ room) (by omega : 2 * us.length ≤ 2 * p.unread + 2) sameOne
          closedOne gives
      rw [collect_some (read_form first item),
        ih others (by omega : Datum.depths ds ≤ room) (by omega) sameMore closedMore gives]

end SmallLisp.Reader
