import Mathlib.Data.Prod.Lex
import SmallLisp.Editor.Diagnostics
import SmallLisp.Proofs.LaterLines
/-!
# What a diagnosis says

A failure of the reader shows in the tokens: it is a malformed form, an integer with too many digits or
nesting beyond the limit, and a text that is read to its end has short integers only. A diagnosis reports
the first of these failures; the other two end it. What it reports besides are the parentheses that the
index finds unclosed, in the order of the text. So it reports nothing just when the tokens of the text are
those of the forms that are read.
-/
namespace SmallLisp.Reader

open Editor Run

variable {α β : Type} {p q : Port} {ts : List Lexeme} {us vs : List String} {fuel room : Nat}
  {f : Failure}

/-- Why reading fails, as the tokens show it. -/
inductive Explained (room : Nat) (us : List String) : Failure → Prop where
  | malformed (form : String) (fault : FormFault) : Explained room us (.malformed form fault)
  | nesting (deep : room < levels us) : Explained room us .tooDeep
  | longInteger {token : String} {negative : Bool} {digits : List Char} (mem : token ∈ us)
      (literal : Number.integerLiteral? token.toList = some (negative, digits))
      (long : digitLimit < digits.length) : Explained room us (.longInteger (some digits.length))

theorem Explained.mono {room' : Nat} (h : Explained room us f) (sub : ∀ t ∈ us, t ∈ vs)
    (deeper : room < levels us → room' < levels vs) : Explained room' vs f := by
  cases h with
  | malformed form fault => exact .malformed form fault
  | nesting deep => exact .nesting (deeper deep)
  | longInteger mem literal long => exact .longInteger (sub _ mem) literal long

/-- The reasons are there still when other tokens stand before. -/
theorem Explained.after (h : Explained room us f) (before : List String) :
    Explained room (before ++ us) f := by
  refine h.mono (fun t mem => List.mem_append_right before mem) fun deep => ?_
  rw [levels_append]
  exact Nat.lt_add_left _ deep

theorem shortIntegers_nil : ShortIntegers [] :=
  fun _ mem => absurd mem List.not_mem_nil

theorem ShortIntegers.append (h : ShortIntegers us) (h' : ShortIntegers vs) :
    ShortIntegers (us ++ vs) := by
  intro token mem
  rcases List.mem_append.mp mem with mem | mem
  · exact h token mem
  · exact h' token mem

theorem shortIntegers_of_noInteger {token : String} (h : Number.integerLiteral? token.toList = none) :
    ShortIntegers [token] := by
  intro token' mem negative digits literal
  obtain rfl := List.mem_singleton.mp mem
  rw [h] at literal
  cases literal

theorem shortIntegers_quote {token keyword : String} (h : quoteKeyword? token = some keyword) :
    ShortIntegers [token] := by
  apply shortIntegers_of_noInteger
  unfold quoteKeyword? at h
  split at h
  · subst token; rfl
  · split at h
    · subst token; rfl
    · split at h
      · subst token; rfl
      · split at h
        · subst token; rfl
        · cases h

theorem integerLiteral?_string {cs : List Char} (h : cs.head? = some '"') :
    Number.integerLiteral? cs = none := by
  obtain ⟨rest, rfl⟩ := List.head?_eq_some_iff.mp h
  rfl

/-- An atom is an integer that is not too long, or no integer; it fails to be read only when it is too long. -/
theorem atom_digits (room : Nat) (us : List String) (token : String) : match atom token with
    | .ok _ => ShortIntegers [token]
    | .error f => Explained room (token :: us) f := by
  unfold atom
  dsimp only
  by_cases isTrue : token = "#t"
  · rw [if_pos isTrue]
    exact shortIntegers_of_noInteger (isTrue ▸ rfl)
  by_cases isFalse : token = "#f"
  · rw [if_neg isTrue, if_pos isFalse]
    exact shortIntegers_of_noInteger (isFalse ▸ rfl)
  by_cases isString : token.toList.head? = some '"'
  · rw [if_neg isTrue, if_neg isFalse, if_pos isString]
    exact shortIntegers_of_noInteger (integerLiteral?_string isString)
  rw [if_neg isTrue, if_neg isFalse, if_neg isString]
  cases literal : Number.integerLiteral? token.toList with
  | none =>
    have short := shortIntegers_of_noInteger literal
    cases Number.decimalLiteral? token.toList <;> exact short
  | some given =>
    obtain ⟨negative, digits⟩ := given
    dsimp only
    unfold integerAtom
    by_cases long : digitLimit < digits.length
    · rw [if_pos long]
      exact .longInteger (by simp) literal long
    · rw [if_neg long]
      intro token' mem negative' digits' literal'
      obtain rfl := List.mem_singleton.mp mem
      cases literal.symm.trans literal'
      exact Nat.le_of_not_lt long

/-- How a part of reading ends that begins after the given tokens: it has used short integers only, or the
tokens explain its failure. -/
def Accounts (room : Nat) (before : List String) (ts : List Lexeme) : Except Failure α × Port → Prop
  | (.ok _, q) => ∃ used rest, ts = used ++ rest ∧ q.Gives rest ∧ ShortIntegers (before ++ tokensOf used)
  | (.error f, _) => Explained room (before ++ tokensOf ts) f

namespace Accounts

variable {before : List String} {a : Reading α} {k : α → Reading β}

theorem pure (x : α) (gives : p.Gives ts) (short : ShortIntegers before) :
    Accounts room before ts (outcome (Pure.pure x) p) :=
  ⟨[], ts, rfl, gives, by rwa [tokensOf, List.map_nil, List.append_nil]⟩

/-- One part after another. -/
theorem bind (first : Accounts room before ts (outcome a p))
    (later : ∀ x q used rest, ts = used ++ rest → q.Gives rest →
      ShortIntegers (before ++ tokensOf used) → Accounts room (before ++ tokensOf used) rest (outcome (k x) q)) :
    Accounts room before ts (outcome (a >>= k) p) := by
  rw [outcome_bind]
  generalize outcome a p = o at first
  rcases o with ⟨f | x, q⟩
  · exact first
  · obtain ⟨used, rest, rfl, gives, short⟩ := first
    have second := later x q used rest rfl gives short
    dsimp only
    generalize outcome (k x) q = o at second
    rcases o with ⟨f | y, r⟩
    · change Explained _ _ f at second
      rwa [List.append_assoc, ← tokensOf_append] at second
    · obtain ⟨used', rest', rfl, gives', short'⟩ := second
      rw [List.append_assoc, ← tokensOf_append] at short'
      exact ⟨used ++ used', rest', (List.append_assoc ..).symm, gives', short'⟩

/-- A part that stands after more tokens. -/
theorem after {o : Except Failure α × Port} (h : Accounts room us ts o) (short : ShortIntegers before) :
    Accounts room (before ++ us) ts o := by
  rcases o with ⟨f | x, q⟩
  · change Explained _ _ f
    rw [List.append_assoc]
    exact Explained.after h before
  · obtain ⟨used, rest, split, gives, short'⟩ := h
    exact ⟨used, rest, split, gives, by rw [List.append_assoc]; exact short.append short'⟩

/-- What comes next is the end, a string left open, which is reported, or a token. -/
theorem next {k : Option String → Reading β} (gives : p.Gives ts)
    (ended : ts = [] → ∀ q, q.Gives [] → Accounts room [] [] (outcome (k none) q))
    (later : ∀ t rest q, ts = t :: rest → q.Gives rest →
      Accounts room [t.token] rest (outcome (k (some t.token)) q)) :
    Accounts room [] ts (outcome (nextToken >>= k) p) := by
  cases ts with
  | nil =>
    rw [outcome_bind_of_ok gives.nextToken_nil]
    exact ended rfl _ (.ended _)
  | cons t ts =>
    cases openString : t.isOpenString with
    | true =>
      obtain ⟨q, stopped⟩ := gives.nextToken_openString openString
      rw [outcome_bind_of_error stopped]
      exact .malformed _ _
    | false =>
      obtain ⟨q, given, _, more⟩ := gives.nextToken_cons openString
      have second := later t ts q rfl more
      rw [outcome_bind_of_ok given]
      generalize outcome (k (some t.token)) q = o at second
      rcases o with ⟨f | y, r⟩
      · exact second
      · obtain ⟨used, rest, rfl, gives', short⟩ := second
        exact ⟨t :: used, rest, rfl, gives', short⟩

theorem readAtom (token : String) (gives : p.Gives ts) :
    Accounts room [token] ts (outcome (readAtom token) p) := by
  have digits := atom_digits room (tokensOf ts) token
  cases made : atom token with
  | error f =>
    rw [made] at digits
    unfold Reader.readAtom
    rw [made]
    exact digits
  | ok d =>
    rw [made] at digits
    obtain ⟨table, read⟩ := readAtom_of_ok made p
    rw [read]
    exact pure d (gives.withSymbols table) digits

/-- The token that leads one level deeper takes the room for it. -/
theorem deeper {token : String} {go : Nat → Reading α} (deep : goesDeeper token = true)
    (short : ShortIntegers [token]) (inner : ∀ room, Accounts room [] ts (outcome (go room) p)) :
    Accounts room [token] ts (outcome (Reader.deeper room go) p) := by
  have level : levels (token :: tokensOf ts) = levels (tokensOf ts) + 1 := levels_cons_of_deeper deep _
  cases room with
  | zero => exact .nesting (by change 0 < levels (token :: tokensOf ts); omega)
  | succ room =>
    have within := inner room
    change Accounts _ _ _ (outcome (go room) p)
    generalize outcome (go room) p = o at within
    rcases o with ⟨f | x, q⟩
    · refine Explained.mono within (fun t mem => List.mem_cons_of_mem token mem) fun few => ?_
      change room < levels (tokensOf ts) at few
      change room + 1 < levels (token :: tokensOf ts)
      omega
    · obtain ⟨used, rest, split, gives, short'⟩ := within
      exact ⟨used, rest, split, gives, short.append short'⟩

end Accounts

/-- Reading a form or the items of a list accounts for the tokens that it uses. -/
theorem accounts_reading (fuel : Nat) :
    (∀ {room token ts p}, p.Gives ts → 2 * ts.length + 2 ≤ fuel →
      Accounts room [token] ts (outcome (readFrom fuel room token) p)) ∧
    (∀ {room ts p}, p.Gives ts → 2 * ts.length + 1 ≤ fuel →
      Accounts room [] ts (outcome (readItems fuel room) p)) := by
  induction fuel with
  | zero => exact ⟨fun _ enough => by omega, fun _ enough => by omega⟩
  | succ fuel ih =>
    obtain ⟨form, items⟩ := ih
    constructor
    · intro room token ts p gives enough
      by_cases isOpen : token = "("
      · subst isOpen
        rw [outcome_readFrom_open]
        refine .deeper rfl (shortIntegers_of_noInteger rfl) fun room => ?_
        exact (items gives (by omega)).bind fun ds q used rest _ gives short => .pure _ gives short
      by_cases isClose : token = ")"
      · subst isClose
        exact .malformed _ _
      cases quote : quoteKeyword? token with
      | none =>
        rw [readFrom_atomToken isOpen isClose quote]
        exact .readAtom token gives
      | some keyword =>
        rw [readFrom, if_neg isOpen, if_neg isClose, quote]
        refine .deeper (goesDeeper_of_quote quote) (shortIntegers_quote quote) fun room => ?_
        refine .next gives (fun _ _ _ => .malformed _ _) ?_
        rintro t ts q rfl gives
        rw [List.length_cons] at enough
        exact (form gives (by omega)).bind fun d r used rest _ gives short =>
          .pure _ (gives.withSymbols _) short
    · intro room ts p gives enough
      unfold readItems
      refine .next gives (fun _ q gives => .pure _ gives shortIntegers_nil) ?_
      rintro t ts q rfl gives
      rw [List.length_cons] at enough
      dsimp only
      by_cases isClose : t.token = ")"
      · rw [if_pos isClose]
        exact .pure _ gives (isClose ▸ shortIntegers_of_noInteger rfl)
      · rw [if_neg isClose]
        refine (form gives (by omega)).bind ?_
        rintro d r used rest rfl gives short
        rw [List.length_append] at enough
        have others : Accounts room [] rest
            (outcome (readItems fuel room >>= fun ds => pure (d :: ds)) r) :=
          (items gives (by omega)).bind fun ds q used rest _ gives short => .pure _ gives short
        exact List.append_nil ([t.token] ++ tokensOf used) ▸ others.after short

/-- When all forms are read, no integer is too long; a failure shows in the tokens. -/
theorem explained_of_collect (gives : p.Gives ts) (enough : ts.length < fuel) :
    match (collect (read room) fuel p).2 with
    | none => ShortIntegers (tokensOf ts)
    | some f => Explained room (tokensOf ts) f := by
  induction fuel generalizing p ts with
  | zero => omega
  | succ fuel ih =>
    cases ts with
    | nil =>
      rw [collect_none (read_end gives.nextToken_nil)]
      exact shortIntegers_nil
    | cons t ts =>
      have unread := gives.length_le_unread
      rw [List.length_cons] at unread enough
      cases openString : t.isOpenString with
      | true =>
        obtain ⟨q, stopped⟩ := gives.nextToken_openString openString
        rw [collect_error (read_error stopped)]
        exact .malformed _ _
      | false =>
        obtain ⟨q, given, _, more⟩ := gives.nextToken_cons openString
        have first : Accounts room [t.token] ts _ :=
          (accounts_reading (2 * p.unread + 2)).1 more (by omega)
        generalize form : outcome (readFrom (2 * p.unread + 2) room t.token) q = o at first
        rcases o with ⟨f | d, r⟩
        · rw [collect_error (read_form_error given form)]
          exact first
        · obtain ⟨used, rest, rfl, after, short⟩ := first
          rw [List.length_append] at enough
          have others := ih after (by omega)
          rw [collect_some (read_form given form)]
          have split : tokensOf (t :: (used ++ rest)) = ([t.token] ++ tokensOf used) ++ tokensOf rest :=
            tokensOf_append (t :: used) rest
          rw [split]
          dsimp only
          generalize (collect (read room) fuel r).2 = failure at others
          cases failure with
          | none => exact short.append others
          | some f => exact Explained.after others _

/-- A text whose forms are all read has short integers only; whatever else stops the reading shows in its
tokens. -/
theorem explained_forms (text : String) (symbols : SymbolTable) (room : Nat) :
    match ((Port.ofText text symbols).forms room).2 with
    | none => ShortIntegers (tokensOf (scan text.toList))
    | some f => Explained room (tokensOf (scan text.toList)) f := by
  have gives := Port.Gives.ofText (lexed_scan text.toList) symbols
  exact explained_of_collect gives (Nat.lt_succ_of_le gives.length_le_unread)

end SmallLisp.Reader

namespace SmallLisp.Editor

open Reader Run

variable {place : Position} {cs : List Char} {ts : List Lexeme} {text : String} {room : Nat}

/-! ## Places in the order of the text -/

/-- Places compare by line first. -/
def Position.order (p : Position) : Nat ×ₗ Nat :=
  toLex (p.line, p.column)

theorem Position.order_le_right (p : Position) (n : Nat) : p.order ≤ (p.right n).order :=
  Prod.Lex.toLex_le_toLex.mpr (Or.inr ⟨rfl, Nat.le_add_right p.column n⟩)

theorem Position.order_lt_right (p : Position) {n : Nat} (positive : 0 < n) :
    p.order < (p.right n).order :=
  Prod.Lex.toLex_lt_toLex.mpr (Or.inr ⟨rfl, Nat.lt_add_of_pos_right positive⟩)

theorem Position.order_le_after (p : Position) (c : Char) : p.order ≤ (p.after c).order := by
  unfold Position.after
  split
  · exact Prod.Lex.toLex_le_toLex.mpr (Or.inl (Nat.lt_succ_self p.line))
  · exact p.order_le_right 1

/-- Lexemes stand one after another. -/
theorem Lexed.ordered (h : Lexed place cs ts) :
    (∀ t ∈ ts, place.order ≤ t.place.order) ∧ ts.Pairwise fun t u => t.place.order < u.place.order := by
  induction h with
  | done => exact ⟨fun _ mem => absurd mem List.not_mem_nil, .nil⟩
  | @blank place c _ _ _ _ ih =>
    exact ⟨fun t mem => (place.order_le_after c).trans (ih.1 t mem), ih.2⟩
  | @comment place body _ _ _ _ _ ih =>
    exact ⟨fun t mem => (place.order_le_right _).trans (ih.1 t mem), ih.2⟩
  | @lexeme place text rest ts stands _ ih =>
    have before := place.order_lt_right (List.length_pos_iff.mpr stands.ne_nil)
    have later (t : Lexeme) (mem : t ∈ ts) := before.trans_le (ih.1 t mem)
    exact ⟨List.forall_mem_cons.mpr ⟨le_rfl, fun t mem => (later t mem).le⟩, .cons later ih.2⟩
  | @openString place body rest ts _ _ _ _ ih =>
    have before := place.order_lt_right (Nat.succ_pos body.length)
    have later (t : Lexeme) (mem : t ∈ ts) := before.trans_le (ih.1 t mem)
    exact ⟨List.forall_mem_cons.mpr ⟨le_rfl, fun t mem => (later t mem).le⟩, .cons later ih.2⟩

/-- The places of the opening parentheses among some lexemes. -/
def openPlaces (ts : List Lexeme) : List Position :=
  (ts.filter Lexeme.isOpen).map Lexeme.place

theorem openPlaces_cons (t : Lexeme) (ts : List Lexeme) :
    openPlaces (t :: ts) = (if t.isOpen then [t.place] else []) ++ openPlaces ts := by
  unfold openPlaces
  rw [List.filter_cons]
  split <;> rfl

/-- What is open after a lexeme was open before it, or the lexeme opens it. -/
theorem Progress.step_opens (progress : Progress) (t : Lexeme) (rest : List Lexeme) :
    ((progress.step t rest).opens.reverse).Sublist
      (progress.opens.reverse ++ if t.isOpen then [t.place] else []) := by
  unfold Progress.step
  split
  · exact List.sublist_append_left _ _
  · split
    · exact (List.reverse_cons).symm ▸ List.Sublist.refl _
    · split
      · cases progress.opens with
        | nil => exact List.sublist_append_left _ _
        | cons place opens =>
          rw [List.reverse_cons, List.append_assoc]
          exact List.sublist_append_left _ _
      · exact List.sublist_append_left _ _

theorem Progress.run_opens (progress : Progress) (ts : List Lexeme) :
    ((progress.run ts).opens.reverse).Sublist (progress.opens.reverse ++ openPlaces ts) := by
  induction ts generalizing progress with
  | nil => exact List.sublist_append_left _ _
  | cons t ts ih =>
    rw [openPlaces_cons, ← List.append_assoc]
    exact (ih (progress.step t ts)).trans ((progress.step_opens t ts).append_right _)

/-- The parentheses that the index finds unclosed are some of those that open a list, in text order. -/
theorem unclosed_ordered (text : String) :
    (Index.ofText text).unclosed.Sublist (openPlaces (scan text.toList)) ∧
      (Index.ofText text).unclosed.Pairwise fun p q => p.order < q.order := by
  have some : (Index.ofText text).unclosed.Sublist (openPlaces (scan text.toList)) :=
    Progress.start.run_opens (scan text.toList)
  refine ⟨some, .sublist some ?_⟩
  have ordered := (lexed_scan text.toList).ordered.2
  exact List.pairwise_map.mpr (ordered.sublist List.filter_sublist)

/-! ## The diagnosis -/

theorem readerFailure?_eq (room : Nat) (text : String) :
    readerFailure? room text = ((Port.ofText text ⟨0, []⟩).forms room).2 := rfl

/-- The diagnostics that report a failure: one error, and none when there is no failure. -/
def Reports : Option Failure → List Diagnostic → Prop
  | none, es => es = []
  | some f, es => ∃ d, es = [d] ∧ d.severity = .error ∧ d.message = f.message

theorem reports_of_errors {index : Index} {failure : Option Failure} {es : List Diagnostic}
    (h : errors index text failure = .ok es) : Reports failure es := by
  unfold errors at h
  split at h
  · exact (Except.ok.inj h).symm
  · exact ⟨_, (Except.ok.inj h).symm, rfl, rfl⟩
  · cases h

theorem errors_error (index : Index) (text : String) (failure : Option Failure) (f : Failure) :
    errors index text failure = .error f ↔
      failure = some f ∧ ∀ form fault, f ≠ .malformed form fault := by
  unfold errors
  split
  · simp
  · constructor
    · intro h
      cases h
    · rintro ⟨same, other⟩
      exact absurd (Option.some.inj same).symm (other _ _)
  · rename_i g other
    constructor
    · intro h
      cases h
      exact ⟨rfl, fun form fault same => other form fault same⟩
    · rintro ⟨same, _⟩
      rw [Option.some.inj same]

theorem diagnose_eq (room : Nat) (text : String) (index : Index) :
    diagnose room text index = match errors index text (readerFailure? room text) with
      | .ok es => .ok (es ++ warnings index)
      | .error f => .error f := by
  unfold diagnose
  cases errors index text (readerFailure? room text) <;> rfl

/-- The text of an integer with too many digits ends the diagnosis. -/
theorem diagnose_longInteger {ds : List Char} (digits : Number.AllDigits ds) (long : digitLimit < ds.length)
    (room : Nat) (index : Index) :
    diagnose room (String.ofList ds) index = .error (.longInteger (some ds.length)) := by
  have nonempty : ds ≠ [] := by
    rintro rfl
    exact Nat.not_lt_zero _ long
  have numeral := digits.isNumeral nonempty
  have token : IsAtomToken ds := Datum.isAtomToken_of_isNumeral numeral
  have refused : atom (String.ofList ds) = .error (.longInteger (some ds.length)) := by
    have literal : Number.integerLiteral? (String.ofList ds).toList = some (false, ds) := by
      rw [String.toList_ofList]
      exact Number.integerLiteral?_signed false digits nonempty
    rw [Datum.atom_integer (by rwa [String.toList_ofList]) literal, integerAtom, if_pos long]
  have lexed : Lexed ⟨0, 0⟩ (String.ofList ds).toList [⟨ds, ⟨0, 0⟩, false⟩] := by
    have whole : Lexed ⟨0, 0⟩ (ds ++ []) _ := .lexeme (.atom token ends_nil) .done
    rw [List.append_nil] at whole
    rwa [String.toList_ofList]
  obtain ⟨notOpen, notClose, notQuote⟩ := Datum.not_mark (String.ofList ds) fun c mem => by
    rw [String.toList_ofList] at mem
    exact isPunctuation_of_isAtomChar (token.2 c (List.mem_of_mem_head? mem))
  obtain ⟨q, given, _⟩ := (Port.Gives.ofText lexed ⟨0, []⟩).nextToken_cons rfl
  have failed (fuel : Nat) : outcome (readFrom (fuel + 1) room (String.ofList ds)) q =
      (.error (.longInteger (some ds.length)), q) := by
    rw [readFrom_atomToken notOpen notClose notQuote, readAtom, refused]
    rfl
  rw [diagnose_eq, readerFailure?_eq, Port.forms, collect_error (read_form_error given (failed _))]
  rfl

/-- Nothing is open at the end of a text just when its tokens are those of the forms read from it. -/
theorem unclosed_eq_nil {ds : List Datum}
    (read : (Port.ofText text ⟨0, []⟩).forms room = (ds, none)) :
    (Index.ofText text).unclosed = [] ↔ AreForms (tokensOf (scan text.toList)) ds := by
  have short := explained_forms text ⟨0, []⟩ room
  rw [read] at short
  have all := readsAll_forms text ⟨0, []⟩ room short
  rw [read] at all
  obtain ⟨k, closed, forms⟩ := all
  have level := (index_levels closed).1
  constructor
  · intro none
    rw [none, (unmatched_of_completed forms).1] at level
    rwa [← level, List.length_nil, List.replicate_zero, List.append_nil] at forms
  · intro whole
    exact List.eq_nil_of_length_eq_zero (level.trans (whole.balanced 0).1)

/-- A diagnosis fails just when the reader fails for a reason other than a malformed form, which is an
integer token with too many digits or more open levels than there is room for. Otherwise it consists of
an error if the reader fails and a warning for each parenthesis that the index finds unclosed, in
the order of the text. It is empty just when the reader accepts the text, whose tokens then are those of the
forms read with nothing closed by the end. -/
theorem diagnose_exact (room : Nat) (text : String) :
    (∀ f, diagnose room text (Index.ofText text) = .error f ↔
      readerFailure? room text = some f ∧ ∀ form fault, f ≠ .malformed form fault) ∧
    (∀ f, readerFailure? room text = some f → Explained room (tokensOf (scan text.toList)) f) ∧
    (∀ ds, diagnose room text (Index.ofText text) = .ok ds → ∃ es,
      ds = es ++ (Index.ofText text).unclosed.map
        (fun p => ⟨.ofWidth p 1, unclosedMessage, .warning⟩) ∧
      Reports (readerFailure? room text) es) ∧
    ((Index.ofText text).unclosed.Sublist (openPlaces (scan text.toList)) ∧
      (Index.ofText text).unclosed.Pairwise fun p q => p.order < q.order) ∧
    (diagnose room text (Index.ofText text) = .ok [] ↔ ∃ forms,
      (Port.ofText text ⟨0, []⟩).forms room = (forms, none) ∧
      AreForms (tokensOf (scan text.toList)) forms) := by
  rw [diagnose_eq]
  refine ⟨fun f => ?_, fun f failed => ?_, fun ds given => ?_, unclosed_ordered text, ?_⟩
  · rw [← errors_error (Index.ofText text) text]
    cases errors (Index.ofText text) text (readerFailure? room text) <;> simp
  · have explained := explained_forms text ⟨0, []⟩ room
    rw [← readerFailure?_eq, failed] at explained
    exact explained
  · cases made : errors (Index.ofText text) text (readerFailure? room text) with
    | error f =>
      rw [made] at given
      cases given
    | ok es =>
      rw [made] at given
      exact ⟨es, (Except.ok.inj given).symm, reports_of_errors made⟩
  · constructor
    · intro given
      cases made : errors (Index.ofText text) text (readerFailure? room text) with
      | error f =>
        rw [made] at given
        cases given
      | ok es =>
        rw [made] at given
        obtain ⟨rfl, none⟩ := List.append_eq_nil_iff.mp (Except.ok.inj given)
        have accepted := reports_of_errors made
        cases failure : readerFailure? room text with
        | some f =>
          rw [failure] at accepted
          obtain ⟨d, one, _⟩ := accepted
          cases one
        | none =>
          have read : (Port.ofText text ⟨0, []⟩).forms room =
              (((Port.ofText text ⟨0, []⟩).forms room).1, Option.none) := Prod.ext rfl failure
          exact ⟨_, read, (unclosed_eq_nil read).mp (List.map_eq_nil_iff.mp none)⟩
    · rintro ⟨forms, read, whole⟩
      rw [readerFailure?_eq, read]
      change Except.ok ([] ++ (Index.ofText text).unclosed.map _) = _
      rw [(unclosed_eq_nil read).mpr whole]
      rfl

end SmallLisp.Editor
