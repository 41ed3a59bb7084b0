import SmallLisp.Proofs.Acceptance
/-!
# Layouts

Tokens may be laid out with blanks, line ends and comments between them. However this is done, a port gives the same
tokens, and what is read from it depends on the tokens alone, an error included.
-/
namespace SmallLisp.Reader

open Editor Run

variable {α β : Type} {p q p' q' : Port} {t : String} {us used rest : List String} {fuel fuel' room : Nat}
  {c : Char} {s s' text : List Char}

/-! ## Layouts of tokens -/

/-- What stands between the quotes of a complete string: a backslash protects the next character. -/
inductive IsStringBody : List Char → Prop where
  | nil : IsStringBody []
  | plain {c : Char} {cs : List Char} (noQuote : c ≠ '"') (noEscape : c ≠ '\\') (inLine : c ≠ '\n')
      (more : IsStringBody cs) : IsStringBody (c :: cs)
  | escaped {c : Char} {cs : List Char} (inLine : c ≠ '\n') (more : IsStringBody cs) :
      IsStringBody ('\\' :: c :: cs)

/-- The text of one token: a parenthesis or a quote marker, a complete string in one line, or characters of an atom. -/
inductive IsTokenText : List Char → Prop where
  | punctuation {c : Char} (h : isPunctuation c = true) : IsTokenText [c]
  | splice : IsTokenText [',', '@']
  | string {body : List Char} (h : IsStringBody body) : IsTokenText ('"' :: (body ++ ['"']))
  | atom {cs : List Char} (nonempty : cs ≠ []) (h : ∀ c ∈ cs, isAtomChar c = true) : IsTokenText cs

/-- Blanks, line ends among them, and comments with the end of their line. -/
inductive IsSeparator : List Char → Prop where
  | nil : IsSeparator []
  | blank {c : Char} {rest : List Char} (h : Text.isBlank c = true) (more : IsSeparator rest) :
      IsSeparator (c :: rest)
  | comment {body rest : List Char} (inLine : '\n' ∉ body) (more : IsSeparator rest) :
      IsSeparator (';' :: (body ++ '\n' :: rest))

/-- What may stand behind the last token: the end of the text may also end a comment. -/
inductive IsEnding : List Char → Prop where
  | separator {s : List Char} (h : IsSeparator s) : IsEnding s
  | comment {s body : List Char} (h : IsSeparator s) (inLine : '\n' ∉ body) : IsEnding (s ++ ';' :: body)

/-- A text of tokens, each with what stands behind it; `first` stands before all of them. -/
def layOut (first : List Char) : List (List Char × List Char) → List Char
  | [] => first
  | (token, behind) :: more => first ++ token ++ layOut behind more

/-- The tokens are legal and have separators around them. Only the first separator and the last may be empty. -/
inductive IsLayout : List Char → List (List Char × List Char) → Prop where
  | ended {s : List Char} (h : IsEnding s) : IsLayout s []
  | token {s token behind : List Char} {more : List (List Char × List Char)} (separator : IsSeparator s)
      (legal : IsTokenText token) (apart : more ≠ [] → behind ≠ []) (rest : IsLayout behind more) :
      IsLayout s ((token, behind) :: more)

theorem IsStringBody.isStringToken {body : List Char} (h : IsStringBody body) : IsStringToken body := by
  rw [IsStringToken.iff_closeString?]
  induction h with
  | nil => rfl
  | plain noQuote noEscape inLine _ ih => exact closeString?_plain noQuote (not_or.mpr ⟨inLine, noEscape⟩) ih
  | escaped inLine _ ih => exact closeString?_protected inLine ih

/-! ## The lexemes of a layout -/

/-- A blank or the beginning of a comment. -/
def StartsGap (c : Char) : Prop :=
  Text.isBlank c = true ∨ c = ';'

theorem StartsGap.not_isAtomChar (h : StartsGap c) : isAtomChar c = false := by
  rcases h with blank | rfl
  · simp [isAtomChar, blank]
  · decide

theorem StartsGap.ne_at (h : StartsGap c) : c ≠ '@' := by
  rintro rfl
  rcases h with blank | comment
  · revert blank
    decide
  · revert comment
    decide

theorem IsSeparator.starts (h : IsSeparator s) : ∀ c ∈ s.head?, StartsGap c := by
  cases h with
  | nil => exact nofun
  | blank blank more =>
    rintro c ⟨⟩
    exact Or.inl blank
  | comment inLine more =>
    rintro c ⟨⟩
    exact Or.inr rfl

theorem IsEnding.starts (h : IsEnding s) : ∀ c ∈ s.head?, StartsGap c := by
  cases h with
  | separator h => exact h.starts
  | @comment s body h inLine =>
    cases s with
    | nil =>
      rintro c ⟨⟩
      exact Or.inr rfl
    | cons d s => exact h.starts

/-- What is laid out behind a token begins with a gap. -/
theorem IsLayout.starts {behind : List Char} {more : List (List Char × List Char)} (h : IsLayout behind more)
    (apart : more ≠ [] → behind ≠ []) : ∀ c ∈ (layOut behind more).head?, StartsGap c := by
  cases h with
  | ended h => exact h.starts
  | token separator _ _ _ =>
    obtain ⟨d, s, rfl⟩ := List.exists_cons_of_ne_nil (apart (List.cons_ne_nil _ _))
    exact separator.starts

theorem IsTokenText.stands {rest : List Char} (h : IsTokenText text) (gap : ∀ c ∈ rest.head?, StartsGap c) :
    Stands text rest := by
  cases h with
  | punctuation h => exact .mark h fun _ next => (gap '@' next).ne_at rfl
  | splice => exact .splice
  | string h => exact .string h.isStringToken
  | atom nonempty h => exact .atom ⟨nonempty, h⟩ fun c next => (gap c next).not_isAtomChar

/-- A separator adds no lexemes. -/
theorem IsSeparator.lexed (h : IsSeparator s) (place : Position) (rest : List Char) :
    ∃ place', ∀ ts, Lexed place' rest ts → Lexed place (s ++ rest) ts := by
  induction h generalizing place with
  | nil => exact ⟨place, fun ts lexed => lexed⟩
  | @blank c _ blank _ ih =>
    obtain ⟨place', more⟩ := ih (place.after c)
    exact ⟨place', fun ts lexed => .blank blank (more ts lexed)⟩
  | @comment body after inLine _ ih =>
    obtain ⟨place', more⟩ := ih ((place.right (body.length + 1)).after '\n')
    refine ⟨place', fun ts lexed => ?_⟩
    have line : AtLineEnd ('\n' :: (after ++ rest)) := fun c next => (Option.some.inj next).symm
    have whole := Lexed.comment inLine line (.blank rfl (more ts lexed))
    simpa using whole

theorem IsEnding.lexed (h : IsEnding s) (place : Position) : Lexed place s [] := by
  cases h with
  | separator h =>
    obtain ⟨place', more⟩ := h.lexed place []
    rw [← List.append_nil s]
    exact more [] .done
  | @comment s body h inLine =>
    obtain ⟨place', more⟩ := h.lexed place (';' :: body)
    have open' : Lexed place' (';' :: (body ++ [])) [] := .comment inLine nofun .done
    rw [List.append_nil] at open'
    exact more [] open'

/-- The lexemes of a layout are its tokens. -/
theorem IsLayout.lexed {first : List Char} {parts : List (List Char × List Char)} (h : IsLayout first parts)
    (place : Position) : ∃ ts, Lexed place (layOut first parts) ts ∧ AllClosed ts ∧
      tokensOf ts = parts.map fun part => String.ofList part.1 := by
  induction h generalizing place with
  | ended h => exact ⟨[], h.lexed place, .nil, rfl⟩
  | @token s token behind more separator legal apart rest ih =>
    obtain ⟨place', lexes⟩ := separator.lexed place (token ++ layOut behind more)
    obtain ⟨ts, lexed, closed, tokens⟩ := ih (place'.right token.length)
    have whole := lexes _ (.lexeme (legal.stands (rest.starts apart)) lexed)
    rw [← List.append_assoc] at whole
    exact ⟨_, whole, closed.cons rfl, congrArg (String.ofList token :: ·) tokens⟩

/-! ## Reading from tokens alone -/

/-- These tokens and no others are to come from a port, and no string is left open. -/
def Port.Has (p : Port) (us : List String) : Prop :=
  ∃ ts, p.Gives ts ∧ AllClosed ts ∧ tokensOf ts = us

/-- Asked again and again, a port gives these tokens and then the end of the text. -/
inductive Port.Yields : Port → List String → Prop where
  | ended {p q : Port} (h : outcome nextToken p = (.ok none, q)) : Yields p []
  | token {p q : Port} {t : String} {us : List String} (h : outcome nextToken p = (.ok (some t), q))
      (more : Yields q us) : Yields p (t :: us)

namespace Port.Has

theorem nextToken_nil (h : p.Has []) : ∃ q, outcome nextToken p = (.ok none, q) ∧ q.Has [] := by
  obtain ⟨ts, gives, _, tokens⟩ := h
  obtain rfl : ts = [] := List.map_eq_nil_iff.mp tokens
  exact ⟨_, gives.nextToken_nil, [], .ended _, .nil, rfl⟩

theorem nextToken_cons (h : p.Has (t :: us)) : ∃ q, outcome nextToken p = (.ok (some t), q) ∧ q.Has us := by
  obtain ⟨ts, gives, closed, tokens⟩ := h
  rw [← List.append_nil ts] at gives
  obtain ⟨q, ts', given, tokens', closed', more⟩ := gives.nextToken_of_tokens closed tokens
  rw [List.append_nil] at more
  exact ⟨q, given, ts', more, closed', tokens'⟩

theorem withSymbols (h : p.Has us) (table : SymbolTable) : Port.Has { p with symbols := table } us := by
  obtain ⟨ts, gives, closed, tokens⟩ := h
  exact ⟨ts, gives.withSymbols table, closed, tokens⟩

theorem length_le_unread (h : p.Has us) : us.length ≤ p.unread := by
  obtain ⟨ts, gives, _, rfl⟩ := h
  have lexemes := gives.length_le_unread
  rwa [tokensOf, List.length_map]

theorem yields (h : p.Has us) : p.Yields us := by
  induction us generalizing p with
  | nil =>
    obtain ⟨q, given, _⟩ := h.nextToken_nil
    exact .ended given
  | cons t us ih =>
    obtain ⟨q, given, more⟩ := h.nextToken_cons
    exact .token given (ih more)

end Port.Has

/-- Two computations that read some of the same tokens end alike: with the same failure, or with the same value and
the same tokens still to come. -/
inductive EndsAlike (us : List String) : Except Failure α × Port → Except Failure α × Port → Prop where
  | failed (f : Failure) {q q' : Port} : EndsAlike us (.error f, q) (.error f, q')
  | value (x : α) {q q' : Port} {used rest : List String} (split : us = used ++ rest) (has : q.Has rest)
      (has' : q'.Has rest) : EndsAlike us (.ok x, q) (.ok x, q')

namespace EndsAlike

variable {a a' : Reading α} {k k' : α → Reading β}

theorem after {o o' : Except Failure α × Port} (h : EndsAlike rest o o') (split : us = used ++ rest) :
    EndsAlike us o o' := by
  cases h with
  | failed f => exact .failed f
  | @value x _ _ used' rest' split' has has' =>
    have whole : us = (used ++ used') ++ rest' := by rw [split, split', List.append_assoc]
    exact .value x whole has has'

theorem pure (x : α) (has : p.Has us) (has' : p'.Has us) :
    EndsAlike us (outcome (Pure.pure x) p) (outcome (Pure.pure x) p') :=
  .value x (List.nil_append us).symm has has'

theorem bind (first : EndsAlike us (outcome a p) (outcome a' p'))
    (later : ∀ x q q' used rest, us = used ++ rest → q.Has rest → q'.Has rest →
      EndsAlike rest (outcome (k x) q) (outcome (k' x) q')) :
    EndsAlike us (outcome (a >>= k) p) (outcome (a' >>= k') p') := by
  rw [outcome_bind, outcome_bind]
  generalize outcome a p = o at first
  generalize outcome a' p' = o' at first
  cases first with
  | failed f => exact .failed f
  | value x split has has' => exact (later x _ _ _ _ split has has').after split

/-- The next token is the same, or the tokens are used up. -/
theorem next {k k' : Option String → Reading β} (has : p.Has us) (has' : p'.Has us)
    (ended : us = [] → ∀ q q', q.Has [] → q'.Has [] → EndsAlike [] (outcome (k none) q) (outcome (k' none) q'))
    (later : ∀ t rest q q', us = t :: rest → q.Has rest → q'.Has rest →
      EndsAlike rest (outcome (k (some t)) q) (outcome (k' (some t)) q')) :
    EndsAlike us (outcome (nextToken >>= k) p) (outcome (nextToken >>= k') p') := by
  cases us with
  | nil =>
    obtain ⟨q, given, more⟩ := has.nextToken_nil
    obtain ⟨q', given', more'⟩ := has'.nextToken_nil
    rw [outcome_bind_of_ok given, outcome_bind_of_ok given']
    exact ended rfl q q' more more'
  | cons t us =>
    obtain ⟨q, given, more⟩ := has.nextToken_cons
    obtain ⟨q', given', more'⟩ := has'.nextToken_cons
    rw [outcome_bind_of_ok given, outcome_bind_of_ok given']
    exact (later t us q q' rfl more more').after (List.singleton_append (x := t)).symm

theorem readAtom (token : String) (has : p.Has us) (has' : p'.Has us) :
    EndsAlike us (outcome (readAtom token) p) (outcome (readAtom token) p') := by
  cases made : atom token with
  | error f =>
    unfold Reader.readAtom
    rw [made]
    exact .failed f
  | ok d =>
    obtain ⟨table, read⟩ := readAtom_of_ok made p
    obtain ⟨table', read'⟩ := readAtom_of_ok made p'
    rw [read, read']
    exact .value d (List.nil_append us).symm (has.withSymbols table) (has'.withSymbols table')

theorem deeper {go go' : Nat → Reading α} (room : Nat)
    (inner : ∀ room, EndsAlike us (outcome (go room) p) (outcome (go' room) p')) :
    EndsAlike us (outcome (Reader.deeper room go) p) (outcome (Reader.deeper room go') p') := by
  cases room with
  | zero => exact .failed .tooDeep
  | succ room => exact inner room

end EndsAlike

/-- Forms and items are read alike from the same tokens. -/
theorem readings_endAlike (fuel fuel' : Nat) :
    (∀ {room token us p p'}, p.Has us → p'.Has us → 2 * us.length + 2 ≤ fuel → 2 * us.length + 2 ≤ fuel' →
      EndsAlike us (outcome (readFrom fuel room token) p) (outcome (readFrom fuel' room token) p')) ∧
    (∀ {room us p p'}, p.Has us → p'.Has us → 2 * us.length + 1 ≤ fuel → 2 * us.length + 1 ≤ fuel' →
      EndsAlike us (outcome (readItems fuel room) p) (outcome (readItems fuel' room) p')) := by
  induction fuel generalizing fuel' with
  | zero => exact ⟨fun _ _ enough _ => by omega, fun _ _ enough _ => by omega⟩
  | succ fuel ih =>
    cases fuel' with
    | zero => exact ⟨fun _ _ _ enough => by omega, fun _ _ _ enough => by omega⟩
    | succ fuel' =>
      obtain ⟨form, items⟩ := ih fuel'
      constructor
      · intro room token us p p' has has' enough enough'
        by_cases isOpen : token = "("
        · subst isOpen
          rw [outcome_readFrom_open, outcome_readFrom_open]
          refine .deeper room fun room => ?_
          refine (items has has' (by omega) (by omega)).bind fun ds q q' used rest _ has has' => ?_
          exact .pure _ has has'
        by_cases isClose : token = ")"
        · subst isClose
          exact .failed _
        cases quote : quoteKeyword? token with
        | none =>
          rw [readFrom_atomToken isOpen isClose quote, readFrom_atomToken isOpen isClose quote]
          exact .readAtom token has has'
        | some keyword =>
          rw [readFrom, readFrom, if_neg isOpen, if_neg isOpen, if_neg isClose, if_neg isClose, quote]
          refine .deeper room fun room => ?_
          refine .next has has' (fun _ _ _ _ _ => .failed _) ?_
          rintro t rest q q' rfl has has'
          rw [List.length_cons] at enough enough'
          refine (form has has' (by omega) (by omega)).bind fun d q q' used rest _ has has' => ?_
          exact .value _ (List.nil_append rest).symm (has.withSymbols _) (has'.withSymbols _)
      · intro room us p p' has has' enough enough'
        unfold readItems
        refine .next has has' (fun _ _ _ has has' => .pure _ has has') ?_
        rintro t rest q q' rfl has has'
        rw [List.length_cons] at enough enough'
        dsimp only
        by_cases isClose : t = ")"
        · rw [if_pos isClose, if_pos isClose]
          exact .pure _ has has'
        · rw [if_neg isClose, if_neg isClose]
          refine (form has has' (by omega) (by omega)).bind ?_
          rintro d r r' used rest rfl has has'
          rw [List.length_append] at enough enough'
          refine (items has has' (by omega) (by omega)).bind fun ds q q' used rest _ has has' => ?_
          exact .pure _ has has'

/-- All forms are read alike from the same tokens. -/
theorem collect_read_congr (has : p.Has us) (has' : p'.Has us) (enough : us.length < fuel)
    (enough' : us.length < fuel') : collect (read room) fuel p = collect (read room) fuel' p' := by
  induction fuel generalizing fuel' us p p' with
  | zero => omega
  | succ fuel ih =>
    cases fuel' with
    | zero => omega
    | succ fuel' =>
      cases us with
      | nil =>
        obtain ⟨q, given, _⟩ := has.nextToken_nil
        obtain ⟨q', given', _⟩ := has'.nextToken_nil
        rw [collect_none (read_end given), collect_none (read_end given')]
      | cons t us =>
        have unread := has.length_le_unread
        have unread' := has'.length_le_unread
        rw [List.length_cons] at unread unread' enough enough'
        obtain ⟨q, given, more⟩ := has.nextToken_cons
        obtain ⟨q', given', more'⟩ := has'.nextToken_cons
        have alike : EndsAlike us (outcome (readFrom (2 * p.unread + 2) room t) q)
            (outcome (readFrom (2 * p'.unread + 2) room t) q') :=
          (readings_endAlike _ _).1 more more' (by omega) (by omega)
        generalize form : outcome (readFrom (2 * p.unread + 2) room t) q = o at alike
        generalize form' : outcome (readFrom (2 * p'.unread + 2) room t) q' = o' at alike
        cases alike with
        | failed f => rw [collect_error (read_form_error given form), collect_error (read_form_error given' form')]
        | @value d r r' used rest split has has' =>
          rw [split, List.length_append] at enough enough'
          have others := ih has has' (by omega) (show rest.length < fuel' by omega)
          rw [collect_some (read_form given form), collect_some (read_form given' form'), others]

theorem forms_congr (has : p.Has us) (has' : p'.Has us) (room : Nat) : p.forms room = p'.forms room :=
  collect_read_congr has has' (Nat.lt_succ_of_le has.length_le_unread) (Nat.lt_succ_of_le has'.length_le_unread)

/-! ## Reading a layout -/

/-- A port on a layout has its tokens to give. -/
theorem IsLayout.has {first : List Char} {parts : List (List Char × List Char)} (h : IsLayout first parts)
    (symbols : SymbolTable) :
    (Port.ofText (String.ofList (layOut first parts)) symbols).Has (parts.map fun part => String.ofList part.1) := by
  obtain ⟨ts, lexed, closed, tokens⟩ := h.lexed ⟨0, 0⟩
  rw [← String.toList_ofList (l := layOut first parts)] at lexed
  exact ⟨ts, .ofText lexed symbols, closed, tokens⟩

/-- From every layout of tokens a port gives just these tokens and then the end of the text, and from every layout of
the same tokens the same forms are read, with the same error or none. -/
theorem layout_immaterial {first : List Char} {parts : List (List Char × List Char)} (h : IsLayout first parts)
    (symbols : SymbolTable) (room : Nat) :
    let port := Port.ofText (String.ofList (layOut first parts)) symbols
    port.Yields (parts.map fun part => String.ofList part.1) ∧
      ∀ other parts' symbols', IsLayout other parts' → parts'.map Prod.fst = parts.map Prod.fst →
        (Port.ofText (String.ofList (layOut other parts')) symbols').forms room = port.forms room := by
  constructor
  · exact (h.has symbols).yields
  · intro other parts' symbols' h' same
    have tokens := congrArg (List.map String.ofList) same
    simp only [List.map_map, Function.comp_def] at tokens
    have has' := h'.has symbols'
    rw [tokens] at has'
    exact forms_congr has' (h.has symbols) room

/-- Comments stand before the first token, behind an unquoted name and behind the last token, one holds parentheses
and a quote, and so does a string. -/
theorem layout_immaterial_comments :
    (Port.ofText ";(\n, @a;)\"\n\"(;\\\"\"\n' b\n;end" ⟨0, []⟩).Yields [",", "@a", "\"(;\\\"\"", "'", "b"] ∧
      (Port.ofText ", @a \"(;\\\"\" ' b" ⟨0, []⟩).forms 9 =
        (Port.ofText ";(\n, @a;)\"\n\"(;\\\"\"\n' b\n;end" ⟨0, []⟩).forms 9 := by
  have body : IsStringBody ['(', ';', '\\', '"'] :=
    .plain (by decide) (by decide) (by decide) (.plain (by decide) (by decide) (by decide) (.escaped (by decide) .nil))
  have spread : IsLayout [';', '(', '\n'] [([','], [' ']), (['@', 'a'], [';', ')', '"', '\n']),
      (['"', '(', ';', '\\', '"', '"'], ['\n']), (['\''], [' ']), (['b'], ['\n', ';', 'e', 'n', 'd'])] := by
    refine .token (@IsSeparator.comment ['('] [] (by decide) .nil) (.punctuation (by decide)) (by decide) ?_
    refine .token (.blank (by decide) .nil) (.atom (by decide) (List.all_eq_true.mp rfl)) (by decide) ?_
    refine .token (@IsSeparator.comment [')', '"'] [] (by decide) .nil) (.string body) (by decide) ?_
    refine .token (.blank (by decide) .nil) (.punctuation (by decide)) (by decide) ?_
    refine .token (.blank (by decide) .nil) (.atom (by decide) (List.all_eq_true.mp rfl)) (by decide) ?_
    exact .ended (.comment (.blank (by decide) .nil) (by decide))
  have plain : IsLayout [] [([','], [' ']), (['@', 'a'], [' ']), (['"', '(', ';', '\\', '"', '"'], [' ']),
      (['\''], [' ']), (['b'], [])] := by
    refine .token .nil (.punctuation (by decide)) (by decide) ?_
    refine .token (.blank (by decide) .nil) (.atom (by decide) (List.all_eq_true.mp rfl)) (by decide) ?_
    refine .token (.blank (by decide) .nil) (.string body) (by decide) ?_
    refine .token (.blank (by decide) .nil) (.punctuation (by decide)) (by decide) ?_
    refine .token (.blank (by decide) .nil) (.atom (by decide) (List.all_eq_true.mp rfl)) (by decide) ?_
    exact .ended (.separator .nil)
  obtain ⟨yields, others⟩ := layout_immaterial spread ⟨0, []⟩ 9
  have forms := others [] _ ⟨0, []⟩ plain rfl
  constructor
  · exact yields
  · exact forms

end SmallLisp.Reader
