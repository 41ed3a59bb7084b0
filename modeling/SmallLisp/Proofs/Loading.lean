import SmallLisp.Session
import SmallLisp.Proofs.LaterLines
/-!
# Texts evaluated one after another

A session reads the forms of a text one at a time, and each is done before the next is read. So a text that
is complete can be evaluated apart from what follows it: what follows is read with the table, and evaluated
in the state, that the first text leaves.
-/
namespace SmallLisp.Session

open Run Reader Editor

variable {α : Type} {engine : Engine} {step : α → Value → Act α} {p : Port} {ts : List Lexeme}

/-- The forms of a port are folded as the reader gives them: each is read with the session's table, and what
it enters there stays. -/
theorem outcome_foldPort_succ (fuel : Nat) (p : Port) (a : α) (s : Session) :
    outcome (foldPort engine step (fuel + 1) p a) s =
      match outcome (read engine.nesting) (p.onto [] s.symbols) with
      | (.error f, q) => (.error (.failed f), { s with symbols := q.symbols })
      | (.ok none, q) => (.ok a, { s with symbols := q.symbols })
      | (.ok (some d), q) =>
        outcome (instantiate d >>= fun form => step a form >>= foldPort engine step fuel q)
          { s with symbols := q.symbols } := by
  unfold foldPort readForm Port.onto
  rw [List.append_nil, bind_assoc, outcome_bind_of_ok (outcome_get s)]
  unfold outcome
  rcases read engine.nesting ⟨p.line, p.below, s.symbols⟩ with ⟨f | _ | d, q⟩
  · rfl
  · rfl
  · simp only [bind_assoc, pure_bind]
    rfl

/-- Fuel beyond the number of lexemes is never used. -/
theorem foldPort_fuel {fuel fuel' : Nat} (gives : p.Gives ts) (enough : ts.length < fuel)
    (enough' : ts.length < fuel') :
    foldPort engine step fuel p = foldPort engine step fuel' p := by
  induction fuel generalizing fuel' p ts with
  | zero => omega
  | succ fuel ih =>
    obtain ⟨fuel', rfl⟩ : ∃ n, fuel' = n + 1 := ⟨fuel' - 1, by omega⟩
    refine funext fun a => Run.ext fun s => ?_
    rw [outcome_foldPort_succ, outcome_foldPort_succ]
    rcases given : outcome (read engine.nesting) (p.onto [] s.symbols) with ⟨f | _ | d, q⟩
    · rfl
    · rfl
    · obtain ⟨t, used, rest, rfl, _, after, _⟩ := read_of_ok (gives.onto_nil s.symbols) given
      rw [List.length_cons, List.length_append] at enough enough'
      dsimp only
      rw [ih after (by omega) (by omega : rest.length < fuel')]

theorem onto_onto_nil (p : Port) (more : List (List Char)) (table table' : SymbolTable) :
    (p.onto more table).onto [] table' = p.onto more table' := by
  unfold Port.onto
  rw [List.append_nil]

/-- The forms of a port are folded before those of the lines below it. -/
theorem foldPort_onto {n : Nat} (out : ReadsOut engine.nesting n p) {more : List (List Char)}
    (gives : ∀ table, Port.Gives ⟨[], more, table⟩ ts) {whole fuel fuel' : Nat}
    (enough : n + ts.length < whole) (enoughFirst : n < fuel) (enoughRest : ts.length < fuel')
    (table table' table'' : SymbolTable) (a : α) :
    foldPort engine step whole (p.onto more table) a =
      foldPort engine step fuel (p.onto [] table') a >>=
        foldPort engine step fuel' ⟨[], more, table''⟩ := by
  induction out generalizing whole fuel table table' a with
  | @done p q last =>
    obtain ⟨fuel, rfl⟩ : ∃ n, fuel = n + 1 := ⟨fuel - 1, by omega⟩
    rw [foldPort_fuel (gives table'') enoughRest (by omega : ts.length < whole)]
    obtain ⟨whole, rfl⟩ : ∃ n, whole = n + 1 := ⟨whole - 1, by omega⟩
    refine Run.ext fun s => ?_
    have ended : outcome (foldPort engine step (fuel + 1) (p.onto [] table') a) s = (.ok a, s) := by
      rw [outcome_foldPort_succ, onto_onto_nil, read_end (nextToken_onto last [] s.symbols)]
    have below : outcome (read engine.nesting) ⟨[], more, s.symbols⟩ =
        outcome (read engine.nesting) (p.onto more s.symbols) :=
      read_congr (nextToken_onto last more s.symbols).symm
    have start : Port.onto ⟨[], more, table''⟩ [] s.symbols = ⟨[], more, s.symbols⟩ := by
      rw [Port.onto, List.append_nil]
    rw [outcome_bind_of_ok ended, outcome_foldPort_succ, outcome_foldPort_succ, onto_onto_nil, start,
      below]
  | @form n p q d first rest ih =>
    obtain ⟨fuel, rfl⟩ : ∃ n, fuel = n + 1 := ⟨fuel - 1, by omega⟩
    obtain ⟨whole, rfl⟩ : ∃ n, whole = n + 1 := ⟨whole - 1, by omega⟩
    refine Run.ext fun s => ?_
    obtain ⟨entered, reads⟩ := first s.symbols
    have later : foldPort engine step whole (q.onto more entered) = fun a =>
        foldPort engine step fuel (q.onto [] entered) a >>=
          foldPort engine step fuel' ⟨[], more, table''⟩ :=
      funext fun a => ih (by omega) (by omega) entered entered a
    rw [outcome_bind, outcome_foldPort_succ, outcome_foldPort_succ, onto_onto_nil, onto_onto_nil,
      reads 0 more (Nat.zero_le _), reads 0 [] (Nat.zero_le _)]
    dsimp only
    rw [← outcome_bind, later]
    simp only [bind_assoc]
    rfl

/-- The table that a port comes with is never used. -/
theorem foldForms_eq (step : α → Value → Act α) (a : α) (code : String) (table : SymbolTable) :
    foldForms engine step a code =
      foldPort engine step ((Port.ofText code table).unread + 1) (Port.ofText code table) a :=
  Run.ext fun s => outcome_bind_of_ok (outcome_get s) _

/-- A complete text is done before what follows it on later lines. -/
theorem foldForms_append (step : α → Value → Act α) (a : α) (first second : String)
    {table : SymbolTable} (accepted : ((Port.ofText first table).forms engine.nesting).2 = none)
    (closed : (Index.ofText first).unclosed = []) :
    foldForms engine step a (first ++ "\n" ++ second) =
      foldForms engine step a first >>= fun a => foldForms engine step a second := by
  have givesFirst := Port.Gives.ofText (lexed_scan first.toList) table
  have lexemesFirst := givesFirst.length_le_unread
  obtain ⟨allClosed, out⟩ := readsOut_of_collect givesFirst (Nat.lt_succ_of_le lexemesFirst) accepted
  obtain ⟨n, le, out⟩ := out (by rw [← (index_levels allClosed).1, closed]; rfl)
  have gives (table : SymbolTable) := Port.Gives.ofText (lexed_scan second.toList) table
  have lexemes := (gives table).length_le_unread
  have lines : Text.lines (first ++ "\n" ++ second).toList =
      Text.lines first.toList ++ Text.lines second.toList := by
    have line : (first ++ "\n").toList = first.toList ++ ['\n'] := String.toList_append
    rw [String.toList_append, line, List.append_assoc, List.singleton_append]
    exact Text.splitAt_append_cons '\n' _ _
  have whole : Port.ofText (first ++ "\n" ++ second) table =
      (Port.ofText first table).onto (Text.lines second.toList) table := by
    rw [Port.ofText, lines]
    rfl
  have start : (Port.ofText first table).onto [] table = Port.ofText first table := by
    rw [Port.onto, List.append_nil]
    rfl
  have unread : (Port.ofText (first ++ "\n" ++ second) table).unread =
      (Port.ofText first table).unread + (Port.ofText second table).unread := by
    rw [whole, unread_onto]
    rfl
  have enough : n + (scan second.toList).length <
      (Port.ofText (first ++ "\n" ++ second) table).unread + 1 := by
    omega
  have enoughFirst : n < (Port.ofText first table).unread + 1 := by omega
  calc foldForms engine step a (first ++ "\n" ++ second)
      = foldPort engine step ((Port.ofText (first ++ "\n" ++ second) table).unread + 1)
          ((Port.ofText first table).onto (Text.lines second.toList) table) a := by
        rw [foldForms_eq step a _ table, whole]
    _ = foldPort engine step ((Port.ofText first table).unread + 1)
          ((Port.ofText first table).onto [] table) a >>=
        foldPort engine step ((Port.ofText second table).unread + 1) (Port.ofText second table) :=
        foldPort_onto out gives enough enoughFirst (Nat.lt_succ_of_le lexemes) table table table a
    _ = foldForms engine step a first >>= fun a => foldForms engine step a second := by
        simp only [start, foldForms_eq step _ _ table]

/-- The value of the last form, where there is one. -/
theorem foldForms_value (effect : Value → Act α) (a b : α) (code : String) (s : Session) :
    outcome (foldForms engine (fun _ => effect) a code) s =
      match outcome (foldForms engine (fun _ => effect) b code) s with
      | (.ok x, t) =>
        (.ok (if ((Port.ofText code s.symbols).forms engine.nesting).1.isEmpty then a else x), t)
      | (.error halt, t) => (.error halt, t) := by
  rw [foldForms_eq _ a code s.symbols, foldForms_eq _ b code s.symbols, Port.forms,
    outcome_foldPort_succ, outcome_foldPort_succ]
  have start : (Port.ofText code s.symbols).onto [] s.symbols = Port.ofText code s.symbols := by
    rw [Port.onto, List.append_nil]
    rfl
  rw [start]
  rcases given : outcome (read engine.nesting) (Port.ofText code s.symbols) with ⟨f | _ | d, q⟩
  · rfl
  · rw [collect_none given]
    rfl
  · rw [collect_some given]
    dsimp only
    rcases outcome (instantiate d >>= fun form => effect form >>= foldPort engine (fun _ => effect) _ q)
      { s with symbols := q.symbols } with ⟨halt | x, t⟩ <;> rfl

/-- A complete text and another after it, from any state: where the first fails, this is all that happens;
otherwise the second is evaluated in the state that the first leaves, and the value is that of the
second, or that of the first when there is no form in the second. -/
theorem eval_append (s : Session) (first second : String) {table : SymbolTable}
    (accepted : ((Port.ofText first table).forms engine.nesting).2 = none)
    (closed : (Index.ofText first).unclosed = []) :
    outcome (eval engine (first ++ "\n" ++ second)) s =
      match outcome (eval engine first) s with
      | (.error halt, s₁) => (.error halt, s₁)
      | (.ok v, s₁) =>
        match outcome (eval engine second) s₁ with
        | (.error halt, s₂) => (.error halt, s₂)
        | (.ok w, s₂) =>
          (.ok (if ((Port.ofText second s₁.symbols).forms engine.nesting).1.isEmpty then v else w), s₂)
    := by
  unfold eval
  rw [foldForms_append _ _ first second accepted closed, outcome_bind]
  rcases outcome (foldForms engine _ Value.unspecified first) s with ⟨halt | v, s₁⟩
  · rfl
  · dsimp only
    rw [foldForms_value _ v .unspecified second s₁]
    rcases outcome (foldForms engine _ Value.unspecified second) s₁ with ⟨halt | w, s₂⟩ <;> rfl

/-- A text that ends with a comment, and a second one without a form. -/
theorem eval_append_comments :
    let engine : Engine := (⟨9, 9⟩ : Limits)
    let first := "(define x 1) x ; (one"
    let second := "; (more"
    ((Port.ofText first ⟨0, []⟩).forms engine.nesting).2 = none ∧ (Index.ofText first).unclosed = [] ∧
      (match (outcome (eval engine (first ++ "\n" ++ second)) (.fresh 0 .zeros)).1 with
        | .ok (.int n) => n == 1
        | _ => false) = true := by
  intro engine first second
  have accepted : ((Port.ofText first ⟨0, []⟩).forms engine.nesting).2 = none := by decide +kernel
  have closed : (Index.ofText first).unclosed = [] := by decide +kernel
  refine ⟨accepted, closed, ?_⟩
  rw [eval_append (.fresh 0 .zeros) first second accepted closed]
  decide +kernel

end SmallLisp.Session
