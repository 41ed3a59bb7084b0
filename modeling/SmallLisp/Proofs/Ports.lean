import Mathlib.Algebra.GroupWithZero.Nat
import SmallLisp.Proofs.Outcome
import SmallLisp.Reader.Port
/-!
# One step of a port

What each reading operation does when the operations that it calls are known, and how many characters a port
still holds.
-/
namespace SmallLisp.Reader

open Run

variable {p q r s : Port} {fuel room : Nat} {line : List Char} {below : List (List Char)}
  {symbols : SymbolTable}

theorem nextToken_of_token {text rest : List Char} (h : LineStart.ofLine line = .token text rest) :
    outcome nextToken ⟨line, below, symbols⟩ =
      (.ok (some (String.ofList text)), ⟨rest, below, symbols⟩) := by
  change nextTokenFrom symbols below line = _
  unfold nextTokenFrom
  rw [h]

theorem nextToken_of_openString {text : List Char} (h : LineStart.ofLine line = .openString text) :
    outcome nextToken ⟨line, below, symbols⟩ =
      (.error (.malformed (String.ofList text) .unterminatedString), ⟨line, below, symbols⟩) := by
  change nextTokenFrom symbols below line = _
  unfold nextTokenFrom
  rw [h]

theorem nextToken_of_nothing (h : LineStart.ofLine line = .nothing) :
    outcome nextToken ⟨line, [], symbols⟩ = (.ok none, ⟨[], [], symbols⟩) := by
  change nextTokenFrom symbols [] line = _
  unfold nextTokenFrom
  rw [h]

theorem nextToken_below {next : List Char} (h : LineStart.ofLine line = .nothing) :
    outcome nextToken ⟨line, next :: below, symbols⟩ = outcome nextToken ⟨next, below, symbols⟩ := by
  change nextTokenFrom symbols (next :: below) line = nextTokenFrom symbols below next
  conv =>
    lhs
    unfold nextTokenFrom
  rw [h]

theorem readItems_close (last : outcome nextToken p = (.ok (some ")"), q)) :
    outcome (readItems (fuel + 1) room) p = (.ok [], q) := by
  unfold readItems
  rw [outcome_bind_of_ok last]
  rfl

theorem readItems_item {token : String} {d : Datum} {ds : List Datum}
    (first : outcome nextToken p = (.ok (some token), q)) (notClose : token ≠ ")")
    (item : outcome (readFrom fuel room token) q = (.ok d, r))
    (more : outcome (readItems fuel room) r = (.ok ds, s)) :
    outcome (readItems (fuel + 1) room) p = (.ok (d :: ds), s) := by
  unfold readItems
  rw [outcome_bind_of_ok first]
  dsimp only
  rw [if_neg notClose, outcome_bind_of_ok item, outcome_bind_of_ok more]
  rfl

theorem readFrom_open {ds : List Datum} (inside : outcome (readItems fuel room) p = (.ok ds, q)) :
    outcome (readFrom (fuel + 1) (room + 1) "(") p = (.ok (.list ds), q) := by
  unfold readFrom
  rw [if_pos rfl]
  change outcome (readItems fuel room >>= fun ds => (pure (Datum.list ds) : Reading Datum)) p = _
  rw [outcome_bind_of_ok inside]
  rfl

theorem read_form {token : String} {d : Datum} (first : outcome nextToken p = (.ok (some token), q))
    (form : outcome (readFrom (2 * p.unread + 2) room token) q = (.ok d, r)) :
    outcome (read room) p = (.ok (some d), r) := by
  unfold read
  rw [outcome_bind_of_ok (outcome_get p), outcome_bind_of_ok first]
  dsimp only
  rw [outcome_bind_of_ok form]
  rfl

theorem read_form_error {token : String} {f : Failure}
    (first : outcome nextToken p = (.ok (some token), q))
    (form : outcome (readFrom (2 * p.unread + 2) room token) q = (.error f, r)) :
    outcome (read room) p = (.error f, r) := by
  unfold read
  rw [outcome_bind_of_ok (outcome_get p), outcome_bind_of_ok first]
  exact outcome_bind_of_error form _

theorem read_error {f : Failure} (stopped : outcome nextToken p = (.error f, q)) :
    outcome (read room) p = (.error f, q) := by
  unfold read
  rw [outcome_bind_of_ok (outcome_get p)]
  exact outcome_bind_of_error stopped _

theorem read_end (last : outcome nextToken p = (.ok none, q)) :
    outcome (read room) p = (.ok none, q) := by
  unfold read
  rw [outcome_bind_of_ok (outcome_get p), outcome_bind_of_ok last]
  rfl

theorem collect_some {α : Type} {step : Reading (Option α)} {a : α}
    (h : outcome step p = (.ok (some a), q)) :
    collect step (fuel + 1) p = (a :: (collect step fuel q).1, (collect step fuel q).2) := by
  unfold outcome at h
  rw [collect, h]

theorem collect_none {α : Type} {step : Reading (Option α)} (h : outcome step p = (.ok none, q)) :
    collect step (fuel + 1) p = ([], none) := by
  unfold outcome at h
  rw [collect, h]

theorem collect_error {α : Type} {step : Reading (Option α)} {f : Failure}
    (h : outcome step p = (.error f, q)) : collect step (fuel + 1) p = ([], some f) := by
  unfold outcome at h
  rw [collect, h]

theorem unread_eq (p : Port) :
    p.unread = p.line.length + (p.below.map fun l => l.length + 1).sum := by
  obtain ⟨line, below, symbols⟩ := p
  unfold Port.unread
  dsimp only
  generalize line.length = n
  induction below generalizing n with
  | nil => rfl
  | cons l below ih =>
    rw [List.foldl_cons, ih, List.map_cons, List.sum_cons]
    omega

theorem length_below_le_unread (p : Port) : p.below.length ≤ p.unread := by
  rw [unread_eq]
  induction p.below with
  | nil => exact Nat.zero_le _
  | cons l below ih =>
    rw [List.map_cons, List.sum_cons, List.length_cons]
    omega

/-- A computation that goes deeper has room to do so. -/
theorem outcome_deeper_ok {α : Type} {go : Nat → Reading α} {a : α}
    (h : outcome (deeper room go) p = (.ok a, q)) :
    ∃ less, room = less + 1 ∧ outcome (go less) p = (.ok a, q) := by
  cases room with
  | zero => cases h
  | succ less => exact ⟨less, rfl, h⟩

theorem readAtom_ok {token : String} {d : Datum} (h : outcome (readAtom token) p = (.ok d, q)) :
    atom token = .ok d := by
  unfold readAtom at h
  cases made : atom token with
  | error f =>
    rw [made] at h
    cases h
  | ok e =>
    rw [made] at h
    cases e with
    | symbol name =>
      cases h
      rfl
    | _ =>
      cases h
      rfl

end SmallLisp.Reader
