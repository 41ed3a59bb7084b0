import Mathlib.Data.Finset.Lattice.Fold
import Mathlib.Order.Lattice.Nat
import SmallLisp.Proofs.CallDepth
/-!
# Tail calls take no depth

The evaluator is a loop. A turn of it either finishes or hands over another form in some frame, and the loop goes
on with that in the same activation. So a chain of turns, however long, takes as much depth as the turn of it that
takes most.
-/
namespace SmallLisp

open Run

variable {m n : Machine} {frame : FrameId} {depth : Nat}

/-! ## Turns of the loop -/

/-- One turn of the loop of an evaluation. `nested` evaluates the parts of the form, and `enter` goes on with a
procedure and its arguments. -/
def Form.turn (nested : Value → Run Value) (enter : Value → List Value → Run Next) (room : Nat) (frame : FrameId)
    (form : Value) : Run Next :=
  match form with
  | .symbol _ => do return .done (← lookup room frame form)
  | .list _ [] => fail (.type .emptyApplication)
  | .list _ (head :: rest) =>
    match CoreKeyword.ofHead? head with
    | some k => Form.step nested room frame k rest
    | none => do
      match ← Form.operands nested (head :: rest) with
      | .escaped v => return .done v
      | .values (procedure :: args) => enter procedure args
      | .values [] => fail (.type .emptyApplication)
  | v => return .done v

namespace Calls

/-- A closure hands its body over, in a frame of the arguments; any other procedure is applied. -/
def enter (c : Calls) (room : Nat) (caller : FrameId) (procedure : Value) (args : List Value) : Run Next :=
  match procedure with
  | .closure _ parameters body home => do
    let inside ← newFrame room parameters args (some home)
    return .tail body inside
  | _ => do return .done (← c.apply room procedure args caller)

def turn (inner outer : Calls) (room : Nat) (form : Value) (frame : FrameId) : Run Next :=
  Form.turn (fun e => deeper room fun room => inner.evaluate room e frame) (outer.enter room frame) room frame form

theorem enter_continued (c : Calls) (room : Nat) (caller : FrameId) (procedure : Value) (args : List Value) :
    c.callInPlace room caller procedure args = c.enter room caller procedure args >>= c.continued room := by
  cases procedure with
  | closure i parameters body home =>
    simp only [callInPlace, enter, bind_assoc, pure_bind]
    rfl
  | _ => exact (bind_pure _).symm.trans (by simp only [enter, bind_assoc, pure_bind]; rfl)

/-- An evaluation is a turn of the loop, and then what the turn handed over. -/
theorem turn_continued (inner outer : Calls) (room : Nat) (form : Value) (frame : FrameId) :
    (inner.nextWith outer).evaluate room form frame =
      inner.turn outer room form frame >>= outer.continued room := by
  cases form with
  | symbol name =>
    change lookup room frame _ = (lookup room frame _ >>= fun v => pure (.done v)) >>= outer.continued room
    simp only [bind_assoc, pure_bind]
    exact (bind_pure _).symm
  | list i items =>
    cases items with
    | nil => rfl
    | cons head rest =>
      unfold nextWith turn Form.evaluateBy Form.turn
      cases keyword : CoreKeyword.ofHead? head with
      | some k =>
        simp only [keyword]
        congr 1
      | none =>
        simp only [keyword, bind_assoc]
        refine congrArg (Bind.bind _) (funext fun vs => ?_)
        rcases vs with (_ | ⟨procedure, args⟩) | v
        · rfl
        · exact outer.enter_continued room frame procedure args
        · rfl
  | _ => rfl

namespace Approximates

variable {s : Slack} {c c' inner inner' outer outer' : Calls} {room room' : Nat}

theorem enter (h : Approximates s c c') (hroom : s.Fits room room') (caller : FrameId) (procedure : Value)
    (args : List Value) :
    Run.Approximates s.Early (c.enter room caller procedure args) (c'.enter room' caller procedure args) := by
  unfold Calls.enter
  split
  · exact .bind (newFrame_approximates hroom _ _ _) fun _ => .refl _
  · exact .bind (h.apply hroom _ _ _) fun _ => .refl _

theorem turn (hi : Approximates s inner inner') (ho : Approximates s outer outer') (hroom : s.Fits room room')
    (form : Value) (frame : FrameId) :
    Run.Approximates s.Early (inner.turn outer room form frame) (inner'.turn outer' room' form frame) := by
  have nested (e : Value) : Run.Approximates s.Early (deeper room fun room => inner.evaluate room e frame)
      (deeper room' fun room => inner'.evaluate room e frame) :=
    .deeper hroom fun _ _ hr => hi.evaluate hr e frame
  unfold Calls.turn Form.turn
  split
  · exact .bind (lookup_approximates hroom frame _) fun _ => .refl _
  · exact .refl _
  · split
    · exact Form.step_approximates nested hroom frame _ _
    · refine .bind (Form.operands_approximates nested _) fun vs => ?_
      split
      · exact .refl _
      · exact ho.enter hroom frame _ _
      · exact .refl _
  · exact .refl _

end Approximates

end Calls

/-- A turn without a bound on the depth. -/
def turn (form : Value) (frame : FrameId) : Limited Next :=
  fun fuel room => (calls fuel).turn (calls fuel) room form frame

/-- A turn whose activations have some depth. -/
def turnWithin (depth : Nat) (form : Value) (frame : FrameId) : Limited Next :=
  fun fuel room => (Calls.inside (callsWithin fuel) depth).turn (callsWithin fuel depth) room form frame

/-- How an evaluation goes on after a turn. -/
def goOn (depth : Nat) (next : Next) : Limited Value :=
  fun fuel room => (callsWithin fuel depth).continued room next

theorem improving_turn (form : Value) (frame : FrameId) : Improving (turn form frame) :=
  fun hf hr => (calls_approximates (s := .more 0) hf).turn (calls_approximates hf) hr form frame

theorem turnWithin_approximates {fuel fuel' room room' depth depth' : Nat} (hf : fuel ≤ fuel') (hr : room ≤ room')
    (hd : depth ≤ depth') (form : Value) (frame : FrameId) :
    Approximates Halt.IsEarly (turnWithin depth form frame fuel room) (turnWithin depth' form frame fuel' room') :=
  (Calls.Approximates.inside (fun hd => callsWithin_approximates hf hd) hd).turn (callsWithin_approximates hf hd)
    hr form frame

theorem improving_turnWithin (depth : Nat) (form : Value) (frame : FrameId) : Improving (turnWithin depth form frame) :=
  fun hf hr => turnWithin_approximates hf hr (Nat.le_refl depth) form frame

theorem improving_goOn (depth : Nat) (next : Next) : Improving (goOn depth next) := by
  cases next with
  | done v => exact Improving.plain (pure v)
  | tail form frame => exact improving_evaluateWithin depth form frame

/-- What a turn comes to it comes to within some depth. -/
theorem settles_turn_iff_within {form : Value} {o : Outcome Next} :
    Settles (turn form frame) m o ↔ ∃ depth, Settles (turnWithin depth form frame) m o := by
  constructor
  · rintro ⟨fuel, room, ends, conclusive⟩
    have here := calls_approximates_callsWithin (Nat.le_succ fuel)
    have inner := Calls.Approximates.inside_right (calls_approximates_callsWithin (Nat.le_refl fuel)) here
    have approximates := inner.turn here (Nat.le_refl room) form frame
    exact ⟨fuel + 1, fuel, room, approximates.outcome_eq ends conclusive, conclusive⟩
  · rintro ⟨depth, settles⟩
    have unbounded (fuel : Nat) := callsWithin_approximates_calls fuel
    refine settles.of_approximates fun fuel room => ⟨fuel, room, ?_⟩
    exact (Calls.Approximates.inside_left (unbounded fuel)).turn (unbounded fuel depth) (Nat.le_refl room) form frame

/-- The loop goes on in the activation that it is in. -/
theorem settles_evaluateWithin_iff {form : Value} {o : Outcome Value} :
    Settles (evaluateWithin depth form frame) m o ↔
      Settles (fun fuel room => turnWithin depth form frame fuel room >>= fun next => goOn depth next fuel room) m o := by
  rw [← Settles.succ_iff (improving_evaluateWithin depth form frame)]
  refine Settles.congr_at fun fuel room => congrArg (outcome · m) ?_
  exact (Calls.inside (callsWithin fuel) depth).turn_continued (callsWithin fuel depth) room form frame

/-- What a turn hands over is evaluated within the same depth. -/
theorem settles_evaluateWithin_tail_iff {form form' : Value} {frame' : FrameId} {o : Outcome Value}
    (hands : Settles (turnWithin depth form frame) m (.ok (.tail form' frame'), n)) :
    Settles (evaluateWithin depth form frame) m o ↔ Settles (evaluateWithin depth form' frame') n o :=
  settles_evaluateWithin_iff.trans
    (Settles.bind_iff (improving_turnWithin depth form frame) (improving_goOn depth _) hands)

/-! ## Forms in tail position -/

/-- A part of a form, evaluated in an activation of its own. -/
def partWithin (depth : Nat) (e : Value) (frame : FrameId) : Limited Value :=
  fun fuel room => deeper room fun room => (Calls.inside (callsWithin fuel) depth).evaluate room e frame

/-- Several parts, one after another. -/
def partsWithin (depth : Nat) (es : List Value) (frame : FrameId) : Limited Operands :=
  fun fuel room => Form.operands (fun e => partWithin depth e frame fuel room) es

theorem improving_partWithin (depth : Nat) (e : Value) (frame : FrameId) : Improving (partWithin depth e frame) :=
  fun hf hr => .deeper (s := .more 0) hr fun _ _ h =>
    (Calls.Approximates.inside (fun hd => callsWithin_approximates hf hd) (Nat.le_refl depth)).evaluate h e frame

theorem improving_partsWithin (depth : Nat) (es : List Value) (frame : FrameId) :
    Improving (partsWithin depth es frame) :=
  fun hf hr => Form.operands_approximates (s := .more 0) (fun e => improving_partWithin depth e frame hf hr) es

/-- A part takes one level. -/
theorem settles_partWithin_iff {e : Value} {o : Outcome Value} :
    Settles (partWithin depth e frame) m o ↔ ∃ d, depth = d + 1 ∧ Settles (evaluateWithin d e frame) m o := by
  constructor
  · intro settles
    cases depth with
    | zero =>
      obtain ⟨fuel, room, rfl, conclusive⟩ := settles
      refine absurd ⟨.failed .tooDeep, m, ?_, trivial⟩ conclusive
      cases room <;> rfl
    | succ d => exact ⟨d, rfl, (settles_deeper_iff (improving_evaluateWithin d e frame)).mp settles⟩
  · rintro ⟨d, rfl, settles⟩
    exact (settles_deeper_iff (improving_evaluateWithin d e frame)).mpr settles

section Forms

variable {l : Machine} {i : Nat} {t c e head : Value} {es rest : List Value}

theorem turnWithin_test (fuel room : Nat) :
    turnWithin depth (.list i [.symbol "if", t, c, e]) frame fuel room =
      partWithin depth t frame fuel room >>= fun v =>
        pure (if v.isEscape then .done v else .tail (if v.isFalse then e else c) frame) := by
  refine congrArg (Bind.bind _) (funext fun v => ?_)
  cases v.isEscape <;> cases v.isFalse <;> rfl

theorem turn_test {v : Value} (test : Settles (partWithin depth t frame) m (.ok v, n)) (here : v.isEscape = false) :
    Settles (turnWithin depth (.list i [.symbol "if", t, c, e]) frame) m
      (.ok (.tail (if v.isFalse then e else c) frame), n) := by
  refine (Settles.congr_at fun fuel room => congrArg (outcome · m) (turnWithin_test fuel room)).mpr ?_
  refine (Settles.bind_iff (improving_partWithin depth t frame) (Improving.plain _) test).mpr ?_
  rw [here]
  exact settles_pure_iff.mpr rfl

/-- All forms of a sequence but the last are evaluated as operands are. -/
theorem Form.sequence_append (nested : Value → Run Value) (es : List Value) (last : Value) :
    Form.sequence nested frame (es ++ [last]) = Form.operands nested es >>= fun
      | .values _ => pure (.tail last frame)
      | .escaped v => pure (.done v) := by
  induction es with
  | nil => rfl
  | cons e es ih =>
    have unfolded : Form.sequence nested frame (e :: es ++ [last]) = nested e >>= fun v =>
        if v.isEscape then pure (.done v) else Form.sequence nested frame (es ++ [last]) := by
      cases es <;> rfl
    rw [unfolded, Form.operands, bind_assoc]
    refine congrArg (Bind.bind _) (funext fun v => ?_)
    cases v.isEscape with
    | true => rfl
    | false =>
      simp only [Bool.false_eq_true, if_false, ih, bind_assoc]
      refine congrArg (Bind.bind _) (funext fun vs => ?_)
      cases vs <;> rfl

theorem turnWithin_sequence (last : Value) (fuel room : Nat) :
    turnWithin depth (.list i (.symbol "begin" :: (es ++ [last]))) frame fuel room =
      partsWithin depth es frame fuel room >>= fun
        | .values _ => pure (.tail last frame)
        | .escaped v => pure (.done v) :=
  Form.sequence_append _ es last

theorem turn_sequence {vs : List Value} {last : Value}
    (effects : Settles (partsWithin depth es frame) m (.ok (.values vs), n)) :
    Settles (turnWithin depth (.list i (.symbol "begin" :: (es ++ [last]))) frame) m (.ok (.tail last frame), n) := by
  refine (Settles.congr_at fun fuel room => congrArg (outcome · m) (turnWithin_sequence last fuel room)).mpr ?_
  refine (Settles.bind_iff (improving_partsWithin depth es frame) (Improving.plain _) effects).mpr ?_
  exact settles_pure_iff.mpr rfl

theorem turnWithin_application (noKeyword : CoreKeyword.ofHead? head = none) (fuel room : Nat) :
    turnWithin depth (.list i (head :: rest)) frame fuel room =
      partsWithin depth (head :: rest) frame fuel room >>= fun
        | .escaped v => return .done v
        | .values (procedure :: args) => (callsWithin fuel depth).enter room frame procedure args
        | .values [] => fail (.type .emptyApplication) := by
  unfold turnWithin Calls.turn Form.turn
  simp only [noKeyword]
  rfl

theorem turn_application {parameters body : Value} {args : List Value} {j : Nat} {home inside : FrameId}
    (noKeyword : CoreKeyword.ofHead? head = none)
    (operands : Settles (partsWithin depth (head :: rest) frame) m
      (.ok (.values (.closure j parameters body home :: args)), n))
    (bound : Settles (fun _ room => newFrame room parameters args (some home)) n (.ok inside, l)) :
    Settles (turnWithin depth (.list i (head :: rest)) frame) m (.ok (.tail body inside), l) := by
  have enters : Improving fun _ room => newFrame room parameters args (some home) :=
    fun _ hr => newFrame_approximates (s := .more 0) hr _ _ _
  have hands : Improving fun _ room => newFrame room parameters args (some home) >>= fun inside =>
      (pure (.tail body inside) : Run Next) := enters.andThen _
  refine (Settles.congr_at fun fuel room =>
    congrArg (outcome · m) (turnWithin_application noKeyword fuel room)).mpr ?_
  refine (Settles.bind_iff (improving_partsWithin depth _ frame) hands operands).mpr ?_
  exact (Settles.bind_iff enters (Improving.plain _) bound).mpr (settles_pure_iff.mpr rfl)

/-- A closure that is made where it is called is called like any other. -/
theorem partsWithin_lambda {parameters body : Value} {args : List Value} {j : Nat}
    (operands : Settles (partsWithin (depth + 1) es frame) (m.made 1) (.ok (.values args), n)) :
    Settles (partsWithin (depth + 1) (.list j [.symbol "lambda", parameters, body] :: es) frame) m
      (.ok (.values (.closure m.nextObject parameters body frame :: args)), n) := by
  obtain ⟨fuel, room, ends⟩ := operands.eventually (improving_partsWithin (depth + 1) es frame)
  have closure : outcome (partWithin (depth + 1) (.list j [.symbol "lambda", parameters, body]) frame (fuel + 1)
      (room + 1)) m = (.ok (.closure m.nextObject parameters body frame), m.made 1) := rfl
  exact ⟨fuel + 1, room + 1, Form.outcome_operands_cons closure rfl
    (ends (fuel + 1) (room + 1) (Nat.le_succ fuel) (Nat.le_succ room)), not_stopped_ok⟩

/-- An evaluation that settles has settled the parts that its turn begins with. -/
theorem settles_parts_of_turn {α : Type} {form : Value} {a : Limited α} {k : (fuel room : Nat) → α → Run Next}
    {o : Outcome Value} (turns : ∀ fuel room, turnWithin depth form frame fuel room = a fuel room >>= k fuel room)
    (h : Settles (evaluateWithin depth form frame) m o) : ∃ o, Settles a m o := by
  obtain ⟨_, turn⟩ := (settles_evaluateWithin_iff.mp h).first
  exact ((Settles.congr_at fun fuel room => congrArg (outcome · m) (turns fuel room)).mp turn).first

end Forms

/-! ## The core forms of `let` -/

theorem Form.expandLet_ends {room : Nat} {operands : List Value} {e : Value}
    (h : (Form.expandLet room operands).Ends m e n) : ∃ i j names first more es,
      e = .list i (.list j (.symbol "lambda" :: names :: first :: more) :: es) := by
  unfold Form.expandLet at h
  dsimp only at h
  split at h
  · split at h
    · obtain ⟨names, _, _, h⟩ := outcome_bind_ok.mp h
      obtain ⟨closure, _, made, h⟩ := outcome_bind_ok.mp h
      obtain ⟨rfl, _⟩ := ends_newList.mp made
      obtain ⟨rfl, _⟩ := ends_newList.mp h
      exact ⟨_, _, names, _, _, _, rfl⟩
    · exact absurd h not_ends_refuse
  · exact absurd h not_ends_refuse

theorem expand_lambda_ends {fuel room j : Nat} {toplevel : Bool} {names first core : Value} {more : List Value}
    (h : (expand fuel room (.list j (.symbol "lambda" :: names :: first :: more)) toplevel).Ends m core n) :
    ∃ k body, core = .list k [.symbol "lambda", names, body] := by
  cases fuel with
  | zero => cases h
  | succ fuel =>
    obtain ⟨_, h⟩ := ends_require.mp h
    obtain ⟨_, _, _, h⟩ := outcome_bind_ok.mp h
    obtain ⟨body, l, _, h⟩ := outcome_bind_ok.mp h
    obtain ⟨rfl, _⟩ := ends_newList.mp h
    exact ⟨l.nextObject, body, rfl⟩

/-- Whatever a use of `let` is expanded to applies a closure where it is made. -/
theorem expand_let_ends {fuel room i : Nat} {toplevel : Bool} {parts : List Value} {core : Value}
    (found : m.transformerOf? (.symbol "let") = some (.primitive .expandLet))
    (h : (expand fuel room (.list i (.symbol "let" :: parts)) toplevel).Ends m core n) :
    ∃ j k names body es, core = .list j (.list k [.symbol "lambda", names, body] :: es) := by
  cases fuel with
  | zero => cases h
  | succ fuel =>
    obtain ⟨e, l, applied, expanded⟩ := (expand_succ_ends.mp h).of_use rfl found
    obtain ⟨room, rfl, applied⟩ := ends_deeper.mp applied
    cases fuel with
    | zero => cases applied
    | succ fuel =>
      obtain ⟨i, j, names, first, more, es, rfl⟩ := Form.expandLet_ends applied
      obtain ⟨room, _, expanded⟩ := ends_deeper.mp expanded
      have expands : (calls (fuel + 1)).expand = expand (fuel + 1) := rfl
      rw [expands] at expanded
      cases expand_succ_ends.mp expanded with
      | atom notList => exact absurd rfl (notList _ _)
      | use _ found => cases found
      | application _ _ run =>
        obtain ⟨closure, _, cs, head, _, rfl⟩ := ends_mapM_cons.mp run
        obtain ⟨room, _, head⟩ := ends_deeper.mp head
        obtain ⟨k, body, rfl⟩ := expand_lambda_ends head
        exact ⟨_, k, names, body, cs, rfl⟩

/-! ## Chains of turns -/

/-- What the loop of an activation has come to. -/
structure LoopState where
  machine : Machine
  form : Value
  frame : FrameId

namespace LoopState

variable {s s' : LoopState} {chain : Nat → LoopState} {count : Nat} {o : Outcome Value}

/-- The turn ends in a tail transfer. -/
def Transfers (s s' : LoopState) : Prop :=
  Settles (turn s.form s.frame) s.machine (.ok (.tail s'.form s'.frame), s'.machine)

/-- The turn is the last. -/
def Finishes (s : LoopState) (o : Outcome Value) : Prop :=
  Settles (turn s.form s.frame) s.machine (o.1.map .done, o.2)

/-- The activations that the turn starts fit in a depth. -/
def FitsIn (s : LoopState) (depth : Nat) : Prop :=
  ∃ o, Settles (turnWithin depth s.form s.frame) s.machine o

/-- From here on everything fits in a depth, and this is the outcome. -/
def SettlesWithin (s : LoopState) (depth : Nat) (o : Outcome Value) : Prop :=
  Settles (evaluateWithin depth s.form s.frame) s.machine o

theorem FitsIn.mono {depth' : Nat} (h : s.FitsIn depth) (le : depth ≤ depth') : s.FitsIn depth' := by
  obtain ⟨o, settles⟩ := h
  refine ⟨o, settles.of_approximates fun fuel room => ⟨fuel, room, ?_⟩⟩
  exact turnWithin_approximates (Nat.le_refl fuel) (Nat.le_refl room) le s.form s.frame

/-- A turn that fits comes to what it comes to without a bound. -/
theorem FitsIn.settles {o : Outcome Next} (h : s.FitsIn depth) (ends : Settles (turn s.form s.frame) s.machine o) :
    Settles (turnWithin depth s.form s.frame) s.machine o := by
  obtain ⟨o', within⟩ := h
  obtain rfl := (settles_turn_iff_within.mpr ⟨depth, within⟩).unique (improving_turn s.form s.frame) ends
  exact within

/-- What a turn needs is some depth, and there is a least. -/
theorem exists_least {o : Outcome Next} (ends : Settles (turn s.form s.frame) s.machine o) :
    ∃ depth, IsLeast {d | s.FitsIn d} depth := by
  have some : {d | s.FitsIn d}.Nonempty := (settles_turn_iff_within.mp ends).imp fun _ settles => ⟨o, settles⟩
  exact ⟨sInf {d | s.FitsIn d}, Nat.sInf_mem some, fun _ => Nat.sInf_le⟩

theorem SettlesWithin.fitsIn (h : s.SettlesWithin depth o) : s.FitsIn depth :=
  (settles_evaluateWithin_iff.mp h).first

/-- One link of a chain. -/
theorem Transfers.settlesWithin_iff (h : s.Transfers s') :
    s.SettlesWithin depth o ↔ s.FitsIn depth ∧ s'.SettlesWithin depth o := by
  constructor
  · intro settles
    exact ⟨settles.fitsIn, (settles_evaluateWithin_tail_iff (settles.fitsIn.settles h)).mp settles⟩
  · rintro ⟨fits, settles⟩
    exact (settles_evaluateWithin_tail_iff (fits.settles h)).mpr settles

theorem Finishes.settlesWithin_iff {o' : Outcome Value} (h : s.Finishes o) :
    s.SettlesWithin depth o' ↔ s.FitsIn depth ∧ o' = o := by
  have last (fits : s.FitsIn depth) : s.SettlesWithin depth o := by
    have settles := fits.settles h
    refine settles_evaluateWithin_iff.mpr ((Settles.bind_cases (improving_turnWithin depth s.form s.frame)
      (improving_goOn depth)).mpr ?_)
    rcases o with ⟨halt | v, n⟩
    · exact Or.inr ⟨halt, n, settles, rfl⟩
    · exact Or.inl ⟨.done v, n, settles, settles_pure_iff.mpr rfl⟩
  constructor
  · intro settles
    exact ⟨settles.fitsIn, settles.unique (improving_evaluateWithin depth s.form s.frame) (last settles.fitsIn)⟩
  · rintro ⟨fits, rfl⟩
    exact last fits

/-- A chain stays within a depth just when each of its links does, and what follows it does. -/
theorem chain_settlesWithin_iff (h : ∀ k < count, (chain k).Transfers (chain (k + 1))) :
    (chain 0).SettlesWithin depth o ↔
      (∀ k < count, (chain k).FitsIn depth) ∧ (chain count).SettlesWithin depth o := by
  induction count with
  | zero => exact (and_iff_right nofun).symm
  | succ count ih =>
    obtain ⟨earlier, last⟩ := Nat.forall_lt_succ_right.mp h
    rw [ih earlier, last.settlesWithin_iff, Nat.forall_lt_succ_right, and_assoc]

/-- A chain with a last turn has one outcome, and has it in the depths in which all turns fit. -/
theorem finished_chain_settlesWithin_iff {o' : Outcome Value}
    (h : ∀ k < count, (chain k).Transfers (chain (k + 1))) (last : (chain count).Finishes o) :
    (chain 0).SettlesWithin depth o' ↔ (∀ k ≤ count, (chain k).FitsIn depth) ∧ o' = o := by
  rw [chain_settlesWithin_iff h, last.settlesWithin_iff, ← and_assoc, ← Nat.forall_lt_succ_right]
  simp only [Nat.lt_succ_iff]

/-- Once a turn fits, an evaluation is one step ahead of what is handed over. -/
theorem Transfers.outcome_eq (h : s.Transfers s') (fits : s.FitsIn depth) :
    ∃ fuel₀ room₀, ∀ fuel room, fuel₀ ≤ fuel → room₀ ≤ room →
      outcome (evaluateWithin depth s.form s.frame (fuel + 1) room) s.machine =
        outcome (evaluateWithin depth s'.form s'.frame fuel room) s'.machine := by
  obtain ⟨fuel₀, room₀, ends⟩ := (fits.settles h).eventually (improving_turnWithin depth s.form s.frame)
  refine ⟨fuel₀, room₀, fun fuel room hf hr => ?_⟩
  have loop := (Calls.inside (callsWithin fuel) depth).turn_continued (callsWithin fuel depth) room s.form s.frame
  exact (congrArg (outcome · s.machine) loop).trans (outcome_bind_of_ok (ends fuel room hf hr) _)

/-- A chain whose links fit is run through, with a step for each link, whatever follows it. -/
theorem chain_outcome_eq (h : ∀ k < count, (chain k).Transfers (chain (k + 1)))
    (fits : ∀ k < count, (chain k).FitsIn depth) :
    ∃ fuel₀ room₀, ∀ fuel room, fuel₀ ≤ fuel → room₀ ≤ room →
      outcome (evaluateWithin depth (chain 0).form (chain 0).frame (fuel + count) room) (chain 0).machine =
        outcome (evaluateWithin depth (chain count).form (chain count).frame fuel room) (chain count).machine := by
  induction count with
  | zero => exact ⟨0, 0, fun _ _ _ _ => rfl⟩
  | succ count ih =>
    obtain ⟨earlier, last⟩ := Nat.forall_lt_succ_right.mp h
    obtain ⟨earlierFit, lastFits⟩ := Nat.forall_lt_succ_right.mp fits
    obtain ⟨fuel₁, room₁, through⟩ := ih earlier earlierFit
    obtain ⟨fuel₂, room₂, step⟩ := last.outcome_eq lastFits
    refine ⟨max fuel₁ fuel₂, max room₁ room₂, fun fuel room hf hr => ?_⟩
    have ahead : fuel + (count + 1) = fuel + 1 + count := by omega
    rw [ahead, through (fuel + 1) room (by omega) (by omega)]
    exact step fuel room (by omega) (by omega)

/-- The depth that a chain takes is the greatest of those that its links take. -/
theorem chain_isLeast (h : ∀ k < count, (chain k).Transfers (chain (k + 1))) (last : (chain count).Finishes o) :
    ∃ depth : Nat → Nat, (∀ k ≤ count, IsLeast {d | (chain k).FitsIn d} (depth k)) ∧
      IsLeast {d | ∃ o, (chain 0).SettlesWithin d o} ((Finset.range (count + 1)).sup depth) := by
  have each (k : Nat) : ∃ depth, k ≤ count → IsLeast {d | (chain k).FitsIn d} depth := by
    rcases Nat.lt_trichotomy k count with less | rfl | greater
    · exact (exists_least (h k less)).imp fun _ least _ => least
    · exact (exists_least last).imp fun _ least _ => least
    · exact ⟨0, fun le => absurd le (Nat.not_le_of_lt greater)⟩
  choose depth least using each
  refine ⟨depth, least, ⟨o, ?_⟩, ?_⟩
  · refine (finished_chain_settlesWithin_iff h last).mpr ⟨fun k le => ?_, rfl⟩
    exact (least k le).1.mono (Finset.le_sup (Finset.mem_range_succ_iff.mpr le))
  · rintro d ⟨o', settles⟩
    obtain ⟨fits, _⟩ := (finished_chain_settlesWithin_iff h last).mp settles
    refine Finset.sup_le fun k mem => ?_
    have le := Finset.mem_range_succ_iff.mp mem
    exact (least k le).2 (fits k le)

end LoopState

/-- Tail calls take no depth. A bound on the depth of activations inside one another only withholds outcomes, and a
part of a form that has an activation of its own takes one level. So do the test of a conditional, all forms of a
sequence but the last, and the operands of an application. The chosen branch, the last form, and the body of a
closure that is applied, also where it is made as in what `let` expands to, take none: they are evaluated within the
depth of the whole form. So a chain of tail transfers is run through if each of its turns fits, one step a link. With
a last turn it settles on the outcome it has without a bound, just within the depths in which every turn fits, and
the least of them is the greatest that a single turn takes. -/
theorem tail_transfers_take_no_depth :
    (∀ form frame m o, Settles (fun fuel room => evaluate fuel room form frame) m o ↔
      ∃ depth, Settles (evaluateWithin depth form frame) m o) ∧
    (∀ depth e frame m o, Settles (partWithin depth e frame) m o ↔
      ∃ d, depth = d + 1 ∧ Settles (evaluateWithin d e frame) m o) ∧
    (∀ depth i t c e frame m o,
      (Settles (evaluateWithin depth (.list i [.symbol "if", t, c, e]) frame) m o →
        ∃ o', Settles (partWithin depth t frame) m o') ∧
      ∀ v n, Settles (partWithin depth t frame) m (.ok v, n) → v.isEscape = false →
        (Settles (evaluateWithin depth (.list i [.symbol "if", t, c, e]) frame) m o ↔
          Settles (evaluateWithin depth (if v.isFalse then e else c) frame) n o)) ∧
    (∀ depth i es last frame m o,
      (Settles (evaluateWithin depth (.list i (.symbol "begin" :: (es ++ [last]))) frame) m o →
        ∃ o', Settles (partsWithin depth es frame) m o') ∧
      ∀ vs n, Settles (partsWithin depth es frame) m (.ok (.values vs), n) →
        (Settles (evaluateWithin depth (.list i (.symbol "begin" :: (es ++ [last]))) frame) m o ↔
          Settles (evaluateWithin depth last frame) n o)) ∧
    (∀ depth i head rest frame m o, CoreKeyword.ofHead? head = none →
      (Settles (evaluateWithin depth (.list i (head :: rest)) frame) m o →
        ∃ o', Settles (partsWithin depth (head :: rest) frame) m o') ∧
      ∀ j parameters body home args n inside l,
        Settles (partsWithin depth (head :: rest) frame) m
          (.ok (.values (.closure j parameters body home :: args)), n) →
        Settles (fun _ room => newFrame room parameters args (some home)) n (.ok inside, l) →
        (Settles (evaluateWithin depth (.list i (head :: rest)) frame) m o ↔
          Settles (evaluateWithin depth body inside) l o)) ∧
    (∀ depth i j names body es frame m args n inside l o,
      Settles (partsWithin (depth + 1) es frame) (m.made 1) (.ok (.values args), n) →
      Settles (fun _ room => newFrame room names args (some frame)) n (.ok inside, l) →
      (Settles (evaluateWithin (depth + 1) (.list i (.list j [.symbol "lambda", names, body] :: es)) frame) m o ↔
        Settles (evaluateWithin (depth + 1) body inside) l o)) ∧
    (∀ i parts toplevel m core n, m.transformerOf? (.symbol "let") = some (.primitive .expandLet) →
      Settles (fun fuel room => expand fuel room (.list i (.symbol "let" :: parts)) toplevel) m (.ok core, n) →
      ∃ j k names body es, core = .list j (.list k [.symbol "lambda", names, body] :: es)) ∧
    ∀ (chain : Nat → LoopState) count, (∀ k < count, (chain k).Transfers (chain (k + 1))) →
      (∀ depth, (∀ k < count, (chain k).FitsIn depth) →
        ∃ fuel₀ room₀, ∀ fuel room, fuel₀ ≤ fuel → room₀ ≤ room →
          outcome (evaluateWithin depth (chain 0).form (chain 0).frame (fuel + count) room) (chain 0).machine =
            outcome (evaluateWithin depth (chain count).form (chain count).frame fuel room) (chain count).machine) ∧
      ∀ o, (chain count).Finishes o →
        Settles (fun fuel room => evaluate fuel room (chain 0).form (chain 0).frame) (chain 0).machine o ∧
        (∀ depth, (chain 0).SettlesWithin depth o ↔ ∀ k ≤ count, (chain k).FitsIn depth) ∧
        ∃ depth : Nat → Nat, (∀ k ≤ count, IsLeast {d | (chain k).FitsIn d} (depth k)) ∧
          IsLeast {d | ∃ o, (chain 0).SettlesWithin d o} ((Finset.range (count + 1)).sup depth) := by
  refine ⟨fun _ _ _ _ => settles_evaluate_iff_within, fun _ _ _ _ _ => settles_partWithin_iff, ?_, ?_, ?_, ?_, ?_, ?_⟩
  · refine fun depth i t c e frame m o => ⟨settles_parts_of_turn turnWithin_test, fun v n test here => ?_⟩
    exact settles_evaluateWithin_tail_iff (turn_test test here)
  · refine fun depth i es last frame m o => ⟨settles_parts_of_turn (turnWithin_sequence last), fun vs n effects => ?_⟩
    exact settles_evaluateWithin_tail_iff (turn_sequence effects)
  · refine fun depth i head rest frame m o noKeyword => ⟨settles_parts_of_turn (turnWithin_application noKeyword), ?_⟩
    intro j parameters body home args n inside l operands bound
    exact settles_evaluateWithin_tail_iff (turn_application noKeyword operands bound)
  · intro depth i j names body es frame m args n inside l o operands bound
    exact settles_evaluateWithin_tail_iff (turn_application rfl (partsWithin_lambda operands) bound)
  · rintro i parts toplevel m core n found ⟨fuel, room, ends, _⟩
    exact expand_let_ends found ends
  · intro chain count transfers
    refine ⟨fun depth fits => LoopState.chain_outcome_eq transfers fits, fun o last => ?_⟩
    have finished {depth : Nat} {o' : Outcome Value} : (chain 0).SettlesWithin depth o' ↔
        (∀ k ≤ count, (chain k).FitsIn depth) ∧ o' = o :=
      LoopState.finished_chain_settlesWithin_iff transfers last
    obtain ⟨depth, least, chainLeast⟩ := LoopState.chain_isLeast transfers last
    obtain ⟨o', settles⟩ := chainLeast.1
    obtain ⟨_, rfl⟩ := finished.mp settles
    refine ⟨settles_evaluate_iff_within.mpr ⟨_, settles⟩, fun _ => ?_, depth, least, chainLeast⟩
    exact finished.trans (and_iff_left rfl)

/-- A closure calls itself once in tail position: five turns, none of which takes more depth than one. A test, a
sequence and a binding at the start of a session take as much. -/
theorem tail_transfers_take_no_depth_loop :
    let again (x : Bool) : Value := .list 0 [.symbol "f", .bool x]
    let body : Value := .list 0 [.symbol "if", .symbol "x", again false, .int 7]
    let root : Frame := ⟨[.ofName "f" (.closure 0 (.list 0 [.symbol "x"]) body 0)], none⟩
    let frame (x : Bool) : Frame := ⟨[.ofName "x" (.bool x)], some 0⟩
    let machine (frames : Array Frame) : Machine := { Machine.start .zeros with frames := ⟨frames⟩ }
    let last : LoopState := ⟨machine #[root, frame true, frame false], .int 7, 2⟩
    let chain (k : Nat) : LoopState := [⟨machine #[root], again true, 0⟩, ⟨machine #[root, frame true], body, 1⟩,
      ⟨machine #[root, frame true], again false, 1⟩, ⟨last.machine, body, 2⟩].getD k last
    let m := Machine.start .zeros
    let bound : Machine := { m.made 1 with frames := (m.frames.new [.ofName "x" (.int 5)] (some Machine.root)).2 }
    let lambda : Value := .list 0 [.symbol "lambda", .list 0 [.symbol "x"], .symbol "x"]
    ((∀ k < 4, (chain k).Transfers (chain (k + 1))) ∧ (∀ k ≤ 4, (chain k).FitsIn 1) ∧
      (chain 4).Finishes (.ok (.int 7), last.machine) ∧ (chain 0).SettlesWithin 1 (.ok (.int 7), last.machine)) ∧
    Settles (evaluateWithin 1 (.list 0 [.symbol "if", .bool true, .int 2, .int 3]) Machine.root) m (.ok (.int 2), m) ∧
    Settles (evaluateWithin 1 (.list 0 [.symbol "begin", .int 1, .int 2]) Machine.root) m (.ok (.int 2), m) ∧
    Settles (evaluateWithin 1 (.list 0 [lambda, .int 5]) Machine.root) m (.ok (.int 5), bound) ∧
    ∃ n j k names body es, Settles (fun fuel room => expand fuel room (.list 0 [.symbol "let",
      .list 0 [.list 0 [.symbol "x", .int 5]], .symbol "x"]) false) m
        (.ok (.list j (.list k [.symbol "lambda", names, body] :: es)), n) := by
  intro again body root frame machine last chain m bound lambda
  obtain ⟨_, _, test, sequence, _, binding, expands, chains⟩ := tail_transfers_take_no_depth
  have transfers : ∀ k < 4, (chain k).Transfers (chain (k + 1)) := by
    intro k less
    obtain rfl | rfl | rfl | rfl : k = 0 ∨ k = 1 ∨ k = 2 ∨ k = 3 := by omega
    all_goals exact ⟨2, 2, rfl, not_stopped_ok⟩
  have fits : ∀ k ≤ 4, (chain k).FitsIn 1 := by
    intro k le
    obtain rfl | rfl | rfl | rfl | rfl : k = 0 ∨ k = 1 ∨ k = 2 ∨ k = 3 ∨ k = 4 := by omega
    all_goals exact ⟨_, 2, 2, rfl, not_stopped_ok⟩
  have finishes : (chain 4).Finishes (.ok (.int 7), last.machine) := ⟨1, 1, rfl, not_stopped_ok⟩
  obtain ⟨_, ends⟩ := chains chain 4 transfers
  obtain ⟨_, within, _⟩ := ends _ finishes
  refine ⟨⟨transfers, fits, finishes, (within 1).mpr fits⟩, ?_, ?_, ?_, ?_⟩
  · obtain ⟨_, branch⟩ := test 1 0 (.bool true) (.int 2) (.int 3) Machine.root m (.ok (.int 2), m)
    exact (branch (.bool true) m ⟨1, 1, rfl, not_stopped_ok⟩ rfl).mpr ⟨1, 1, rfl, not_stopped_ok⟩
  · obtain ⟨_, last⟩ := sequence 1 0 [.int 1] (.int 2) Machine.root m (.ok (.int 2), m)
    exact (last [.int 1] m ⟨1, 1, rfl, not_stopped_ok⟩).mpr ⟨1, 1, rfl, not_stopped_ok⟩
  · exact (binding 0 0 0 (.list 0 [.symbol "x"]) (.symbol "x") [.int 5] Machine.root m [.int 5] (m.made 1) _ bound _
      ⟨1, 1, rfl, not_stopped_ok⟩ ⟨1, 1, rfl, not_stopped_ok⟩).mpr ⟨1, 1, rfl, not_stopped_ok⟩
  · obtain ⟨core, n, settles⟩ : ∃ core n, Settles (fun fuel room => expand fuel room (.list 0 [.symbol "let",
        .list 0 [.list 0 [.symbol "x", .int 5]], .symbol "x"]) false) m (.ok core, n) :=
      ⟨_, _, 6, 6, rfl, not_stopped_ok⟩
    obtain ⟨j, k, names, body, es, rfl⟩ := expands _ _ _ _ _ _ rfl settles
    exact ⟨n, j, k, names, body, es, settles⟩

end SmallLisp
