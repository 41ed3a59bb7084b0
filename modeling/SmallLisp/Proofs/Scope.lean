import SmallLisp.Proofs.Agreement
/-!
# The scope of a continuation

A continuation is live exactly while the call that owns it is on the way. The watched operations look at the
state where every evaluation, application and expansion begins and where it ends, in whatever way: they
sound an alarm unless just the continuations of the owners on the way are live and those that existed have
kept their status. No alarm ever sounds, so this is so at every point of every run. What is spent stays so,
and to invoke it is a failure that changes nothing.
-/
namespace SmallLisp

open Run

variable {k : Nat} {owners : List Nat} {since m n : Machine}

/-- Just the owners' continuations are live, and what existed at an earlier point has the same status. -/
structure Machine.Scoped (m : Machine) (owners : List Nat) (since : Machine) : Prop where
  live : ∀ k < m.continuations.size, m.isLive k = true ↔ k ∈ owners
  created : ∀ k ∈ owners, k < m.continuations.size
  grown : since.continuations.size ≤ m.continuations.size
  kept : ∀ k < since.continuations.size, m.isLive k = since.isLive k

instance (m : Machine) (owners : List Nat) (since : Machine) : Decidable (m.Scoped owners since) :=
  decidable_of_iff
    ((∀ k < m.continuations.size, m.isLive k = true ↔ k ∈ owners) ∧
      (∀ k ∈ owners, k < m.continuations.size) ∧
      since.continuations.size ≤ m.continuations.size ∧
      ∀ k < since.continuations.size, m.isLive k = since.isLive k)
    ⟨fun ⟨live, created, grown, kept⟩ => ⟨live, created, grown, kept⟩,
      fun ⟨live, created, grown, kept⟩ => ⟨live, created, grown, kept⟩⟩

/-- Runs what begins in a state, and sounds an alarm unless the owners' continuations are in scope there and,
however the run ends, in the state that it leaves. -/
def Run.watch {α : Type} (alarm : Halt) (owners : List Nat) (since : Machine)
    (body : Machine → Run α) : Run α := fun m =>
  if m.Scoped owners since then
    let (result, n) := body m m
    if n.Scoped owners m then (result, n) else (.error alarm, n)
  else (.error alarm, m)

/-- The owners on the way inside the application of a procedure, and the state in which its body begins. -/
def Value.scope (owners : List Nat) (m : Machine) : Value → List Nat × Machine
  | .control .callWithEscape => (m.continuations.size :: owners, m.opened)
  | _ => (owners, m)

theorem Value.scope_of_ne {v : Value} (h : v ≠ .control .callWithEscape) (owners : List Nat)
    (m : Machine) : v.scope owners m = (owners, m) := by
  unfold Value.scope
  split
  · exact absurd rfl h
  · rfl

/-- The operations, watched from a state on in which some owners are on the way. -/
def watchedCalls (alarm : Halt) : (fuel : Nat) → (owners : List Nat) → (since : Machine) → Calls
  | 0, _, _ => .halted
  | fuel + 1, owners, since =>
    ⟨fun room form frame => watch alarm owners since fun m =>
        (watchedCalls alarm fuel owners m).evaluation room form frame,
      fun room procedure args caller => watch alarm owners since fun m =>
        let inside := procedure.scope owners m
        (watchedCalls alarm fuel inside.1 inside.2).application room procedure args caller,
      fun room form toplevel => watch alarm owners since fun m =>
        (watchedCalls alarm fuel owners m).expansion room form toplevel⟩

/-- Continuations are added and keep their status. Every value is good. -/
def keepingLiveness : Discipline :=
  { keepingTransformers with
    Moves := escapeFree.Moves
    trans := escapeFree.trans
    quiet := escapeFree.quiet
    define := escapeFree.define
    frame := escapeFree.frame
    owner := escapeFree.owner }

theorem keepingLiveness_good (v : Value) : keepingLiveness.Good v := trivial

theorem keepingLiveness_registers : keepingLiveness.Registers := escapeFree_registers

theorem keepingLiveness_respects (fuel : Nat) : Calls.Respects keepingLiveness (calls fuel) :=
  Calls.respects_of_all_good keepingLiveness_good fuel

theorem Machine.isLive_of_size_le (h : m.continuations.size ≤ k) : m.isLive k = false := by
  simp [isLive, Array.getD_eq_getD_getElem?, Array.getElem?_eq_none h]

namespace Machine.Scoped

/-- Whatever happens to a state, it stays in scope. -/
theorem moved (h : m.Scoped owners since) (moves : keepingLiveness.Moves m n) :
    n.Scoped owners m where
  live k _ := by
    rw [moves.1 k]
    by_cases exists_ : k < m.continuations.size
    · exact h.live k exists_
    · rw [isLive_of_size_le (Nat.le_of_not_lt exists_)]
      exact ⟨nofun, fun mem => absurd (h.created k mem) exists_⟩
  created k mem := Nat.lt_of_lt_of_le (h.created k mem) moves.2
  grown := moves.2
  kept k _ := moves.1 k

/-- The call that owns a new continuation is on the way. -/
theorem opened (h : m.Scoped owners since) :
    m.opened.Scoped (m.continuations.size :: owners) m.opened where
  live k exists_ := by
    rw [List.mem_cons]
    by_cases own : k = m.continuations.size
    · simp [own, isLive, Machine.opened, Array.getD_eq_getD_getElem?]
    · have earlier : k < m.continuations.size := by
        simp only [Machine.opened, Array.size_push] at exists_
        omega
      have same : m.opened.isLive k = m.isLive k := by
        simp [isLive, Machine.opened, Array.getD_eq_getD_getElem?, Array.getElem?_push, own]
      rw [same, h.live k earlier, or_iff_right own]
  created k mem := by
    simp only [Machine.opened, Array.size_push]
    rcases List.mem_cons.mp mem with rfl | mem
    · exact Nat.lt_succ_self _
    · exact Nat.lt_succ_of_lt (h.created k mem)
  grown := Nat.le_refl _
  kept _ _ := rfl

/-- Before any call that owns a continuation nothing is live. -/
theorem of_idle (idle : ∀ k, m.isLive k = false) : m.Scoped [] m where
  live k _ := by simp [idle k]
  created := nofun
  grown := Nat.le_refl _
  kept _ _ := rfl

end Machine.Scoped

/-- A run that is watched from a state in scope is the run itself. -/
theorem outcome_watch {α : Type} {alarm : Halt} {body : Machine → Run α} {plain : Run α}
    {Q : α → Machine → Prop} (inScope : since.Scoped owners since)
    (moves : keepingLiveness.Moves since m) (same : outcome (body m) m = outcome plain m)
    (meets : keepingLiveness.Meets plain Q) :
    outcome (watch alarm owners since body) m = outcome plain m := by
  have before := inScope.moved moves
  have after := before.moved (meets m (Discipline.holds_of_all keepingLiveness_good m)).1
  have run : outcome (watch alarm owners since body) m =
      if m.Scoped owners since then
        if (outcome (body m) m).2.Scoped owners m then outcome (body m) m
        else (.error alarm, (outcome (body m) m).2)
      else (.error alarm, m) := rfl
  rw [run, if_pos before, same, if_pos after]

/-- From a state in which just the owners' continuations are live, the watched operations are the
operations: no alarm sounds. -/
theorem watchedCalls_agree (alarm : Halt) (fuel : Nat) (inScope : since.Scoped owners since) :
    Calls.Agree keepingLiveness since (watchedCalls alarm fuel owners since) (calls fuel) := by
  induction fuel generalizing owners since with
  | zero => exact ⟨fun _ _ _ _ _ => rfl, fun _ _ _ _ _ _ => rfl, fun _ _ _ _ _ => rfl⟩
  | succ fuel ih =>
    have all := keepingLiveness_good
    have respects := keepingLiveness_respects fuel
    have next := keepingLiveness_respects (fuel + 1)
    have inside {m : Machine} (moves : keepingLiveness.Moves since m) :=
      (inScope.moved moves).moved (Discipline.moves_refl m)
    constructor
    · intro room form frame m moves
      refine outcome_watch inScope moves ?_ (next.evaluate room frame trivial)
      exact (ih (inside moves)).evaluation all respects form frame m (Discipline.moves_refl m)
    · intro room procedure args caller m moves
      have body : outcome ((watchedCalls alarm fuel (procedure.scope owners m).1
            (procedure.scope owners m).2).application room procedure args caller) m =
          outcome ((calls fuel).application room procedure args caller) m := by
        by_cases owner : procedure = .control .callWithEscape
        · subst owner
          exact Calls.application_owner_agree (ih (inside moves).opened) room args caller
        · rw [Value.scope_of_ne owner]
          exact (ih (inside moves)).application all respects args caller owner m
            (Discipline.moves_refl m)
      exact outcome_watch inScope moves body (next.apply room caller trivial fun _ _ => trivial)
    · intro room form toplevel m moves
      have registers := keepingLiveness_registers
      refine outcome_watch inScope moves ?_ (next.expand room (fun _ => registers) trivial)
      exact (ih (inside moves)).expansion all registers respects form toplevel m
        (Discipline.moves_refl m)

/-! ## The invocation of a spent continuation -/

/-- A continuation that was made and is no longer live. -/
def Machine.IsSpent (m : Machine) (k : Nat) : Prop :=
  k < m.continuations.size ∧ m.isLive k = false

instance (m : Machine) (k : Nat) : Decidable (m.IsSpent k) :=
  inferInstanceAs (Decidable (_ ∧ _))

theorem Machine.IsSpent.opened (h : m.IsSpent k) : m.opened.IsSpent k := by
  obtain ⟨made, spent⟩ := h
  refine ⟨by simp only [Machine.opened, Array.size_push]; omega, ?_⟩
  have other : k ≠ m.continuations.size := Nat.ne_of_lt made
  unfold isLive at spent ⊢
  rw [Machine.opened, Array.getD_eq_getD_getElem?, Array.getElem?_push, if_neg other,
    ← Array.getD_eq_getD_getElem?]
  exact spent

/-- The call that owns a continuation leaves it spent. -/
theorem Machine.opened_spent (m : Machine) :
    m.opened.spent m.continuations.size = { m with continuations := m.continuations.push false } := by
  have pushed : (m.continuations.push true).setIfInBounds m.continuations.size false =
      m.continuations.push false := by
    refine Array.ext_getElem? fun i => ?_
    rw [Array.getElem?_setIfInBounds, Array.getElem?_push, Array.getElem?_push]
    by_cases last : i = m.continuations.size
    · simp [last]
    · simp [last, Ne.symm last]
  simp only [Machine.opened, Machine.spent, pushed]

/-- A state in which each way to invoke a continuation is the same failure, which changes nothing: alone, as
the head of an application, by the procedure that applies its first argument, as the argument of a call
with a continuation of its own, which is spent at the end like any other, and as a transformer. -/
structure Machine.Refuses (m : Machine) (k : Nat) : Prop where
  applied : ∀ fuel room args caller,
    outcome (apply (fuel + 1) room (.continuation k) args caller) m =
      (.error (.failed .spentContinuation), m)
  evaluated : ∀ fuel room i head rest args frame l, CoreKeyword.ofHead? head = none →
    outcome (Form.operands (fun e => deeper room fun room => evaluate (fuel + 1) room e frame)
      (head :: rest)) l = (.ok (.values (.continuation k :: args)), m) →
    outcome (evaluate (fuel + 2) room (.list i (head :: rest)) frame) l =
      (.error (.failed .spentContinuation), m)
  spread : ∀ fuel room i args caller,
    outcome (apply (fuel + 2) (room + 1) (.control .apply) [.continuation k, .list i args] caller) m =
      (.error (.failed .spentContinuation), m)
  owner : ∀ fuel room caller,
    outcome (apply (fuel + 2) (room + 1) (.control .callWithEscape) [.continuation k] caller) m =
      (.error (.failed .spentContinuation), { m with continuations := m.continuations.push false })
  transformer : ∀ fuel room i head rest toplevel, Keyword.ofHead? head = none →
    m.transformerOf? head = some (.continuation k) →
    outcome (expand (fuel + 2) (room + 1) (.list i (head :: rest)) toplevel) m =
      (.error (.failed .spentContinuation), m)

namespace Machine.IsSpent

variable {rest : List Value}

theorem applied (spent : m.IsSpent k) (fuel room : Nat) (args : List Value) (caller : FrameId) :
    outcome (apply (fuel + 1) room (.continuation k) args caller) m =
      (.error (.failed .spentContinuation), m) := by
  change outcome (invoke k args) m = _
  unfold invoke
  rw [outcome_bind_of_ok (outcome_get m), spent.2]
  rfl

theorem evaluated (spent : m.IsSpent k) (fuel room i : Nat) {head : Value} {args : List Value}
    {frame : FrameId} {l : Machine} (noKeyword : CoreKeyword.ofHead? head = none)
    (values : outcome (Form.operands (fun e => deeper room fun room => evaluate (fuel + 1) room e frame)
      (head :: rest)) l = (.ok (.values (.continuation k :: args)), m)) :
    outcome (evaluate (fuel + 2) room (.list i (head :: rest)) frame) l =
      (.error (.failed .spentContinuation), m) := by
  change outcome ((calls (fuel + 1)).evaluation room (.list i (head :: rest)) frame) l = _
  change outcome (Form.operands
    (fun e => deeper room fun room => (calls (fuel + 1)).evaluate room e frame) (head :: rest)) l = _
    at values
  unfold Calls.evaluation Form.evaluateBy
  dsimp only
  rw [noKeyword]
  dsimp only
  rw [outcome_bind_of_ok values]
  exact spent.applied fuel room args frame

theorem owner (spent : m.IsSpent k) (fuel room : Nat) (caller : FrameId) :
    outcome (apply (fuel + 2) (room + 1) (.control .callWithEscape) [.continuation k] caller) m =
      (.error (.failed .spentContinuation),
        { m with continuations := m.continuations.push false }) := by
  have body : outcome (deeper (room + 1) fun room => (calls (fuel + 1)).apply room (.continuation k)
      [.continuation m.continuations.size] caller) m.opened =
      (.error (.failed .spentContinuation), m.opened) :=
    spent.opened.applied fuel room [.continuation m.continuations.size] caller
  have call : outcome (apply (fuel + 2) (room + 1) (.control .callWithEscape) [.continuation k] caller)
      m = _ := Calls.outcome_application_owner (calls (fuel + 1)) (room + 1) _ caller m
  rw [call, outcome_bind, outcome_spending, body, ← m.opened_spent]
  rfl

theorem transformer (spent : m.IsSpent k) (fuel room i : Nat) {head : Value} (toplevel : Bool)
    (noKeyword : Keyword.ofHead? head = none)
    (transformer : m.transformerOf? head = some (.continuation k)) :
    outcome (expand (fuel + 2) (room + 1) (.list i (head :: rest)) toplevel) m =
      (.error (.failed .spentContinuation), m) := by
  have found : (transformer? head).Ends m (some (.continuation k)) m :=
    ends_transformer?.mpr ⟨transformer.symm, rfl⟩
  have invoked : outcome (deeper (room + 1) fun room =>
      (calls (fuel + 1)).apply room (.continuation k) rest Machine.root) m = _ :=
    spent.applied fuel room rest Machine.root
  change outcome ((calls (fuel + 1)).expansion (room + 1) (.list i (head :: rest)) toplevel) m = _
  unfold Calls.expansion
  dsimp only
  rw [noKeyword]
  dsimp only
  rw [outcome_bind_of_ok found]
  exact outcome_bind_of_error invoked _

/-- A spent continuation is refused, however it is invoked. -/
theorem refuses (spent : m.IsSpent k) : m.Refuses k where
  applied := spent.applied
  evaluated fuel room i _ _ _ _ _ := spent.evaluated fuel room i
  spread fuel room _ args caller := spent.applied fuel room args caller
  owner := spent.owner
  transformer fuel room i _ _ toplevel := spent.transformer fuel room i toplevel

end Machine.IsSpent

end SmallLisp
