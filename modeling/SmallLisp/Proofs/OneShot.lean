import SmallLisp.Proofs.Application
import SmallLisp.Proofs.History
import SmallLisp.Proofs.Scope
/-!
# One-shot continuations

Between the commands of a session no continuation is live, so a command starts with no owner on the way, and
it does the same when its operations are watched. Every continuation that the session has made is then
spent, and from there on each way to invoke one is the same failure.
-/
namespace SmallLisp

open Run

/-- The engine whose operations are watched from a state on in which nothing is live. -/
def Limits.watched (limits : Limits) (alarm : Halt) (since : Machine) : Engine :=
  ⟨limits.nesting, watchedCalls alarm limits.steps [] since⟩

namespace Session

variable {since : Machine}

/-- Liveness is kept whatever comes to the top. -/
theorem liveness_serves (limits : Limits) {engine : Engine} (nesting : engine.nesting = limits.nesting)
    (agree : Calls.Agree keepingLiveness since engine.calls (calls limits.steps)) :
    (keepingLiveness.custody since).Serves (fun _ => engine) limits :=
  Discipline.custody_serves nesting agree (keepingLiveness_respects _) keepingLiveness_registers
    fun v _ _ _ => keepingLiveness_good v

theorem liveness_safe (m : Machine) : (keepingLiveness.custody m).Safe () m :=
  ⟨Discipline.moves_refl m, Discipline.holds_of_all keepingLiveness_good m⟩

/-- The commands of a session make continuations, and each that existed keeps its status. -/
theorem moves_performed (limits : Limits) (s : Session) (commands : List Command) :
    keepingLiveness.Moves s.machine (performed limits s commands).machine := by
  have serves : (keepingLiveness.custody s.machine).Serves (fun _ => limits) limits :=
    liveness_serves limits rfl (.refl _)
  obtain ⟨_, _, moved, _⟩ := performed_safe serves Discipline.custody_releases (liveness_safe _) commands
  exact moved

/-- Whenever a session answers nothing, nothing is live. -/
theorem idle_performed (limits : Limits) (table : Nat) (draws : Draws) (commands : List Command) (k : Nat) :
    (performed limits (fresh table draws) commands).machine.isLive k = false :=
  (moves_performed limits (fresh table draws) commands).1 k

end Session

/-- The continuation that a value is. -/
def Value.continuation? : Value → Option Nat
  | .continuation k => some k
  | _ => none

theorem Value.eq_some_continuation {found : Option Value} {k : Nat}
    (h : found.bind Value.continuation? = some k) : found = some (.continuation k) := by
  obtain ⟨v, rfl, is⟩ := Option.bind_eq_some_iff.mp h
  cases v <;> cases is
  rfl

open Session in
/-- After any commands of a session, whatever came of them, nothing is live. The next command does the same
when it is watched, so at every point of it just the continuations of the owners on the way are live, and
none that was there becomes live again. And every continuation that is spent is refused. -/
theorem continuations_one_shot (limits : Limits) (table : Nat) (draws : Draws) (commands : List Command) :
    let s := performed limits (fresh table draws) commands
    (∀ k, s.machine.isLive k = false) ∧
      (∀ alarm (command : Command),
        outcome (command.perform (limits.watched alarm s.machine)) s =
          outcome (command.perform limits) s) ∧
      ∀ (m : Machine) (k : Nat), m.IsSpent k → m.Refuses k := by
  intro s
  have idle := idle_performed limits table draws commands
  refine ⟨idle, fun alarm command => ?_, fun m k spent => spent.refuses⟩
  have agree := watchedCalls_agree alarm limits.steps (.of_idle idle)
  exact (perform_keeps (liveness_serves limits rfl agree) Discipline.custody_releases command s (liveness_safe _)).1 ()

open Session in
/-- A continuation that a variable and a transformer keep after its call. -/
theorem continuations_one_shot_kept :
    let limits : Limits := ⟨40, 40⟩
    let code := "(define kept #f) (call/cc (lambda (k) (set! kept k))) (define-macro use kept)"
    let s := performed limits (fresh 0 .zeros) [.serve (.eval code)]
    s.machine.IsSpent 0 ∧
      outcome (apply 9 9 (.continuation 0) [.int 1] Machine.root) s.machine =
        (.error (.failed .spentContinuation), s.machine) ∧
      outcome (evaluate 9 9 (.list 0 [.symbol "kept", .int 1]) Machine.root) s.machine =
        (.error (.failed .spentContinuation), s.machine) ∧
      outcome (expand 9 9 (.list 0 [.symbol "use", .int 1]) true) s.machine =
        (.error (.failed .spentContinuation), s.machine) := by
  intro limits code s
  obtain ⟨_, _, refused⟩ := continuations_one_shot limits 0 .zeros [.serve (.eval code)]
  have spent : s.machine.IsSpent 0 := by decide +kernel
  have refuses := refused s.machine 0 spent
  have bound : s.machine.frames.lookup? Machine.root (.name "kept") = some (.continuation 0) :=
    Value.eq_some_continuation (by decide +kernel)
  have registered : s.machine.transformerOf? (.symbol "use") = some (.continuation 0) :=
    Value.eq_some_continuation (by decide +kernel)
  refine ⟨spent, refuses.applied 8 9 _ _, ?_, ?_⟩
  · refine refuses.evaluated 7 9 0 _ _ [.int 1] _ s.machine rfl ?_
    exact Form.outcome_operands_cons (outcome_lookup bound 8) rfl rfl
  · exact refuses.transformer 7 8 0 _ _ true rfl registered

end SmallLisp
