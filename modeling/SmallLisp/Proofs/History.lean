import SmallLisp.Proofs.Custody
/-!
# Histories of a session

A session answers requests one after another: to evaluate a text, to load it, to parse it. Between two
requests no continuation is live and nothing that the session holds has an escape in it. This is shown for
the guarded operations, and the history is the same for the others as long as the guard stops nothing.
-/
namespace SmallLisp

open Run

/-- The engine whose expansion stops where a transformer gives an escape. -/
def Limits.guarded (limits : Limits) : Engine :=
  ⟨limits.nesting, guardedCalls limits.steps⟩

theorem Limits.guarded_nesting (limits : Limits) :
    limits.guarded.nesting = (limits : Engine).nesting := rfl

namespace Session

structure Clean (s : Session) : Prop where
  holds : escapeFree.Holds s.machine
  idle : ∀ k, s.machine.isLive k = false

def Answer.EscapeFree : Answer → Prop
  | value v => escapeFree.Good v
  | text _ => True
  | cores forms => ∀ v ∈ forms, escapeFree.Good v

/-- Evaluation of a top-level form that does not look for an escape. -/
def evaluateUnchecked (engine : Engine) (core : Value) : Act Value :=
  run (engine.calls.evaluate engine.nesting core Machine.root)

/-- A request served without looking for an escape at the top. -/
def Request.serveUnchecked (engine : Engine) (request : Request) : Act Answer :=
  request.serveBy (evaluateUnchecked engine) engine

/-- The session after some requests. A failure ends the request, and the session goes on. -/
def after (engine : Engine) (s : Session) : List Request → Session
  | [] => s
  | request :: rest => after engine (outcome (request.serve engine) s).2 rest

/-- No request stops at the guard, or for want of steps. -/
def Unhindered (limits : Limits) (s : Session) : List Request → Prop
  | [] => True
  | request :: rest =>
    ¬ Stopped Slack.none.Early (outcome (request.serve limits.guarded) s) ∧
      Unhindered limits (outcome (request.serve limits.guarded) s).2 rest

/-- Whether a run was stopped can be seen from its outcome. -/
instance {σ α : Type} (o : Except Halt α × σ) : Decidable (Stopped Slack.none.Early o) :=
  match o with
  | (.error .outOfSteps, s) => isTrue ⟨_, s, rfl, rfl⟩
  | (.error (.failed _), _) => isFalse (by rintro ⟨_, _, ⟨⟩, ⟨⟩⟩)
  | (.ok _, _) => isFalse (by rintro ⟨_, _, ⟨⟩, _⟩)

instance decidableUnhindered (limits : Limits) :
    (s : Session) → (requests : List Request) → Decidable (Unhindered limits s requests)
  | _, [] => isTrue trivial
  | s, request :: rest =>
    have := decidableUnhindered limits (outcome (request.serve limits.guarded) s).2 rest
    inferInstanceAs (Decidable (_ ∧ _))

section Approximation

variable {α β : Type} {Early : Halt → Prop}

theorem run_approximates {a b : Run α} (h : Approximates Early a b) :
    Approximates Early (run a) (run b) := by
  intro s
  rcases h s.machine with ⟨e, n, stopped, early⟩ | same
  · exact Or.inl ⟨e, _, by rw [outcome_run, stopped], early⟩
  · exact Or.inr (by rw [outcome_run, outcome_run, same])

theorem reporting_approximates {a b : Act α} (h : Approximates Slack.none.Early a b) :
    Approximates Slack.none.Early (reporting a) (reporting b) := by
  intro s
  rw [outcome_reporting, outcome_reporting]
  rcases h s with ⟨_, t, stopped, rfl⟩ | same
  · rw [stopped]
    exact Or.inl ⟨_, t, rfl, rfl⟩
  · rw [same]
    exact Or.inr rfl

theorem foldPort_approximates {engine engine' : Engine} (nesting : engine.nesting = engine'.nesting)
    {step step' : α → Value → Act α} (h : ∀ a form, Approximates Early (step a form) (step' a form))
    (fuel : Nat) (port : Reader.Port) (a : α) :
    Approximates Early (foldPort engine step fuel port a) (foldPort engine' step' fuel port a) := by
  induction fuel generalizing port a with
  | zero => exact .refl _
  | succ fuel ih =>
    have read : readForm engine port = readForm engine' port := by
      unfold readForm
      rw [nesting]
    unfold foldPort
    rw [read]
    refine .bind (.refl _) fun (form, port) => ?_
    cases form with
    | none => exact .refl _
    | some form => exact .bind (h a form) fun a => ih port a

theorem foldForms_approximates {engine engine' : Engine}
    (nesting : engine.nesting = engine'.nesting) {step step' : α → Value → Act α}
    (h : ∀ a form, Approximates Early (step a form) (step' a form)) (a : α) (code : String) :
    Approximates Early (foldForms engine step a code) (foldForms engine' step' a code) :=
  .bind (.refl _) fun _ => foldPort_approximates nesting h _ _ a

variable (limits : Limits)

theorem expand_approximates (form : Value) (toplevel : Bool) :
    Approximates Slack.none.Early (expand limits.guarded form toplevel)
      (expand limits form toplevel) :=
  run_approximates ((guardedCalls_approximates limits.steps).expand (Slack.Fits.refl _) form toplevel)

theorem evaluateUnchecked_approximates (core : Value) :
    Approximates Slack.none.Early (evaluateUnchecked limits.guarded core)
      (evaluateUnchecked limits core) :=
  run_approximates ((guardedCalls_approximates limits.steps).evaluate (Slack.Fits.refl _) core _)

theorem evaluate_approximates (core : Value) :
    Approximates Slack.none.Early (evaluate limits.guarded core) (evaluate limits core) :=
  .bind (evaluateUnchecked_approximates limits core) fun _ => .refl _

theorem parseForm_approximates (cores : List Value) (form : Value) :
    Approximates Slack.none.Early (parseForm limits.guarded cores form)
      (parseForm limits cores form) :=
  .bind (expand_approximates limits form true) fun _ => .refl _

variable {top top' : Value → Act Value}
  (h : ∀ core, Approximates Slack.none.Early (top core) (top' core))
include h

theorem evalForm_approximates (form : Value) :
    Approximates Slack.none.Early (evalForm top limits.guarded form) (evalForm top' limits form) :=
  .bind (expand_approximates limits form true) h

theorem loadForm_approximates (form : Value) :
    Approximates Slack.none.Early (loadForm top limits.guarded form) (loadForm top' limits form) :=
  .bind (expand_approximates limits form true) fun core => .bind (h core) fun _ => .refl _

theorem serveBy_approximates (request : Request) :
    Approximates Slack.none.Early (request.serveBy top limits.guarded)
      (request.serveBy top' limits) := by
  cases request with
  | eval code =>
    refine .bind ?_ fun _ => .refl _
    exact foldForms_approximates limits.guarded_nesting
      (fun _ form => evalForm_approximates limits h form) _ code
  | load code =>
    refine .bind (.bind (reporting_approximates ?_) fun _ => .refl _) fun _ => .refl _
    exact foldForms_approximates limits.guarded_nesting
      (fun _ form => loadForm_approximates limits h form) _ code
  | parse code =>
    refine .bind (.bind ?_ fun _ => .refl _) fun _ => .refl _
    exact foldForms_approximates limits.guarded_nesting
      (fun cores form => parseForm_approximates limits cores form) _ code

end Approximation

/-! ## Between requests -/

section Idle

variable {limits : Limits} {since : Machine}

/-- The guarded engine serves where no continuation is live, since no escape is left there. -/
theorem guarded_serves (limits : Limits) (idle : ∀ k, since.isLive k = false) :
    (escapeFree.custody since).Serves (fun _ => limits.guarded) limits.guarded := by
  refine Discipline.custody_serves rfl (.refl _) (guardedCalls_respects _) escapeFree_registers ?_
  rintro v n ⟨live, _⟩ (good | ⟨k, u, _, _, here⟩)
  · exact good
  · rw [live k, idle k] at here
    cases here

/-- Nothing is found by looking for an escape at the top. -/
theorem evaluate_keeps_unchecked (idle : ∀ k, since.isLive k = false) {w : (escapeFree.custody since).World}
    {core : Value} (good : escapeFree.Good core) :
    (escapeFree.custody since).Keeps w (fun _ => evaluateUnchecked limits.guarded core)
      (evaluate limits.guarded core) (escapeFree.custody since).Good := by
  have value := run_keeps ((guarded_serves limits idle).evaluate (w := w) good)
  rw [← bind_pure (evaluateUnchecked limits.guarded core)]
  refine value.bind fun _ _ v plain => ?_
  rw [Value.isEscape_eq_false plain]
  exact .pure plain

end Idle

section Requests

variable (limits : Limits) (request : Request)

theorem serve_approximates :
    Approximates Slack.none.Early (request.serve limits.guarded) (request.serve limits) := by
  rw [Request.serve_eq, Request.serve_eq]
  exact serveBy_approximates limits (evaluate_approximates limits) request

theorem serveUnchecked_approximates :
    Approximates Slack.none.Early (request.serveUnchecked limits.guarded)
      (request.serveUnchecked limits) :=
  serveBy_approximates limits (evaluateUnchecked_approximates limits) request

/-- From a clean session a guarded request leads to a clean session, with a clean answer, and no escape is found at the
top. -/
theorem serve_clean {s : Session} (clean : s.Clean) :
    outcome (request.serveUnchecked limits.guarded) s = outcome (request.serve limits.guarded) s ∧
      (outcome (request.serve limits.guarded) s).2.Clean ∧
      ∀ answer, (outcome (request.serve limits.guarded) s).1 = .ok answer → answer.EscapeFree := by
  rw [Request.serve_eq]
  obtain ⟨same, _, _, ⟨⟨live, _⟩, holds⟩, good⟩ :=
    serveBy_keeps (w := ()) (guarded_serves limits clean.idle) (evaluate_keeps_unchecked clean.idle) request s
      ⟨Discipline.moves_refl _, clean.holds⟩
  refine ⟨same (), ⟨holds, fun k => (live k).trans (clean.idle k)⟩, fun answer given => ?_⟩
  cases answer <;> exact good _ given

/-- A request that the guard does not stop has the same outcome without the guard, and without the check
at the top. -/
theorem serve_unhindered {s : Session} (clean : s.Clean)
    (unhindered : ¬ Stopped Slack.none.Early (outcome (request.serve limits.guarded) s)) :
    outcome (request.serve limits) s = outcome (request.serve limits.guarded) s ∧
      outcome (request.serve limits) s = outcome (request.serveUnchecked limits) s := by
  have plain := (serve_approximates limits request).outcome_eq (m := s) rfl unhindered
  obtain ⟨same, _⟩ := serve_clean limits request clean
  have unchecked := (serveUnchecked_approximates limits request).outcome_eq (m := s) rfl
    (by rw [same]; exact unhindered)
  exact ⟨plain, by rw [plain, unchecked, same]⟩

end Requests

/-- A history that nothing hinders is the one with the guard, and it ends in a clean session. -/
theorem after_of_unhindered {limits : Limits} {s : Session} {requests : List Request}
    (clean : s.Clean) (unhindered : Unhindered limits s requests) :
    after limits s requests = after limits.guarded s requests ∧
      (after limits s requests).Clean := by
  induction requests generalizing s with
  | nil => exact ⟨rfl, clean⟩
  | cons request rest ih =>
    obtain ⟨here, later⟩ := unhindered
    obtain ⟨_, clean', _⟩ := serve_clean limits request clean
    unfold after
    rw [(serve_unhindered limits request clean here).1]
    exact ih clean' later

theorem unhindered_append {limits : Limits} {s : Session} {requests more : List Request} :
    Unhindered limits s (requests ++ more) ↔ Unhindered limits s requests ∧
      Unhindered limits (after limits.guarded s requests) more := by
  induction requests generalizing s with
  | nil => simp [Unhindered, after]
  | cons request rest ih => simp [Unhindered, after, ih, and_assoc]

theorem builtins_good : ∀ named ∈ Machine.builtins, escapeFree.Good named.2 := by
  have all : (Machine.builtins.all fun named => !named.2.hasEscape) = true := rfl
  intro named mem
  change named.2.hasEscape = false
  simpa using List.all_eq_true.mp all named mem

/-- A session begins clean. -/
theorem fresh_clean (table : Nat) (draws : Draws) : (fresh table draws).Clean := by
  refine ⟨⟨?_, ?_⟩, fun k => rfl⟩
  · intro f b mem
    obtain ⟨named, inside, rfl⟩ := mem_fresh_bindings mem
    exact builtins_good named inside
  · intro b mem
    obtain rfl := List.mem_singleton.mp mem
    exact escapeFree.primitive _

end Session

open Session in
/-- Escapes are where they should be, in every history in which no use of a transformer gives one.
All operations keep code and data free of escapes, an escape that one of them gives is on its way to a
live owner, no request meets one at the top, and an invocation ends the extent of its continuation.
Where the use of a transformer gives an escape, on the other hand, expansion takes it for a core form. -/
theorem escape_captured_only_from_transformer (limits : Limits) :
    Calls.Respects escapeFree (guardedCalls limits.steps) ∧
    Calls.Approximates .none (guardedCalls limits.steps) (calls limits.steps) ∧
    (∀ table draws requests request, Unhindered limits (fresh table draws) (requests ++ [request]) →
      let s := after limits (fresh table draws) requests
      s.Clean ∧
      (∀ answer t, outcome (request.serve limits) s = (.ok answer, t) → answer.EscapeFree) ∧
      outcome (request.serve limits) s = outcome (request.serveUnchecked limits) s) ∧
    (∀ fuel room f v caller m n, escapeFree.Holds m → escapeFree.Good f →
      (∀ h, outcome (deeper room fun room => (raisingCalls m.continuations.size h fuel).apply room f
        [.continuation m.continuations.size] caller) m.opened = (.error (h v), n)) →
      ¬ Stopped Slack.none.Early
        (outcome ((guardedCalls (fuel + 1)).apply room (.control .callWithEscape) [f] caller) m) →
      outcome (apply (fuel + 1) room (.control .callWithEscape) [f] caller) m =
        (.ok v, n.spent m.continuations.size)) ∧
    (∀ fuel room i k head t v rest toplevel m n, Keyword.ofHead? head = none →
      m.transformerOf? head = some t →
      (deeper room fun room => apply fuel room t rest Machine.root).Ends m (.escape k v) n →
      (expand (fuel + 1) room (.list i (head :: rest)) toplevel).Ends m (.escape k v) n) := by
  refine ⟨guardedCalls_respects _, guardedCalls_approximates _, ?_, ?_, ?_⟩
  · intro table draws requests request unhindered
    obtain ⟨before, here, _⟩ := unhindered_append.mp unhindered
    obtain ⟨same, clean⟩ := after_of_unhindered (fresh_clean table draws) before
    dsimp only
    rw [← same] at here
    obtain ⟨guarded, unchecked⟩ := serve_unhindered limits request clean here
    refine ⟨clean, fun answer t ends => ?_, unchecked⟩
    exact (serve_clean limits request clean).2.2 answer (by rw [← guarded, ends])
  · intro fuel room f v caller m n holds good invoked unhindered
    exact (owner_receives holds good invoked).resolve_left unhindered
  · intro fuel room i k head t v rest toplevel m n noKeyword found escaped
    exact expand_of_escaped_use noKeyword found escaped

open Session in
/-- The law for a text that defines a procedure and one that hands it a continuation, and for the call
that takes 5 out of `(+ 1 (k 5))`. -/
theorem escape_captured_only_from_transformer_on_sum :
    (∃ s : Session,
      s = after (⟨40, 30⟩ : Limits) (fresh 0 .zeros) [.eval "(define f (lambda (k) (+ 1 (k 5))))"] ∧
      s.Clean ∧
      outcome ((Request.eval "(call/cc f)").serve (⟨40, 30⟩ : Limits)) s =
        outcome ((Request.eval "(call/cc f)").serveUnchecked (⟨40, 30⟩ : Limits)) s) ∧
    ∃ n, outcome (apply 10 10 (.control .callWithEscape)
      [.closure 0 (.list 1 [.symbol "k"])
        (.list 2 [.symbol "+", .int 1, .list 3 [.symbol "k", .int 5]]) Machine.root] Machine.root)
      (Machine.start .zeros) = (.ok (.int 5), n) := by
  obtain ⟨_, _, histories, owner, _⟩ := escape_captured_only_from_transformer ⟨40, 30⟩
  constructor
  · obtain ⟨clean, _, unchecked⟩ := histories 0 .zeros
      [.eval "(define f (lambda (k) (+ 1 (k 5))))"] (.eval "(call/cc f)") (by decide +kernel)
    exact ⟨_, rfl, clean, unchecked⟩
  · refine ⟨_, owner 9 10 _ (.int 5) Machine.root (Machine.start .zeros) _ (fresh_clean 0 .zeros).holds rfl
      (fun _ => rfl) (by decide +kernel)⟩

end SmallLisp
