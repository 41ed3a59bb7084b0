import SmallLisp.Repl
import SmallLisp.Proofs.Outcome
import SmallLisp.Proofs.StoredValues
/-!
# Requests and commands

What a session is asked to do. A request has a text, to evaluate, load or parse; a command is the start with a
prelude, a request, or one that a client has sent. A command that fails leaves the session as it was when it failed, and
the session goes on.
-/
namespace SmallLisp

open Run

namespace Session

/-- A request with a text. -/
inductive Request where
  | eval (code : String)
  | load (code : String)
  | parse (code : String)

inductive Answer where
  | value (v : Value)
  | text (line : String)
  | cores (forms : List Value)

/-- One form of a text is expanded and evaluated, by any evaluation of the top-level forms. -/
def evalForm (top : Value → Act Value) (engine : Engine) (form : Value) : Act Value := do
  top (← expand engine form true)

/-- The same, with the core form kept. -/
def loadForm (top : Value → Act Value) (engine : Engine) (form : Value) : Act (Value × Value) := do
  let core ← expand engine form true
  return (core, ← top core)

/-- What loading a text shows for its last form. -/
def loadedText (engine : Engine) : Option (Value × Value) → Act String
  | none => return failureText
  | some (_, .unspecified) => return noValue
  | some (core, v) =>
    if Form.isHeadedBy "define" core then return noValue else printed engine v

def evalBy (top : Value → Act Value) (engine : Engine) (code : String) : Act Value :=
  foldForms engine (fun _ => evalForm top engine) .unspecified code

def loadBy (top : Value → Act Value) (engine : Engine) (code : String) : Act String := do
  loadedText engine
    (← reporting (foldForms engine (fun _ => loadForm top engine) (.unspecified, .unspecified) code))

def parseForm (engine : Engine) (cores : List Value) (form : Value) : Act (List Value) :=
  return (← expand engine form true) :: cores

def Request.serveBy (top : Value → Act Value) (engine : Engine) : Request → Act Answer
  | eval code => return .value (← evalBy top engine code)
  | load code => return .text (← loadBy top engine code)
  | parse code => return .cores (← Session.parse engine code)

def Request.serve (engine : Engine) : Request → Act Answer
  | eval code => return .value (← Session.eval engine code)
  | load code => return .text (← Session.load engine code)
  | parse code => return .cores (← Session.parse engine code)

theorem Request.serve_eq (engine : Engine) (request : Request) :
    request.serve engine = request.serveBy (evaluate engine) engine := by
  cases request with
  | eval code => rfl
  | load code => rfl
  | parse code => rfl

/-- A top-level step: the start with a prelude, a request with a text, a request of a client. -/
inductive Command where
  | start (choice : PreludeChoice) (vars : Settings.Variables) (files : Settings.Files)
  | serve (request : Request)
  | respond (request : Json)

inductive Reply where
  | started
  | answer (answer : Answer)
  | response (response : Repl.Response)

def Command.perform (engine : Engine) : Command → Act Reply
  | start choice vars files => do
    Session.start engine choice vars files
    return .started
  | serve request => return .answer (← request.serve engine)
  | respond request => return .response (← Repl.respond engine request)

/-- The session after some commands, however each of them ends. -/
def performed (engine : Engine) (s : Session) : List Command → Session
  | [] => s
  | command :: rest => performed engine (outcome (command.perform engine) s).2 rest

section Outcomes

variable {α : Type}

theorem outcome_run (a : Run α) (s : Session) :
    outcome (run a) s =
      ((outcome a s.machine).1, { s with machine := (outcome a s.machine).2 }) := rfl

theorem outcome_reporting (a : Act α) (s : Session) :
    outcome (reporting a) s = match outcome a s with
      | (.ok x, t) => (.ok (some x), t)
      | (.error (.failed f), t) => outcome (run (writeLine f.report) >>= fun _ => pure none) t
      | (.error .outOfSteps, t) => (.error .outOfSteps, t) := rfl

/-- A failure becomes a text, unless the steps have run out. -/
theorem outcome_reported (a : Act String) (s : Session) :
    outcome (Repl.outcome a) s = match outcome a s with
      | (.ok text, t) => (.ok (.ok text), t)
      | (.error (.failed f), t) => (.ok (.error f.report), t)
      | (.error .outOfSteps, t) => (.error .outOfSteps, t) := rfl

end Outcomes

/-- A fresh session binds the built-in procedures and nothing else. -/
theorem mem_fresh_bindings {table : Nat} {draws : Draws} {f : FrameId} {b : Binding}
    (mem : b ∈ (fresh table draws).machine.frames.bindingsOf f) :
    ∃ named ∈ Machine.builtins, .ofName named.1 named.2 = b := by
  have root : (fresh table draws).machine.frames.bindingsOf f =
      if f = 0 then Machine.builtins.map fun named => .ofName named.1 named.2 else [] := by
    refine (Frames.bindingsOf_new _ _ _ _).trans ?_
    split
    · rename_i here
      exact (if_pos here).symm
    · rename_i other
      exact (if_neg other).symm
  rw [root] at mem
  split at mem
  · exact List.mem_map.mp mem
  · cases mem

end Session

end SmallLisp
