import SmallLisp.Evaluation
import SmallLisp.Prelude
import SmallLisp.Reader.Port
import SmallLisp.Settings
/-!
Sessions: one symbol table and one machine, kept from text to text. The forms of a text are read one at a
time, each expanded and evaluated before the next is read, so a failure leaves what came before it
done.
-/
namespace SmallLisp

structure Session where
  symbols : SymbolTable
  machine : Machine

/-- A computation on a session. -/
abbrev Session.Act := ExceptT Halt (StateM Session)

namespace Session

def fail (f : Failure) : Act α :=
  throw (.failed f)

def run (action : Run α) : Act α := fun s =>
  let (result, machine) := action s.machine
  (result, { s with machine := machine })

/-- The value of a datum, its lists new objects. -/
def instantiate (d : Datum) : Act Value :=
  run <| modifyGet fun m =>
    let (v, next) := Value.ofDatum d m.nextObject
    (v, { m with nextObject := next })

/-- Expands a form read from a text. -/
def expand (engine : Engine) (form : Value) (toplevel : Bool) : Act Value :=
  run (engine.calls.expand engine.nesting form toplevel)

/-- Evaluates a core form in the root frame, where every escape must have ended. -/
def evaluate (engine : Engine) (core : Value) : Act Value := do
  let v ← run (engine.calls.evaluate engine.nesting core Machine.root)
  if v.isEscape then fail .escapedSession
  return v

/-- The next form of a port; the symbols it meets are entered into the session's table. -/
def readForm (engine : Engine) (port : Reader.Port) : Act (Option Value × Reader.Port) := do
  let (result, port) := Reader.read engine.nesting { port with symbols := (← get).symbols }
  modify fun s => { s with symbols := port.symbols }
  match result with
  | .error f => fail f
  | .ok none => return (none, port)
  | .ok (some d) => return (some (← instantiate d), port)

/-- Folds a step over the forms of a port. A form takes characters, so fuel beyond their number is
never used. -/
def foldPort (engine : Engine) (step : α → Value → Act α) : (fuel : Nat) → Reader.Port → α → Act α
  | 0, _, a => return a
  | fuel + 1, port, a => do
    match ← readForm engine port with
    | (none, _) => return a
    | (some form, port) => foldPort engine step fuel port (← step a form)

def foldForms (engine : Engine) (step : α → Value → Act α) (init : α) (code : String) : Act α := do
  let port := Reader.Port.ofText code (← get).symbols
  foldPort engine step (port.unread + 1) port init

/-- The value of the last form of a text. -/
def eval (engine : Engine) (code : String) : Act Value :=
  foldForms engine (fun _ form => do evaluate engine (← expand engine form true)) .unspecified code

/-- The core forms of a text, none of them evaluated; transformers are registered. -/
def parse (engine : Engine) (code : String) : Act (List Value) := do
  let cores ← foldForms engine
    (fun cores form => return (← expand engine form true) :: cores) [] code
  return cores.reverse

/-- The core forms of a text, expanded as at the top level or as inside a form. -/
def expandAll (engine : Engine) (toplevel : Bool) (code : String) : Act (List Value) := do
  let cores ← foldForms engine
    (fun cores form => return (← expand engine form toplevel) :: cores) [] code
  return cores.reverse

/-- The value of the last form of a text, no form being expanded. -/
def evalRaw (engine : Engine) (code : String) : Act Value :=
  foldForms engine (fun _ form => evaluate engine form) .unspecified code

def printed (engine : Engine) (v : Value) : Act String :=
  run (Run.source engine.nesting v)

def noValue : String := "!undefined"

def failureText : String := "*** ERROR ***"

/-- Evaluates a text; a failure is written as a line of output. -/
def reporting (action : Act α) : Act (Option α) := fun s =>
  match action s with
  | (.ok a, s) => (.ok (some a), s)
  | (.error (.failed f), s) => (run (Run.writeLine f.report) >>= fun _ => return none) s
  | (.error .outOfSteps, s) => (.error .outOfSteps, s)

/-- Evaluates a text and gives the outcome as text: that of the last value, unless the last form has
none or is a definition, or a fixed text after a failure. -/
def load (engine : Engine) (code : String) : Act String := do
  let step (_ : Value × Value) (form : Value) : Act (Value × Value) := do
    let core ← expand engine form true
    return (core, ← evaluate engine core)
  match ← reporting (foldForms engine step (.unspecified, .unspecified) code) with
  | none => return failureText
  | some (_, .unspecified) => return noValue
  | some (core, v) =>
    if Form.isHeadedBy "define" core then return noValue else printed engine v

/-- The lines written since they were last taken. -/
def takeOutput : Act (List String) :=
  modifyGet fun s =>
    (s.machine.output.toList, { s with machine := { s.machine with output := #[] } })

/-- Which prelude a session starts with. -/
inductive PreludeChoice where
  | configured
  | none
  | text (code : String)

/-- The prelude's text. A configured prelude that cannot be found is left out. -/
def preludeText (choice : PreludeChoice) (vars : Settings.Variables) (files : Settings.Files) :
    Except Failure String :=
  match choice with
  | .configured => do return (← Settings.prelude? vars files).getD ""
  | .none => .ok ""
  | .text code => .ok code

def fresh (table : Nat) (draws : Draws) : Session :=
  ⟨⟨table, []⟩, .start draws⟩

/-- The files of an installation: the bundled prelude, and nothing else. -/
def bundledFiles : Settings.Files where
  isDirectory path := .ok (path == Settings.bundledDirectory)
  isFile path := .ok (path == Settings.bundledDirectory.child "core.scm")
  read _ := .ok Prelude.text

/-- Brings a fresh session to its start: its prelude is evaluated. -/
def start (engine : Engine) (choice : PreludeChoice) (vars : Settings.Variables)
    (files : Settings.Files) : Act Unit := do
  match preludeText choice vars files with
  | .error f => fail f
  | .ok code => let _ ← eval engine code

/-- The names bound in the root frame. -/
def rootNames (s : Session) : List String :=
  (s.machine.frames.bindingsOf Machine.root).filterMap (·.key.name?)

def transformerNames (s : Session) : List String :=
  s.machine.transformers.filterMap (·.key.name?)

end Session

end SmallLisp
