import SmallLisp.Session
import SmallLisp.Json.Inspect
/-!
Requests to a session. A request is an object whose `cmd` is "eval" and whose `code` is the text to
evaluate; every request has one response, with the lines displayed while it was answered. A request
that is refused leaves the session as it was.
-/
namespace SmallLisp.Repl

/-- The printed value or the error, and the lines displayed. -/
structure Response where
  result : Except String String
  output : List String

namespace Response

def refused (error : String) : Response :=
  ⟨.error error, []⟩

def toJson (r : Response) : Json :=
  let outcome := match r.result with
    | .ok text => [("ok", Json.bool true), ("result", .string text)]
    | .error text => [("ok", Json.bool false), ("error", .string text)]
  .object (outcome ++ [("output", .array (r.output.map .string))])

end Response

def isEval : Option Json → Bool
  | some (.string s) => s == "eval"
  | _ => false

/-- The text to evaluate; a request without one means the empty text. -/
def codeOf (request : Json) : Except Failure String :=
  match request.member? "code" with
  | none => .ok ""
  | some (.string code) => .ok code
  | some other => .error (.notText other.kindName)

def evalPrinted (engine : Engine) (request : Json) : Session.Act String := do
  match codeOf request with
  | .ok code => Session.printed engine (← Session.eval engine code)
  | .error f => Session.fail f

/-- The outcome of a computation, a failure being one. -/
def outcome (action : Session.Act String) : Session.Act (Except String String) := fun s =>
  match action s with
  | (.ok text, s) => (.ok (.ok text), s)
  | (.error (.failed f), s) => (.ok (.error f.report), s)
  | (.error .outOfSteps, s) => (.error .outOfSteps, s)

def evaluated (engine : Engine) (request : Json) : Session.Act Response := do
  let _ ← Session.takeOutput
  let result ← outcome (evalPrinted engine request)
  return ⟨result, ← Session.takeOutput⟩

def respond (engine : Engine) (request : Json) : Session.Act Response := do
  match request with
  | .object _ =>
    let command := request.member? "cmd"
    if isEval command then evaluated engine request
    else return .refused ("Unknown cmd: " ++ (command.getD .null).bare)
  | _ => return .refused "Invalid request: expected a JSON object"

end SmallLisp.Repl
