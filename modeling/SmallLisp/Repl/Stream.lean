import SmallLisp.Repl
import SmallLisp.Json.Reader
import SmallLisp.Json.Writer
import SmallLisp.Text.Lines
/-!
The request stream of one client: bytes that arrive in pieces, a request on each line. Every line that is
not blank is answered by one line, in order; bytes after the last newline wait for the rest of their
line. An empty piece ends the stream.
-/
namespace SmallLisp.Repl

def newline : UInt8 := 10

def isSpaceByte (b : UInt8) : Bool :=
  b == 32 || (9 ≤ b && b ≤ 13)

def stripBytes (bs : List UInt8) : List UInt8 :=
  ((bs.dropWhile isSpaceByte).reverse.dropWhile isSpaceByte).reverse

/-- Why a line holds no request. One that nests too deep to be read ends the stream. -/
inductive LineFault where
  | invalid (message : String)
  | tooDeep

def requestOf (room : Nat) (line : List UInt8) : Except LineFault Json :=
  match Text.Utf8.decode line with
  | .error fault => .error (.invalid fault.message)
  | .ok cs => match Json.read room cs with
    | .ok request => .ok request
    | .error .nesting => .error .tooDeep
    | .error fault => .error (.invalid (fault.message cs))

def respondToLine (engine : Engine) (line : List UInt8) : Session.Act Response := do
  match requestOf engine.nesting line with
  | .ok request => respond engine request
  | .error (.invalid message) => return .refused ("Invalid request: " ++ message)
  | .error .tooDeep => Session.fail .tooDeep

/-- The answer to a line, none to a blank one. -/
def answerLine (engine : Engine) (line : List UInt8) : Session.Act String := do
  let line := stripBytes line
  if line.isEmpty then return ""
  return (← respondToLine engine line).toJson.text ++ "\n"

/-- Answers the lines that a piece completes: what is sent, and the bytes that wait. -/
def feed (engine : Engine) (waiting piece : List UInt8) : Session.Act (String × List UInt8) := do
  let parts := Text.splitAt newline (waiting ++ piece)
  let answers ← parts.dropLast.mapM (answerLine engine)
  return (String.join answers, parts.getLastD [])

/-- Everything sent to a client whose bytes arrive in these pieces. -/
def serve (engine : Engine) : (waiting : List UInt8) → List (List UInt8) → Session.Act String
  | _, [] => return ""
  | waiting, piece :: pieces => do
    if piece.isEmpty then return ""
    let (sent, waiting) ← feed engine waiting piece
    return sent ++ (← serve engine waiting pieces)

/-- A session and the text that its client has been sent. -/
structure Connection where
  session : Session
  sent : String

abbrev Connection.Act := ExceptT Halt (StateM Connection)

/-- Answers a line; what is answered is sent at once. -/
def sendLine (engine : Engine) (line : List UInt8) : Connection.Act Unit := fun c =>
  match answerLine engine line c.session with
  | (.ok text, s) => (.ok (), ⟨s, c.sent ++ text⟩)
  | (.error halt, s) => (.error halt, ⟨s, c.sent⟩)

/-- Answers lines one after another. -/
def sendLines (engine : Engine) : List (List UInt8) → Connection.Act Unit
  | [] => pure ()
  | line :: lines => do
    sendLine engine line
    sendLines engine lines

/-- Answers a client whose bytes arrive in these pieces. -/
def converse (engine : Engine) :
    (waiting : List UInt8) → List (List UInt8) → Connection.Act Unit
  | _, [] => pure ()
  | waiting, piece :: pieces => do
    if piece.isEmpty then return ()
    let parts := Text.splitAt newline (waiting ++ piece)
    sendLines engine parts.dropLast
    converse engine (parts.getLastD []) pieces

end SmallLisp.Repl
