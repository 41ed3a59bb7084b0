import SmallLisp.Reader.Lexeme
import SmallLisp.Reader.Atom
import SmallLisp.SymbolTable
import SmallLisp.Text.Lines
/-!
Ports: a text that is read token by token and form by form, one line at a time. A string left open at
the end of its line stops the port for good: it keeps that line, and every later call fails in the
same way. The end of the text closes open lists.
-/
namespace SmallLisp.Reader

/-- The rest of the current line, the lines below it, and the table that symbols go into. -/
structure Port where
  line : List Char
  below : List (List Char)
  symbols : SymbolTable

namespace Port

def ofText (text : String) (symbols : SymbolTable) : Port :=
  ⟨[], Text.lines text.toList, symbols⟩

/-- The number of characters not yet read, counting the ends of lines. -/
def unread (p : Port) : Nat :=
  p.below.foldl (fun n l => n + l.length + 1) p.line.length

end Port

/-- What a line begins with, blanks apart. A comment leaves nothing. -/
inductive LineStart where
  | token (text rest : List Char)
  | openString (text : List Char)
  | nothing

def LineStart.ofLine (line : List Char) : LineStart :=
  match line.dropWhile Text.isBlank with
  | [] => .nothing
  | ';' :: _ => .nothing
  | ',' :: '@' :: rest => .token [',', '@'] rest
  | '"' :: rest =>
    match closeString? rest with
    | some (inside, rest) => .token ('"' :: inside) rest
    | none => .openString (Text.trim ('"' :: rest))
  | c :: rest =>
    if isPunctuation c then .token [c] rest
    else .token (c :: rest.takeWhile isAtomChar) (rest.dropWhile isAtomChar)

/-- A computation that reads from a port. The port it leaves is known also when it fails. -/
abbrev Reading := ExceptT Failure (StateM Port)

def nextTokenFrom (symbols : SymbolTable) :
    (below : List (List Char)) → (line : List Char) → Except Failure (Option String) × Port
  | below, line =>
    match LineStart.ofLine line, below with
    | .token text rest, below => (.ok (some (String.ofList text)), ⟨rest, below, symbols⟩)
    | .openString text, below =>
      (.error (.malformed (String.ofList text) .unterminatedString), ⟨line, below, symbols⟩)
    | .nothing, [] => (.ok none, ⟨[], [], symbols⟩)
    | .nothing, next :: below => nextTokenFrom symbols below next

/-- The next token, none at the end of the text. -/
def nextToken : Reading (Option String) := fun p =>
  nextTokenFrom p.symbols p.below p.line

/-- Enters a name into the port's table. -/
def record (name : String) : Reading Unit :=
  modify fun p => { p with symbols := (p.symbols.intern name).2 }

def readAtom (token : String) : Reading Datum := do
  let d ← (atom token : Except Failure Datum)
  if let .symbol name := d then record name
  return d

/-- Goes one level deeper if there is room. -/
def deeper (room : Nat) (go : Nat → Reading α) : Reading α :=
  match room with
  | 0 => throw .tooDeep
  | room + 1 => go room

mutual

/-- The form that begins with a token already read. -/
def readFrom : (fuel room : Nat) → String → Reading Datum
  | 0, _, _ => throw .tooDeep
  | fuel + 1, room, token =>
    if token = "(" then deeper room fun room => do return .list (← readItems fuel room)
    else if token = ")" then throw (.malformed ")" .unexpectedClose)
    else match quoteKeyword? token with
      | some keyword => deeper room fun room => do
        let some next ← nextToken | throw (.malformed token .nothingQuoted)
        let quoted ← readFrom fuel room next
        record keyword
        return .list [.symbol keyword, quoted]
      | none => readAtom token

/-- The items of an open list, up to its end or the end of the text. -/
def readItems : (fuel room : Nat) → Reading (List Datum)
  | 0, _ => throw .tooDeep
  | fuel + 1, room => do
    match ← nextToken with
    | none => return []
    | some token =>
      if token = ")" then return []
      let item ← readFrom fuel room token
      return item :: (← readItems fuel room)

end

/-- The next form, none at the end of the text. Every second call at least takes a character, so the
fuel never runs out. -/
def read (room : Nat) : Reading (Option Datum) := do
  let fuel := 2 * (← get).unread + 2
  match ← nextToken with
  | none => return none
  | some token => return some (← readFrom fuel room token)

/-- Repeats a step until it gives none or fails: what it gave, and the failure. -/
def collect (step : Reading (Option α)) : (fuel : Nat) → Port → List α × Option Failure
  | 0, _ => ([], none)
  | fuel + 1, p =>
    match step p with
    | (.error f, _) => ([], some f)
    | (.ok none, _) => ([], none)
    | (.ok (some a), p) =>
      let (as, f) := collect step fuel p
      (a :: as, f)

namespace Port

def tokens (p : Port) : List String × Option Failure :=
  collect nextToken (p.unread + 1) p

def forms (p : Port) (room : Nat) : List Datum × Option Failure :=
  collect (read room) (p.unread + 1) p

end Port

end SmallLisp.Reader
