import SmallLisp.Json
import SmallLisp.Failure
import SmallLisp.Number.Literal
import SmallLisp.Text.Surrogate
/-!
Reading JSON from one text, with the place of the first fault. Besides the standard's values the words
NaN, Infinity and -Infinity are numbers. Strings hold no raw control characters; a high surrogate joins a
low one that follows it, both being escaped.
-/
namespace SmallLisp.Json

inductive FaultKind where
  | value
  | comma
  | colon
  | name
  | openString
  | control
  | escape
  | hexEscape
  | extra
  | byteOrderMark
  deriving DecidableEq, Repr

def FaultKind.message : FaultKind → String
  | value => "Expecting value"
  | comma => "Expecting ',' delimiter"
  | colon => "Expecting ':' delimiter"
  | name => "Expecting property name enclosed in double quotes"
  | openString => "Unterminated string starting at"
  | control => "Invalid control character at"
  | escape => "Invalid \\escape"
  | hexEscape => "Invalid \\uXXXX escape"
  | extra => "Extra data"
  | byteOrderMark => "Unexpected UTF-8 BOM (decode using utf-8-sig)"

inductive Fault where
  | at (kind : FaultKind) (position : Nat)
  | longInteger (digits : Nat)
  | nesting
  deriving DecidableEq, Repr

/-- The text of a fault found in `source`, with the line and column of its place. -/
def Fault.message (source : List Char) : Fault → String
  | .at kind position =>
    let before := source.take position
    let line := before.count '\n' + 1
    let column := (before.reverse.takeWhile (· ≠ '\n')).length + 1
    kind.message ++ ": line " ++ toString line ++ " column " ++ toString column ++ " (char " ++
      toString position ++ ")"
  | .longInteger digits => longIntegerMessage (some digits)
  | .nesting => ""

/-- The text not yet read and the position of its first character. -/
structure Cursor where
  position : Nat
  rest : List Char

namespace Cursor

def advance (c : Cursor) (n : Nat) : Cursor :=
  ⟨c.position + n, c.rest.drop n⟩

def isSpace (c : Char) : Bool :=
  c == ' ' || c == '\t' || c == '\n' || c == '\r'

def skipSpace (c : Cursor) : Cursor :=
  c.advance (c.rest.takeWhile isSpace).length

end Cursor

def hexValue? (c : Char) : Option Nat :=
  if '0' ≤ c ∧ c ≤ '9' then some (c.toNat - '0'.toNat)
  else if 'a' ≤ c ∧ c ≤ 'f' then some (c.toNat - 'a'.toNat + 10)
  else if 'A' ≤ c ∧ c ≤ 'F' then some (c.toNat - 'A'.toNat + 10)
  else none

/-- The code unit of four hexadecimal digits; a character must follow them. -/
def codeUnit? : List Char → Option Nat
  | a :: b :: c :: d :: _ :: _ => do
    let a ← hexValue? a
    let b ← hexValue? b
    let c ← hexValue? c
    let d ← hexValue? d
    return ((a * 16 + b) * 16 + c) * 16 + d
  | _ => none

/-- The code point of an escape that follows `\u` at `position`, and how many characters it takes. -/
def hexEscape (position : Nat) (cs : List Char) : Except Fault (Text.CodePoint × Nat) :=
  match codeUnit? cs with
  | none => .error (.at .hexEscape position)
  | some unit =>
    if Text.isHighSurrogate unit then
      match cs.drop 4 with
      | '\\' :: 'u' :: more =>
        if more.length < 5 then .ok (Text.CodePoint.ofUnit unit, 4)
        else match codeUnit? more with
          | none => .error (.at .hexEscape (position + 6))
          | some low =>
            if Text.isLowSurrogate low then .ok (.char (Text.joinSurrogates unit low), 10)
            else .ok (Text.CodePoint.ofUnit unit, 4)
      | _ => .ok (Text.CodePoint.ofUnit unit, 4)
    else .ok (Text.CodePoint.ofUnit unit, 4)

def simpleEscape? (c : Char) : Option Char :=
  match c with
  | '"' => some '"'
  | '\\' => some '\\'
  | '/' => some '/'
  | 'b' => some '\x08'
  | 'f' => some '\x0c'
  | 'n' => some '\n'
  | 'r' => some '\r'
  | 't' => some '\t'
  | _ => none

/-- The string up to its closing quote, after the code points read before; `start` is the place of the
opening one. -/
def stringFrom (start : Nat) : (fuel : Nat) → List Text.CodePoint → Cursor → Except Fault (String × Cursor)
  | 0, _, _ => .error (.at .openString start)
  | fuel + 1, read, c =>
    match c.rest with
    | [] => .error (.at .openString start)
    | '"' :: _ => .ok (Text.ofPoints read.reverse, c.advance 1)
    | ['\\'] => .error (.at .openString start)
    | '\\' :: 'u' :: more => do
      let (point, n) ← hexEscape (c.position + 1) more
      stringFrom start fuel (point :: read) (c.advance (n + 2))
    | '\\' :: e :: _ =>
      match simpleEscape? e with
      | some char => stringFrom start fuel (.char char :: read) (c.advance 2)
      | none => .error (.at .escape c.position)
    | char :: _ =>
      if char.toNat < 0x20 then .error (.at .control c.position)
      else stringFrom start fuel (.char char :: read) (c.advance 1)

/-- The characters of a number: sign and whole part, fraction, exponent. A zero stands alone, and a
fraction or exponent without digits is left unread. -/
structure NumberParts where
  sign : List Char
  whole : List Char
  fraction : List Char
  exponent : List Char

namespace NumberParts

def text (p : NumberParts) : List Char :=
  p.sign ++ p.whole ++ p.fraction ++ p.exponent

def fractionOf : List Char → List Char
  | '.' :: cs => match cs.takeWhile Char.isDigit with
    | [] => []
    | ds => '.' :: ds
  | _ => []

def exponentOf : List Char → List Char
  | e :: cs =>
    if e = 'e' ∨ e = 'E' then
      let (sign, cs) := match cs with
        | '+' :: cs => (['+'], cs)
        | '-' :: cs => (['-'], cs)
        | cs => ([], cs)
      match cs.takeWhile Char.isDigit with
      | [] => []
      | ds => e :: (sign ++ ds)
    else []
  | [] => []

def ofText? (cs : List Char) : Option NumberParts :=
  let (sign, body) := match cs with
    | '-' :: cs => (['-'], cs)
    | cs => ([], cs)
  let whole := match body with
    | '0' :: _ => ['0']
    | body => body.takeWhile Char.isDigit
  if whole = [] then none else
    let fraction := fractionOf (body.drop whole.length)
    some ⟨sign, whole, fraction, exponentOf (body.drop (whole.length + fraction.length))⟩

def toJson (p : NumberParts) : Except Fault Json :=
  if p.fraction = [] ∧ p.exponent = [] then
    if digitLimit < p.whole.length then .error (.longInteger p.whole.length)
    else .ok (.int (Number.intOfDigits (p.sign ≠ []) p.whole))
  else match Number.decimalLiteral? p.text with
    | some d => .ok (.float d.toFloat)
    | none => .ok .null

end NumberParts

def words : List (String × Json) :=
  [("null", .null), ("true", .bool true), ("false", .bool false),
    ("NaN", .float Number.notANumber),
    ("Infinity", .float (Number.infinity false)), ("-Infinity", .float (Number.infinity true))]

/-- A value that is neither string, array nor object. -/
def scalar (c : Cursor) : Except Fault (Json × Cursor) :=
  match words.find? fun (word, _) => word.toList.isPrefixOf c.rest with
  | some (word, value) => .ok (value, c.advance word.length)
  | none => match NumberParts.ofText? c.rest with
    | some parts => do return (← parts.toJson, c.advance parts.text.length)
    | none => .error (.at .value c.position)

/-- Goes one level deeper if there is room. -/
def deeper (room : Nat) (go : Nat → Except Fault (α × Cursor)) : Except Fault (α × Cursor) :=
  match room with
  | 0 => .error .nesting
  | room + 1 => go room

def fueled (c : Cursor) : Nat :=
  c.rest.length + 1

mutual

def valueFrom : (fuel room : Nat) → Cursor → Except Fault (Json × Cursor)
  | 0, _, c => .error (.at .value c.position)
  | fuel + 1, room, c =>
    match c.rest with
    | '"' :: _ => do
      let (s, c) ← stringFrom c.position (fueled c) [] (c.advance 1)
      return (.string s, c)
    | '[' :: _ => deeper room fun room => do
      let c := (c.advance 1).skipSpace
      if c.rest.head? = some ']' then return (.array [], c.advance 1)
      let (items, c) ← itemsFrom fuel room c
      return (.array items, c)
    | '{' :: _ => deeper room fun room => do
      let c := (c.advance 1).skipSpace
      if c.rest.head? = some '}' then return (.object [], c.advance 1)
      let (members, c) ← membersFrom fuel room [] c
      return (.object members, c)
    | _ => scalar c

/-- The items of an array that is not empty, up to its closing bracket. -/
def itemsFrom : (fuel room : Nat) → Cursor → Except Fault (List Json × Cursor)
  | 0, _, c => .error (.at .value c.position)
  | fuel + 1, room, c => do
    let (item, c) ← valueFrom fuel room c
    let c := c.skipSpace
    match c.rest with
    | ']' :: _ => return ([item], c.advance 1)
    | ',' :: _ =>
      let (items, c) ← itemsFrom fuel room (c.advance 1).skipSpace
      return (item :: items, c)
    | _ => .error (.at .comma c.position)

/-- The members of an object that is not empty, after those read before, up to its closing brace. -/
def membersFrom : (fuel room : Nat) → List (String × Json) → Cursor →
    Except Fault (List (String × Json) × Cursor)
  | 0, _, _, c => .error (.at .name c.position)
  | fuel + 1, room, before, c => do
    if c.rest.head? ≠ some '"' then throw (.at .name c.position)
    let (name, c) ← stringFrom c.position (fueled c) [] (c.advance 1)
    let c := c.skipSpace
    if c.rest.head? ≠ some ':' then throw (.at .colon c.position)
    let (value, c) ← valueFrom fuel room (c.advance 1).skipSpace
    let members := putMember before name value
    let c := c.skipSpace
    match c.rest with
    | '}' :: _ => return (members, c.advance 1)
    | ',' :: _ => membersFrom fuel room members (c.advance 1).skipSpace
    | _ => .error (.at .comma c.position)

end

/-- The one value of a text, blanks around it. Each call takes a character or ends, so fuel beyond the
number of characters is never used. -/
def read (room : Nat) (source : List Char) : Except Fault Json := do
  if source.head? = some '\ufeff' then throw (.at .byteOrderMark 0)
  let c := (Cursor.mk 0 source).skipSpace
  let (value, c) ← valueFrom (2 * source.length + 2) room c
  let c := c.skipSpace
  if c.rest ≠ [] then throw (.at .extra c.position)
  return value

end SmallLisp.Json
