import SmallLisp.Reader.Lexeme
/-!
The scan of a document: its lexemes with their places, comments and blanks left out. The scan reads the
text as a whole and refuses nothing; a string left open at the end of its line is a lexeme of its own
kind.
-/
namespace SmallLisp.Editor

/-- A place in a document, lines and columns counted from zero. -/
structure Position where
  line : Nat
  column : Nat
  deriving DecidableEq, Repr

namespace Position

def right (p : Position) (n : Nat) : Position :=
  ⟨p.line, p.column + n⟩

/-- The place after a character. -/
def after (p : Position) (c : Char) : Position :=
  if c = '\n' then ⟨p.line + 1, 0⟩ else p.right 1

/-- The place after a text. -/
def afterText (cs : List Char) : Position :=
  cs.foldl after ⟨0, 0⟩

end Position

structure Lexeme where
  text : List Char
  place : Position
  isOpenString : Bool
  deriving DecidableEq, Repr

namespace Lexeme

def isOpen (t : Lexeme) : Bool :=
  t.text == ['(']

def isClose (t : Lexeme) : Bool :=
  t.text == [')']

def isString (t : Lexeme) : Bool :=
  t.text.head? == some '"'

end Lexeme

def notNewline (c : Char) : Bool :=
  c != '\n'

/-- The text of the lexeme that a character begins, neither a blank nor the start of a comment. -/
def lexemeText (c : Char) (rest : List Char) : List Char × Bool :=
  if c = '"' then
    match Reader.closeString? rest with
    | some (inside, _) => ('"' :: inside, false)
    | none => ('"' :: rest.takeWhile notNewline, true)
  else if c = ',' ∧ rest.head? = some '@' then ([',', '@'], false)
  else if Reader.isPunctuation c then ([c], false)
  else (c :: rest.takeWhile Reader.isAtomChar, false)

/-- Every round takes a character, so a text has no more rounds than characters. -/
def scanFrom : (fuel : Nat) → Position → List Char → List Lexeme
  | 0, _, _ => []
  | _, _, [] => []
  | fuel + 1, place, c :: rest =>
    if Text.isBlank c then scanFrom fuel (place.after c) rest
    else if c = ';' then
      let comment := rest.takeWhile notNewline
      scanFrom fuel (place.right (comment.length + 1)) (rest.drop comment.length)
    else
      let (text, isOpenString) := lexemeText c rest
      ⟨text, place, isOpenString⟩ ::
        scanFrom fuel (place.right text.length) (rest.drop (text.length - 1))

def scan (cs : List Char) : List Lexeme :=
  scanFrom cs.length ⟨0, 0⟩ cs

end SmallLisp.Editor
