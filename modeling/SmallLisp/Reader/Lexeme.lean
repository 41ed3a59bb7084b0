import SmallLisp.Text.Blank
/-!
The classes of lexemes: punctuation, strings, comments and atoms. A string is closed on its line or
not at all; a backslash in it protects the next character.
-/
namespace SmallLisp.Reader

/-- Characters that end an atom and are no part of one, blanks apart. -/
def isDelimiter (c : Char) : Bool :=
  c == '(' || c == ')' || c == '\'' || c == '`' || c == ',' || c == '"' || c == ';'

def isAtomChar (c : Char) : Bool :=
  !Text.isBlank c && !isDelimiter c

/-- Characters that are a lexeme of their own. -/
def isPunctuation (c : Char) : Bool :=
  c == '(' || c == ')' || c == '\'' || c == '`' || c == ','

/-- Splits after the closing quote of a string whose opening quote has been read. -/
def closeString? : List Char → Option (List Char × List Char)
  | [] => none
  | '"' :: cs => some (['"'], cs)
  | '\\' :: c :: cs =>
    if c = '\n' then none
    else (closeString? cs).map fun (inside, rest) => ('\\' :: c :: inside, rest)
  | c :: cs =>
    if c = '\n' || c = '\\' then none
    else (closeString? cs).map fun (inside, rest) => (c :: inside, rest)

/-- The keyword that a quote marker stands for. -/
def quoteKeyword? (token : String) : Option String :=
  if token = "'" then some "quote"
  else if token = "`" then some "quasiquote"
  else if token = "," then some "unquote"
  else if token = ",@" then some "unquote-splicing"
  else none

end SmallLisp.Reader
