import SmallLisp.Failure
import SmallLisp.Text.Lines
/-!
The word at a cursor: the longest run around it, in its row, that is free of blanks, tabs, parentheses and
row ends.
-/
namespace SmallLisp.Editor

def isWordChar (c : Char) : Bool :=
  !(c == ' ' || c == '\t' || c == '(' || c == ')' || c == '\n' || c == '\r')

/-- The run of word characters that ends at the end of a text. -/
def runBefore (cs : List Char) : List Char :=
  (cs.reverse.takeWhile isWordChar).reverse

/-- The run around a place in a row. -/
def runAround (row : List Char) (column : Nat) : List Char :=
  runBefore (row.take column) ++ (row.drop column).takeWhile isWordChar

/-- The word at a cursor, if there is one. A cursor beyond the end of its row is refused. -/
def wordAt (text : String) (line column : Nat) : Except Failure (Option String) :=
  match (Text.rows text.toList)[line]? with
  | none => .ok none
  | some row =>
    if row.length < column then .error .stringIndex
    else
      match runAround row column with
      | [] => .ok none
      | run => .ok (some (String.ofList run))

end SmallLisp.Editor
