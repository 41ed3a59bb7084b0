import SmallLisp.Datum
import SmallLisp.Failure
import SmallLisp.Number.Literal
/-!
Atoms: the datum that a token stands for when it is neither a parenthesis nor a quote marker. A string
token loses its first and last character and is otherwise taken as it is.
-/
namespace SmallLisp.Reader

open Number

/-- An integer literal with too many digits fails; leading zeros count. -/
def integerAtom (negative : Bool) (digits : List Char) : Except Failure Datum :=
  if digitLimit < digits.length then .error (.longInteger (some digits.length))
  else .ok (.int (intOfDigits negative digits))

def atom (token : String) : Except Failure Datum :=
  let cs := token.toList
  if token = "#t" then .ok (.bool true)
  else if token = "#f" then .ok (.bool false)
  else if cs.head? = some '"' then .ok (.string (String.ofList (cs.drop 1).dropLast))
  else match integerLiteral? cs with
    | some (negative, digits) => integerAtom negative digits
    | none => match decimalLiteral? cs with
      | some d => .ok (.float d.toFloat)
      | none => .ok (.symbol token)

end SmallLisp.Reader
