import SmallLisp.Machine
import SmallLisp.Number.Arithmetic
/-!
What primitives ask of their operands: their number, and that they are numbers or lists. The first
operand that does not fit is the one named in the failure.
-/
namespace SmallLisp

namespace Value

def number? : Value → Option Number
  | int n => some (.int n)
  | float x => some (.float x)
  | nan _ => some (.float Number.notANumber)
  | _ => none

end Value

namespace Run

def requireArity (name : String) (expected : Nat) (args : List Value) : Run Unit :=
  if args.length = expected then pure () else fail (.arity expected args.length name)

def oneOperand (name : String) : List Value → Run Value
  | [v] => pure v
  | args => fail (.arity 1 args.length name)

def twoOperands (name : String) : List Value → Run (Value × Value)
  | [v, w] => pure (v, w)
  | args => fail (.arity 2 args.length name)

def numbers (room : Nat) (name : String) : List Value → Run (List Number)
  | [] => pure []
  | v :: vs => do
    match v.number? with
    | some x => return x :: (← numbers room name vs)
    | none => fail (.type (.notNumber name (← source room v)))

/-- The operands with the numbers that they are. -/
def numbered (room : Nat) (name : String) (args : List Value) : Run (List (Number × Value)) := do
  return (← numbers room name args).zip args

def listOperand (room : Nat) (name : String) : Value → Run (List Value)
  | .list _ items => pure items
  | v => do fail (.type (.notList name (← source room v)))

/-- The value of a number; one that is none is a new object. -/
def newNumber : Number → Run Value
  | .int n => return .int n
  | .float x => do if x.isNaN then return .nan (← newObject) else return .float x

def ofOverflow : Except Overflow α → Run α
  | .ok a => pure a
  | .error cause => fail (.overflow cause)

end Run

end SmallLisp
