import SmallLisp.Primitive.Operands
import SmallLisp.Value.Equality
/-!
The primitives on lists, the equalities, predicates and output. Every list that a primitive makes is a new
object.
-/
namespace SmallLisp.Primitive

open Run

def runNot (args : List Value) : Run Value := do
  return .bool (← oneOperand "not" args).isFalse

def runSame (args : List Value) : Run Value := do
  let (v, w) ← twoOperands "eq?" args
  return .bool (v.same w)

def runEqual (room : Nat) (args : List Value) : Run Value := do
  let (v, w) ← twoOperands "equal?" args
  match v.equal? room w with
  | some b => return .bool b
  | none => fail .tooDeep

def runCons (room : Nat) (args : List Value) : Run Value := do
  let (head, tail) ← twoOperands "cons" args
  newList (head :: (← listOperand room "cons" tail))

def runCar (room : Nat) (args : List Value) : Run Value := do
  match ← listOperand room "car" (← oneOperand "car" args) with
  | [] => fail (.type (.emptyList "car"))
  | head :: _ => return head

def runCdr (room : Nat) (args : List Value) : Run Value := do
  match ← listOperand room "cdr" (← oneOperand "cdr" args) with
  | [] => fail (.type (.emptyList "cdr"))
  | _ :: tail => newList tail

def runAppend (room : Nat) (args : List Value) : Run Value := do
  newList (← args.mapM (listOperand room "append")).flatten

def runLength (room : Nat) (args : List Value) : Run Value := do
  match ← oneOperand "length" args with
  | .list _ items => return .int items.length
  | .string s => return .int (Text.points s).length
  | v => fail (.type (.notListOrString (← source room v)))

/-- Strings are displayed bare, other values in source form. -/
def runDisplay (room : Nat) (args : List Value) : Run Value := do
  match ← oneOperand "display" args with
  | .string s => writeLine s
  | v => writeLine (← source room v)
  return .unspecified

def runIsKind (k : Kind) (args : List Value) : Run Value := do
  return .bool ((← oneOperand k.name args).hasKind k)

end SmallLisp.Primitive
