import SmallLisp.Primitive.Operands
import SmallLisp.Number.Elementary
import SmallLisp.Number.Norm
/-!
The numeric primitives.
-/
namespace SmallLisp

namespace Comparison

/-- Whether two numbers that compare so satisfy the comparison; without an order none holds. -/
def holds : Comparison → Option Ordering → Bool
  | equal, o => o == some .eq
  | less, o => o == some .lt
  | greater, o => o == some .gt
  | atMost, o => o == some .lt || o == some .eq
  | atLeast, o => o == some .gt || o == some .eq

/-- Whether each number satisfies the comparison with the next. -/
def chain (c : Comparison) : List Number → Bool
  | x :: y :: rest => c.holds (x.compare? y) && c.chain (y :: rest)
  | _ => true

end Comparison

namespace Primitive

open Run

def runAdd (room : Nat) (args : List Value) : Run Value := do
  newNumber (← ofOverflow (Number.sum (← numbers room "+" args)))

def runMultiply (room : Nat) (args : List Value) : Run Value := do
  newNumber (← ofOverflow (Number.product (← numbers room "*" args)))

def runSubtract (room : Nat) (args : List Value) : Run Value := do
  match ← numbers room "-" args with
  | [] => fail (.arity 1 0 "-")
  | [x] => newNumber x.neg
  | x :: xs => newNumber (← ofOverflow (xs.foldlM Number.sub x))

def ofDivision : Except Number.DivisionFault Number → Run Number
  | .ok x => pure x
  | .error .zero => fail (.type .divisionByZero)
  | .error (.overflow cause) => fail (.overflow cause)

def runDivide (room : Nat) (args : List Value) : Run Value := do
  match ← numbers room "/" args with
  | [] => fail (.arity 1 0 "/")
  | [x] => newNumber (← ofDivision ((Number.int 1).div x))
  | x :: xs => newNumber (← ofDivision (xs.foldlM Number.div x))

def runCompare (c : Comparison) (room : Nat) (args : List Value) : Run Value := do
  return .bool (c.chain (← numbers room c.name args))

def ofMath (name : String) : Except MathFault Number → Run Value
  | .ok x => newNumber x
  | .error fault => fail (.type (.math name fault))

/-- What is no number is its own sign. A failure to show the offending operand is reported as one of the function. -/
def runElementary (f : Elementary) (room : Nat) (args : List Value) : Run Value := do
  let v ← oneOperand f.name args
  match v.number? with
  | some x => if f = .sign ∧ x.isNaN then return v else ofMath f.name (f.apply x)
  | none =>
    match v.text? (← get).isLive room .source with
    | .ok shown => fail (.type (.notNumber f.name shown))
    | .error (.longInteger _) => fail (.type (.unwritable f.name))
    | .error failure => fail failure

def runPower (room : Nat) (args : List Value) : Run Value := do
  let (v, w) ← twoOperands "pow" args
  match ← numbers room "pow" [v, w] with
  | [x, y] => ofMath "pow" (x.power y)
  | _ => fail (.arity 2 args.length "pow")

def floats (xs : List Number) : Run (List Float) :=
  ofOverflow (xs.mapM Number.toFloat)

def runAtan2 (room : Nat) (args : List Value) : Run Value := do
  requireArity "atan2" 2 args
  match ← floats (← numbers room "atan2" args) with
  | [y, x] => newNumber (.float (Float.atan2 y x))
  | _ => fail (.arity 2 args.length "atan2")

def runHypotenuse (room : Nat) (args : List Value) : Run Value := do
  newNumber (.float (Number.hypotenuse (← floats (← numbers room "hypot" args))))

/-- The first operand that no other beats. -/
def runExtreme (name : String) (beats : Number → Number → Bool) (room : Nat) (args : List Value) :
    Run Value := do
  match ← numbered room name args with
  | [] => fail (.arity 1 0 name)
  | x :: xs => return (xs.foldl (fun best x => if beats x.1 best.1 then x else best) x).2

def runRandom (args : List Value) : Run Value := do
  requireArity "random" 0 args
  return .float (← draw).value

end Primitive

end SmallLisp
