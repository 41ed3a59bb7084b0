import SmallLisp.Failure
import SmallLisp.Number.Binary64
/-!
Numbers are unbounded integers and doubles. Integers stay exact until they meet a double; a comparison is
exact whatever the two kinds are.
-/
namespace SmallLisp

inductive Number where
  | int (n : Int)
  | float (x : Float)

namespace Number

def toFloat : Number → Except Overflow Float
  | int n => match floatOfInt? n with
    | some x => .ok x
    | none => .error .integer
  | float x => .ok x

/-- Works on integers when both are, else on doubles. -/
def combine (onInts : Int → Int → Int) (onFloats : Float → Float → Float) (a b : Number) :
    Except Overflow Number :=
  match a, b with
  | int m, int n => .ok (int (onInts m n))
  | a, b => do return float (onFloats (← a.toFloat) (← b.toFloat))

def add : Number → Number → Except Overflow Number :=
  combine (· + ·) (· + ·)

def sub : Number → Number → Except Overflow Number :=
  combine (· - ·) (· - ·)

def mul : Number → Number → Except Overflow Number :=
  combine (· * ·) (· * ·)

def isNaN : Number → Bool
  | int _ => false
  | float x => x.isNaN

def neg : Number → Number
  | int n => int (-n)
  | float x => float (-x)

/-- Adds from left to right, from the integer zero on. -/
def sum (xs : List Number) : Except Overflow Number :=
  xs.foldlM add (int 0)

/-- Multiplies from left to right, from the integer one on. -/
def product (xs : List Number) : Except Overflow Number :=
  xs.foldlM mul (int 1)

inductive DivisionFault where
  | zero
  | overflow (cause : Overflow)

/-- The double nearest to the quotient of two integers. A zero quotient keeps the sign that the
operands give it. -/
def divInts (m n : Int) : Except DivisionFault Number :=
  if n = 0 then .error .zero
  else match Ratio.toFloat? ((m < 0) != (n < 0)) ⟨m.natAbs, n.natAbs⟩ with
    | some x => .ok (float x)
    | none => .error (.overflow .quotient)

def div (a b : Number) : Except DivisionFault Number :=
  match a, b with
  | int m, int n => divInts m n
  | a, b =>
    match a.toFloat, b.toFloat with
    | .ok x, .ok y => if y == 0 then .error .zero else .ok (float (x / y))
    | _, _ => .error (.overflow .integer)

/-- Compares an integer with m · 2 ^ e. -/
def compareScaled (n m : Int) (e : Int) : Ordering :=
  if 0 ≤ e then compare n (m * twoTo e.toNat) else compare (n * twoTo (-e).toNat) m

/-- Nothing compares with a number that is none. -/
def compareIntFloat (n : Int) (x : Float) : Option Ordering :=
  match Binary64.ofFloat x with
  | .nan => none
  | .infinite negative => some (if negative then .gt else .lt)
  | .finite negative m e => some (compareScaled n (if negative then -(m : Int) else m) e)

def compareFloats (x y : Float) : Option Ordering :=
  if x < y then some .lt else if x == y then some .eq else if y < x then some .gt else none

def compare? : Number → Number → Option Ordering
  | int m, int n => some (compare m n)
  | int n, float x => compareIntFloat n x
  | float x, int n => (compareIntFloat n x).map Ordering.swap
  | float x, float y => compareFloats x y

def greater (a b : Number) : Bool :=
  a.compare? b == some .gt

end Number

end SmallLisp
