import SmallLisp.Number.NearZero
import SmallLisp.Number.Power
import SmallLisp.Primitive
/-!
The functions of one number. Rounding functions, `abs` and `sign` give integers for integers; the others
work on doubles. A result that is no number although the argument is, or infinite although the argument
is not, is a fault: of range for the functions that grow like the exponential, else of domain.
-/
namespace SmallLisp.Number

def onFloat (f : Float → Except MathFault Number) (x : Number) : Except MathFault Number :=
  match x.toFloat with
  | .ok x => f x
  | .error cause => .error (.overflow cause)

/-- A function of doubles with the fault of an infinite result. -/
def real (infinite : MathFault) (f : Float → Float) : Number → Except MathFault Number :=
  onFloat fun x =>
    let r := f x
    if r.isNaN && !x.isNaN then .error .domain
    else if r.isInf && x.isFinite then .error infinite
    else .ok (float r)

/-- Rounds m · 2 ^ e to an integer by a division of integers. -/
def roundWith (divide : Int → Int → Int) (x : Float) : Except MathFault Number :=
  match Binary64.ofFloat x with
  | .nan => .error .nan
  | .infinite _ => .error .infinity
  | .finite negative m e =>
    let n : Int := if negative then -(m : Int) else m
    .ok (int (if 0 ≤ e then n * twoTo e.toNat else divide n (twoTo (-e).toNat)))

def ceilDiv (m n : Int) : Int :=
  -((-m).fdiv n)

/-- Integers are whole already. -/
def whole (divide : Int → Int → Int) : Number → Except MathFault Number
  | int n => .ok (int n)
  | float x => roundWith divide x

/-- The integer below x + 1/2, the sum taken in doubles: halves go up. -/
def halfUp : Number → Except MathFault Number :=
  onFloat fun x => roundWith Int.fdiv (x + 0.5)

/-- Zero, and what is no number, has itself as its sign. -/
def sign : Number → Except MathFault Number
  | int n =>
    if n = 0 then .ok (int 0)
    else onFloat (fun _ => .ok (int (if 0 < n then 1 else -1))) (int n)
  | float x =>
    .ok (if x == 0 || x.isNaN then float x else int (if 0 < x then 1 else -1))

def absolute : Number → Number
  | int n => int n.natAbs
  | float x => float x.abs

/-- The power of |x| to the double nearest to a third, with the sign of x. -/
def cubeRoot : Number → Except MathFault Number :=
  onFloat fun x => do return float (withSign (← powFloats x.abs (1.0 / 3.0)) x)

/-- The logarithm of a large integer n through n = m · 2 ^ e with m from 1/2 to 1. -/
def logarithmOfLarge (f : Float → Float) (n : Nat) : Float :=
  let e := n.log2 + 1
  let m := (Ratio.toFloat? false ⟨n, twoTo e⟩).getD 1
  if m == 1 then f 0.5 + f 2.0 * Float.ofNat (e + 1) else f m + f 2.0 * Float.ofNat e

def logarithm (f : Float → Float) : Number → Except MathFault Number
  | int n =>
    if n ≤ 0 then .error .domain
    else match floatOfInt? n with
      | some x => .ok (float (f x))
      | none => .ok (float (logarithmOfLarge f n.toNat))
  | x => real .domain f x

end Number

def Elementary.apply : Elementary → Number → Except MathFault Number
  | abs => fun x => .ok x.absolute
  | acos => Number.real .domain Float.acos
  | acosh => Number.real .domain Float.acosh
  | asin => Number.real .domain Float.asin
  | asinh => Number.real .domain Float.asinh
  | atan => Number.real .domain Float.atan
  | atanh => Number.real .domain Float.atanh
  | cbrt => Number.cubeRoot
  | ceil => Number.whole Number.ceilDiv
  | cos => Number.real .domain Float.cos
  | cosh => Number.real .range Float.cosh
  | exp => Number.real .range Float.exp
  | expm1 => Number.real .range Number.expMinusOne
  | floor => Number.whole Int.fdiv
  | log => Number.logarithm Float.log
  | log1p => Number.real .domain Number.logOnePlus
  | log10 => Number.logarithm Float.log10
  | log2 => Number.logarithm Float.log2
  | round => Number.halfUp
  | sign => Number.sign
  | sin => Number.real .domain Float.sin
  | sinh => Number.real .range Float.sinh
  | sqrt => Number.real .domain Float.sqrt
  | tan => Number.real .domain Float.tan
  | tanh => Number.real .domain Float.tanh
  | trunc => Number.whole Int.tdiv

end SmallLisp
