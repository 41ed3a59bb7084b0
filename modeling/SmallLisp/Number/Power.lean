import SmallLisp.Number.Arithmetic
/-!
Powers. An integer to a natural power is an exact integer; any other power is a double. What would be
infinite by overflow, or not real, is a fault.
-/
namespace SmallLisp.Number

def isOddFloat (x : Float) : Bool :=
  match (Binary64.ofFloat x).whole? with
  | some n => n % 2 == 1
  | none => false

/-- The absolute value of x with the sign of y. -/
def withSign (x y : Float) : Float :=
  if y.toBits >>> 63 == 1 then -x.abs else x.abs

/-- A finite power of finite numbers, negated when asked. -/
def finitePower (negate : Bool) (x y : Float) : Except MathFault Float :=
  let r := x.pow y
  if r.isInf then .error .powerRange else .ok (if negate then -r else r)

/-- A negative base with an exponent that is not whole has a complex power, which is refused; one
that is too large is refused as such. -/
def complexFault (x y : Float) : MathFault :=
  if ((-x).pow y).isInf then .complexPower else .notReal

def powInfiniteExponent (x y : Float) : Float :=
  if x.abs == 1 then 1 else if (0 < y) == (1 < x.abs) then y.abs else 0

def powInfiniteBase (x y : Float) : Float :=
  if 0 < y then if isOddFloat y then x else x.abs
  else if isOddFloat y then withSign 0 x else 0

def powZeroBase (x y : Float) : Except MathFault Float :=
  if y < 0 then .error .zeroToNegativePower else .ok (if isOddFloat y then x else 0)

def powFloats (x y : Float) : Except MathFault Float :=
  if y == 0 then .ok 1
  else if x.isNaN then .ok x
  else if y.isNaN then .ok (if x == 1 then 1 else y)
  else if y.isInf then .ok (powInfiniteExponent x y)
  else if x.isInf then .ok (powInfiniteBase x y)
  else if x == 0 then powZeroBase x y
  else if x < 0 then
    if (Binary64.ofFloat y).whole?.isNone then .error (complexFault x y)
    else if x == -1 then .ok (if isOddFloat y then -1 else 1)
    else finitePower (isOddFloat y) (-x) y
  else finitePower false x y

def power (a b : Number) : Except MathFault Number :=
  match a, b with
  | int m, int (.ofNat n) => .ok (int (intPower m n))
  | a, b =>
    match a.toFloat, b.toFloat with
    | .ok x, .ok y => (powFloats x y).map float
    | _, _ => .error (.overflow .integer)

end SmallLisp.Number
