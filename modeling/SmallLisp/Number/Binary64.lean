import SmallLisp.Number.Powers
/-!
Double-precision numbers as exact fractions: a finite double is a mantissa times a power of two, and
a fraction has a nearest double, a tie going to the even mantissa. Every conversion between text,
integers and doubles goes through these two functions.
-/
namespace SmallLisp.Number

inductive Binary64 where
  | finite (negative : Bool) (mantissa : Nat) (exponent : Int)
  | infinite (negative : Bool)
  | nan

namespace Binary64

def ofBits (bits : Nat) : Binary64 :=
  let negative := bits / twoTo 63 % 2 == 1
  let biased : Nat := bits / twoTo 52 % twoTo 11
  let fraction : Nat := bits % twoTo 52
  if biased = 2047 then
    if fraction = 0 then .infinite negative else .nan
  else if biased = 0 then .finite negative fraction (-1074)
  else .finite negative (fraction + twoTo 52) ((biased : Int) - 1075)

def ofFloat (x : Float) : Binary64 :=
  ofBits x.toBits.toNat

/-- The whole number that a double is, if it is one. -/
def whole? : Binary64 → Option Int
  | .finite negative m e =>
    let den := twoTo (-e).toNat
    if m % den = 0 then
      let n : Int := m / den * twoTo e.toNat
      some (if negative then -n else n)
    else none
  | _ => none

end Binary64

/-- A positive or zero fraction; the denominator is positive. -/
structure Ratio where
  num : Nat
  den : Nat

namespace Ratio

/-- The fraction num/den · 2 ^ k. -/
def scale (r : Ratio) (k : Int) : Ratio :=
  if 0 ≤ k then ⟨r.num * twoTo k.toNat, r.den⟩ else ⟨r.num, r.den * twoTo (-k).toNat⟩

/-- The fraction c · 10 ^ k. -/
def ofDecimal (c : Nat) (k : Int) : Ratio :=
  if 0 ≤ k then ⟨c * tenTo k.toNat, 1⟩ else ⟨c, tenTo (-k).toNat⟩

/-- The nearest natural number; a half goes to the even neighbour. -/
def round (r : Ratio) : Nat :=
  let q := r.num / r.den
  let rest := 2 * (r.num % r.den)
  if rest < r.den ∨ (rest = r.den ∧ q % 2 = 0) then q else q + 1

/-- The bits of the nearest double, which are those of infinity or beyond when it is out of range.
The exponent is chosen so that the mantissa has 53 bits, and not below the least exponent. -/
def nearestBits (r : Ratio) : Nat :=
  if r.num = 0 then 0 else
    let guess : Int := (r.num.log2 : Int) - (r.den.log2 : Int) - 53
    let wide := r.scale (-guess)
    let exponent := if twoTo 53 ≤ wide.num / wide.den then guess + 1 else guess
    let exponent := if exponent < -1074 then -1074 else exponent
    let mantissa := (r.scale (-exponent)).round
    (exponent + 1074).toNat * twoTo 52 + mantissa

def infinityBits : Nat := 2047 * twoTo 52

/-- The nearest double with the given sign, or none when that is beyond the largest. -/
def toFloat? (negative : Bool) (r : Ratio) : Option Float :=
  let bits := r.nearestBits
  if infinityBits ≤ bits then none
  else some (Float.ofBits (.ofNat (if negative then bits + twoTo 63 else bits)))

end Ratio

def infinity (negative : Bool) : Float :=
  Float.ofBits (.ofNat (if negative then Ratio.infinityBits + twoTo 63 else Ratio.infinityBits))

def notANumber : Float :=
  Float.ofBits 0x7ff8000000000000

def zero (negative : Bool) : Float :=
  Float.ofBits (.ofNat (if negative then twoTo 63 else 0))

/-- The double 2 ^ k. -/
def powerOfTwo (k : Int) : Float :=
  ((Ratio.scale ⟨1, 1⟩ k).toFloat? false).getD (infinity false)

/-- The double nearest to an integer, or none when the integer is too large. -/
def floatOfInt? (n : Int) : Option Float :=
  Ratio.toFloat? (n < 0) ⟨n.natAbs, 1⟩

end SmallLisp.Number
