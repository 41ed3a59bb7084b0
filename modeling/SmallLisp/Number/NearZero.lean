import SmallLisp.Number.Fused
/-!
The functions e ^ x - 1 and log (1 + x), kept accurate where the difference or the sum would lose digits.
Both reduce the argument by a multiple k of log 2, held in two parts, and approximate the rest by a
rational function, whose products are rounded together with the sums that they go into. The result is
within one unit in the last place.
-/
namespace SmallLisp.Number

/-- The upper half of the bits of a double. -/
def highWord (x : Float) : UInt64 :=
  x.toBits >>> 32

/-- The double x · 2 ^ k, for results in the normal range. -/
def shiftExponent (x : Float) (k : Int) : Float :=
  Float.ofBits (.ofNat ((x.toBits.toNat : Int) + k * twoTo 52).toNat)

def logTwoHigh : Float := 6.93147180369123816490e-01

def logTwoLow : Float := 1.90821492927058770002e-10

namespace ExpMinusOne

/-- The reduced argument x - k · log 2 and what rounding took from it. -/
structure Reduced where
  k : Int
  rest : Float
  lost : Float

def Reduced.ofParts (k : Int) (high low : Float) : Reduced :=
  let rest := high - low
  ⟨k, rest, (high - rest) - low⟩

/-- The integer nearest to a number of moderate size, a half going away from zero. -/
def nearestMultiple (x : Float) : Int :=
  let y := 1.44269504088896338700 * x
  if x < 0 then -((0.5 - y).toUInt64.toNat : Int) else (y + 0.5).toUInt64.toNat

def reduce (x : Float) : Reduced :=
  let h := highWord x.abs
  if h ≤ 0x3fd62e42 then ⟨0, x, 0⟩
  else if h < 0x3ff0a2b2 then
    if x < 0 then .ofParts (-1) (x + logTwoHigh) (-logTwoLow)
    else .ofParts 1 (x - logTwoHigh) logTwoLow
  else
    let k := nearestMultiple x
    let t := Float.ofInt k
    .ofParts k (fusedMulAdd (-t) logTwoHigh x) (t * logTwoLow)

/-- The even part of the approximation, as a polynomial in half the square of the argument. -/
def evenPart (s : Float) : Float :=
  let s2 := s * s
  let s4 := s2 * s2
  let a := fusedMulAdd s (-3.33333333333331316428e-02) 1.0
  let b := fusedMulAdd s (-7.93650757867487942473e-05) 1.58730158725481460165e-03
  let c := fusedMulAdd s (-2.01099218183624371326e-07) 4.00821782732936239552e-06
  fusedMulAdd s4 c (fusedMulAdd s2 b a)

/-- Puts the power of two back. -/
def restore (k : Int) (x e : Float) : Float :=
  if k = -1 then 0.5 * (x - e) - 0.5
  else if k = 1 then if x < -0.25 then -2.0 * (e - (x + 0.5)) else 1.0 + 2.0 * (x - e)
  else if k ≤ -2 ∨ 56 < k then shiftExponent (1.0 - (e - x)) k - 1.0
  else if k < 20 then shiftExponent ((1.0 - powerOfTwo (-k)) - (e - x)) k
  else shiftExponent (x - (e + powerOfTwo (-k)) + 1.0) k

def ofReduced (r : Reduced) : Float :=
  let x := r.rest
  let half := 0.5 * x
  let s := x * half
  let even := evenPart s
  let t := fusedMulAdd (-even) half 3.0
  let e := s * ((even - t) / fusedMulAdd (-x) t 6.0)
  if r.k = 0 then x - fusedMulAdd x e (-s)
  else restore r.k x (fusedMulAdd x (e - r.lost) (-r.lost) - s)

end ExpMinusOne

def expMinusOne (x : Float) : Float :=
  let h := highWord x.abs
  if x.isNaN then x
  else if 7.09782712893383973096e+02 < x then infinity false
  else if x < 0 ∧ 0x4043687a ≤ h then -1.0
  else if h < 0x3c900000 then x
  else ExpMinusOne.ofReduced (ExpMinusOne.reduce x)

namespace LogOnePlus

/-- The sum 1 + x as (1 + rest) · 2 ^ k, with what rounding took from it. `small` says that the rest
is below 2 ^ -20. -/
structure Reduced where
  k : Int
  rest : Float
  lost : Float
  small : Bool

def reduceSum (u lost : Float) : Reduced :=
  let bits := u.toBits.toNat
  let k : Int := (bits / twoTo 52 : Nat) - 1023
  let fraction := bits % twoTo 52
  let top := fraction / twoTo 32
  if top < 0x6a09e then
    ⟨k, Float.ofBits (.ofNat (fraction + 1023 * twoTo 52)) - 1.0, lost, top == 0⟩
  else
    ⟨k + 1, Float.ofBits (.ofNat (fraction + 1022 * twoTo 52)) - 1.0, lost,
      (0x100000 - top) / 4 == 0⟩

def reduce (x : Float) : Reduced :=
  let h := highWord x.abs
  if (0 < x ∧ h < 0x3fda827a) ∨ (x < 0 ∧ h ≤ 0x3fd2bec3) then ⟨0, x, 0, false⟩
  else if 0 < x ∧ 0x43400000 ≤ h then reduceSum x 0
  else
    let u := 1.0 + x
    let lost := if 2.0 ≤ u then 1.0 - (u - x) else x - (u - 1.0)
    reduceSum u (lost / u)

/-- The even part of the approximation, as a polynomial in z. -/
def evenPart (z : Float) : Float :=
  let z2 := z * z
  let z4 := z2 * z2
  let z6 := z4 * z2
  let b := fusedMulAdd z 2.857142874366239149e-01 3.999999999940941908e-01
  let c := fusedMulAdd z 1.818357216161805012e-01 2.222219843214978396e-01
  let d := fusedMulAdd z 1.479819860511658591e-01 1.531383769920937332e-01
  fusedMulAdd z6 d (fusedMulAdd z4 c (fusedMulAdd z 6.666666666666735130e-01 (z2 * b)))

def ofReduced (r : Reduced) : Float :=
  let f := r.rest
  let k := Float.ofInt r.k
  let low := fusedMulAdd k logTwoLow r.lost
  let halfSquare := 0.5 * f * f
  if r.small then
    if f == 0 then
      if r.k = 0 then 0 else fusedMulAdd k logTwoHigh low
    else
      let tail := halfSquare * fusedMulAdd (-0.66666666666666666) f 1.0
      if r.k = 0 then f - tail else fusedMulAdd k logTwoHigh (-((tail - low) - f))
  else
    let s := f / (2.0 + f)
    let even := evenPart (s * s)
    let product := s * (halfSquare + even)
    if r.k = 0 then f - (halfSquare - product)
    else fusedMulAdd k logTwoHigh (-((halfSquare - (product + low)) - f))

end LogOnePlus

def logOnePlus (x : Float) : Float :=
  let h := highWord x.abs
  if x.isNaN ∨ x == infinity false then x
  else if x < -1.0 then notANumber
  else if x == -1.0 then infinity true
  else if h < 0x3c900000 then x
  else if h < 0x3e200000 then x - x * x * 0.5
  else LogOnePlus.ofReduced (LogOnePlus.reduce x)

end SmallLisp.Number
