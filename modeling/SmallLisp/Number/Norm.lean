import SmallLisp.Number.Binary64
/-!
The length of a vector of doubles. The coordinates are scaled by a power of two, so that no square overflows,
and their squares are added with what rounding takes from each sum kept aside; one step of Newton's method
then corrects the root. Among coordinates that are all below 2 ^ -1024 the greatest is the scale, and the
root is not corrected.
-/
namespace SmallLisp.Number

/-- A sum in parts, started at one: the running total, and what its roundings took from the leading
products, from the mixed ones and from the rest. -/
structure SplitSum where
  total : Float
  leading : Float
  mixed : Float
  rest : Float

namespace SplitSum

def one : SplitSum := ⟨1.0, 0.0, 0.0, 0.0⟩

/-- What is lost when `x` is added to a total at least as large. -/
def lost (total x : Float) : Float :=
  (total - (total + x)) + x

def addLeading (s : SplitSum) (x : Float) : SplitSum :=
  { s with total := s.total + x, leading := s.leading + lost s.total x }

def addMixed (s : SplitSum) (x : Float) : SplitSum :=
  { s with total := s.total + x, mixed := s.mixed + lost s.total x }

def addRest (s : SplitSum) (x : Float) : SplitSum :=
  { s with total := s.total + x, rest := s.rest + lost s.total x }

/-- The sum without the one it was started at. -/
def value (s : SplitSum) : Float :=
  (s.total - 1.0) + ((s.leading + s.mixed) + s.rest)

end SplitSum

/-- The upper and the lower half of the digits of a double. -/
def halves (x : Float) : Float × Float :=
  let t := x * 134217729.0
  let high := t - (t - x)
  (high, x - high)

def addSquare (s : SplitSum) (x : Float) : SplitSum :=
  let (high, low) := halves x
  let s := (s.addLeading (high * high)).addMixed (2.0 * high * low)
  { s with rest := s.rest + low * low }

def subtractSquare (s : SplitSum) (x : Float) : SplitSum :=
  let (high, low) := halves x
  ((s.addLeading (-high * high)).addMixed (-2.0 * high * low)).addRest (-low * low)

/-- The root of the sum of squares of numbers below one, with its correction. -/
def correctedNorm (xs : List Float) : Float :=
  let s := xs.foldl addSquare .one
  let root := s.value.sqrt
  root + (subtractSquare s root).value / (2.0 * root)

def uncorrectedNorm (xs : List Float) : Float :=
  (xs.foldl (fun s x => s.addLeading (x * x)) SplitSum.one).value.sqrt

/-- The exponent e of a positive double m · 2 ^ e with m from 1/2 to 1. -/
def binaryExponent (x : Float) : Int :=
  match Binary64.ofFloat x with
  | .finite _ m e => (m.log2 : Int) + 1 + e
  | _ => 0

/-- The length of a vector of finite coordinates without signs, of which `greatest` is one. -/
def normOfFinite (greatest : Float) (xs : List Float) : Float :=
  let e := binaryExponent greatest
  if -1023 ≤ e then
    let scale := powerOfTwo (-e)
    correctedNorm (xs.map (· * scale)) / scale
  else greatest * uncorrectedNorm (xs.map (· / greatest))

def greatestFloat (xs : List Float) : Float :=
  xs.foldl (fun greatest x => if greatest < x then x else greatest) 0.0

/-- An infinite coordinate makes the length infinite, whatever the others are. -/
def hypotenuse (coordinates : List Float) : Float :=
  let xs := coordinates.map Float.abs
  let greatest := greatestFloat xs
  if greatest.isInf then infinity false
  else if xs.any Float.isNaN then notANumber
  else if greatest == 0.0 ∨ xs.length ≤ 1 then greatest
  else normOfFinite greatest xs

end SmallLisp.Number
