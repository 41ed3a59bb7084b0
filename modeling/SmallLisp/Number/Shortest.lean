import SmallLisp.Number.Binary64
/-!
The shortest decimal that reads back as a given double: the fewest digits such that some decimal with
that many digits lies among the reals that round to the double, and of those the nearest to it, a
tie going to the even digit.
-/
namespace SmallLisp.Number

/-- The reals that round to a double, as multiples of `unit`: from `low` to `high`, the ends
included when `closed`. -/
structure Neighbourhood where
  low : Nat
  value : Nat
  high : Nat
  unit : Int
  closed : Bool

namespace Neighbourhood

/-- Below a power of two the next double is only half as far away as above it. -/
def ofFinite (mantissa : Nat) (exponent : Int) : Neighbourhood :=
  let closed := mantissa % 2 == 0
  if mantissa = twoTo 52 ∧ -1074 < exponent then
    ⟨4 * mantissa - 1, 4 * mantissa, 4 * mantissa + 2, exponent - 2, closed⟩
  else
    ⟨2 * mantissa - 1, 2 * mantissa, 2 * mantissa + 1, exponent - 1, closed⟩

/-- The unit in a measure that it has in common with the grid 10 ^ k. -/
def unitMeasure (n : Neighbourhood) (k : Int) : Nat :=
  (Ratio.scale ⟨1, 1⟩ n.unit).num * (Ratio.ofDecimal 1 k).den

/-- The grid 10 ^ k in that measure. -/
def gridMeasure (n : Neighbourhood) (k : Int) : Nat :=
  (Ratio.ofDecimal 1 k).num * (Ratio.scale ⟨1, 1⟩ n.unit).den

/-- Whether c · 10 ^ k is in the neighbourhood. -/
def contains (n : Neighbourhood) (k : Int) (c : Nat) : Bool :=
  let u := n.unitMeasure k
  let g := n.gridMeasure k
  if n.closed then n.low * u ≤ c * g && c * g ≤ n.high * u
  else n.low * u < c * g && c * g < n.high * u

end Neighbourhood

/-- The number coefficient · 10 ^ exponent. -/
structure Decimal where
  coefficient : Nat
  exponent : Int

namespace Decimal

/-- Drops trailing zeros; `bound` is at least their number. -/
def normalize : (bound : Nat) → Decimal → Decimal
  | 0, d => d
  | bound + 1, d =>
    if d.coefficient % 10 = 0 then normalize bound ⟨d.coefficient / 10, d.exponent + 1⟩ else d

/-- The least number of digits of `n` in base ten, found from a lower bound. -/
def digitCountFrom (n : Nat) : (bound count : Nat) → Nat
  | 0, count => count
  | bound + 1, count => if n < tenTo count then count else digitCountFrom n bound (count + 1)

/-- The number of decimal digits; zero has none. -/
def digitCount (n : Nat) : Nat :=
  if n = 0 then 0 else digitCountFrom n (n.log2 + 1) (n.log2 * 3 / 10)

/-- The exponent of the first digit of num/den: the greatest k with 10 ^ k ≤ num/den. -/
def leadingExponent (r : Ratio) : Int :=
  let k := (digitCount r.num : Int) - (digitCount r.den : Int)
  let p := Ratio.ofDecimal 1 k
  if p.num * r.den ≤ r.num * p.den then k else k - 1

/-- The neighbours of the value on the grid 10 ^ k, the nearer first. -/
def gridNeighbours (n : Neighbourhood) (k : Int) : List Nat :=
  let g := n.gridMeasure k
  let value := n.value * n.unitMeasure k
  let below := value / g
  let rest := 2 * (value % g)
  if rest < g ∨ (rest = g ∧ below % 2 = 0) then [below, below + 1] else [below + 1, below]

/-- The better of the two that is in the neighbourhood. -/
def onGrid? (n : Neighbourhood) (k : Int) : Option Decimal :=
  ((gridNeighbours n k).find? (n.contains k)).map fun c => ⟨c, k⟩

/-- The first grid with a hit, from `digits` digits on. -/
def searchFrom (n : Neighbourhood) (lead : Int) : (rounds digits : Nat) → Option Decimal
  | 0, _ => none
  | rounds + 1, digits =>
    match onGrid? n (lead - digits + 1) with
    | some d => some d
    | none => searchFrom n lead rounds (digits + 1)

/-- The shortest decimal of mantissa · 2 ^ exponent, which is not zero. Seventeen digits always
suffice. -/
def shortest (mantissa : Nat) (exponent : Int) : Decimal :=
  let n := Neighbourhood.ofFinite mantissa exponent
  let lead := leadingExponent (Ratio.scale ⟨mantissa, 1⟩ exponent)
  ((searchFrom n lead 17 1).getD ⟨0, 0⟩).normalize 20

end Decimal

end SmallLisp.Number
