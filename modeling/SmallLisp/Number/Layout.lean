import SmallLisp.Number.Shortest
import SmallLisp.Limits
/-!
The text of numbers. A float is written with its shortest digits, always with a point or an exponent,
so that it never reads as an integer.
-/
namespace SmallLisp.Number

/-- The decisions of a float's text: the exponents of the first digit that are written
positionally, the least number of exponent digits, and the words. -/
structure Layout where
  leastPositional : Int
  mostPositional : Int
  exponentDigits : Nat
  infinity : String
  nan : String

namespace Layout

/-- Read back, this infinity overflows to infinity again. -/
def source : Layout := ⟨-4, 15, 2, "1e999", "nan"⟩

def display : Layout := { source with infinity := "inf" }

end Layout

def natDigits (n : Nat) : List Char :=
  Nat.toDigits 10 n

def zeros (n : Nat) : List Char :=
  List.replicate n '0'

def exponentText (layout : Layout) (e : Int) : List Char :=
  let ds := natDigits e.natAbs
  (if e < 0 then '-' else '+') :: (zeros (layout.exponentDigits - ds.length) ++ ds)

/-- The digits `ds` with the point after the digit of exponent zero, the first digit having
exponent `lead`. -/
def positionalText (ds : List Char) (lead : Int) : List Char :=
  if lead < 0 then '0' :: '.' :: (zeros (-lead - 1).toNat ++ ds)
  else
    let whole := lead.toNat + 1
    if ds.length ≤ whole then ds ++ zeros (whole - ds.length) ++ ['.', '0']
    else ds.take whole ++ '.' :: ds.drop whole

def scientificText (layout : Layout) (ds : List Char) (lead : Int) : List Char :=
  match ds with
  | [] => []
  | [d] => d :: 'e' :: exponentText layout lead
  | d :: ds => d :: '.' :: (ds ++ 'e' :: exponentText layout lead)

def decimalText (layout : Layout) (d : Decimal) : List Char :=
  let ds := natDigits d.coefficient
  let lead := d.exponent + ds.length - 1
  if layout.leastPositional ≤ lead ∧ lead ≤ layout.mostPositional then positionalText ds lead
  else scientificText layout ds lead

def signed (negative : Bool) (cs : List Char) : List Char :=
  if negative then '-' :: cs else cs

def binary64Text (layout : Layout) : Binary64 → List Char
  | .nan => layout.nan.toList
  | .infinite negative => signed negative layout.infinity.toList
  | .finite negative mantissa exponent =>
    signed negative <|
      if mantissa = 0 then ['0', '.', '0']
      else decimalText layout (Decimal.shortest mantissa exponent)

def floatText (layout : Layout) (x : Float) : String :=
  String.ofList (binary64Text layout (.ofFloat x))

def intText (n : Int) : String :=
  String.ofList (signed (n < 0) (natDigits n.natAbs))

/-- The first natural number with more digits than the limit. -/
def longInteger : Nat := tenTo digitLimit

def isLongInteger (n : Int) : Bool :=
  longInteger ≤ n.natAbs

end SmallLisp.Number
