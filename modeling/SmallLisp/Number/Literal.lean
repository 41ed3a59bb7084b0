import SmallLisp.Number.Shortest
/-!
Numeric literals. An integer is an optional sign and digits; a decimal is an optional sign, digits with
an optional point among, before or after them, and an optional exponent. Digits are ASCII digits. The
value of a decimal is the double nearest to it, infinity when it is beyond the largest.
-/
namespace SmallLisp.Number

/-- The sign in front, true for minus, and the rest. -/
def splitSign : List Char → Bool × List Char
  | '-' :: cs => (true, cs)
  | '+' :: cs => (false, cs)
  | cs => (false, cs)

def digitValue (c : Char) : Nat :=
  c.toNat - '0'.toNat

def natOfDigits (cs : List Char) : Nat :=
  cs.foldl (fun n c => n * 10 + digitValue c) 0

def intOfDigits (negative : Bool) (cs : List Char) : Int :=
  if negative then -(natOfDigits cs : Int) else natOfDigits cs

/-- The sign and the digits of an integer literal. -/
def integerLiteral? (cs : List Char) : Option (Bool × List Char) :=
  let (negative, ds) := splitSign cs
  if ds ≠ [] ∧ ds.all Char.isDigit then some (negative, ds) else none

structure DecimalLiteral where
  negative : Bool
  magnitude : Decimal

/-- The exponent part of a decimal literal, zero when it is missing. -/
def exponentPart? : List Char → Option Int
  | [] => some 0
  | c :: cs =>
    if c = 'e' ∨ c = 'E' then (integerLiteral? cs).map fun (negative, ds) => intOfDigits negative ds
    else none

/-- The digits before the point, those after it, and what follows. -/
def pointParts (cs : List Char) : List Char × List Char × List Char :=
  let whole := cs.takeWhile Char.isDigit
  match cs.dropWhile Char.isDigit with
  | '.' :: rest => (whole, rest.takeWhile Char.isDigit, rest.dropWhile Char.isDigit)
  | rest => (whole, [], rest)

def decimalLiteral? (cs : List Char) : Option DecimalLiteral :=
  let (negative, body) := splitSign cs
  let (whole, fraction, rest) := pointParts body
  if whole = [] ∧ fraction = [] then none
  else (exponentPart? rest).map fun e =>
    ⟨negative, ⟨natOfDigits (whole ++ fraction), e - fraction.length⟩⟩

/-- A decimal whose first digit stands at or above 10 ^ 310 is beyond the largest double, and one
below 10 ^ -330 is nearer to zero than to the least. -/
def DecimalLiteral.toFloat (d : DecimalLiteral) : Float :=
  let ⟨c, e⟩ := d.magnitude
  let lead := (Decimal.digitCount c : Int) + e
  if c = 0 ∨ lead < -330 then zero d.negative
  else if 310 < lead then infinity d.negative
  else ((Ratio.ofDecimal c e).toFloat? d.negative).getD (infinity d.negative)

end SmallLisp.Number
