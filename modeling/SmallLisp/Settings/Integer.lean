import SmallLisp.Failure
import SmallLisp.Number.Literal
import SmallLisp.Text.Blank
import SmallLisp.Text.Lines
import SmallLisp.Text.Quoted
/-!
Integers in settings. Blanks around the number, a sign, and single underscores between digits are
allowed, and the decimal digits of every script count.
-/
namespace SmallLisp.Settings

/-- The zeros of the decimal digits of Unicode; nine more digits follow each. -/
def decimalZeros : List Nat :=
  [0x30, 0x660, 0x6f0, 0x7c0, 0x966, 0x9e6, 0xa66, 0xae6, 0xb66, 0xbe6, 0xc66, 0xce6, 0xd66, 0xde6,
    0xe50, 0xed0, 0xf20, 0x1040, 0x1090, 0x17e0, 0x1810, 0x1946, 0x19d0, 0x1a80, 0x1a90, 0x1b50,
    0x1bb0, 0x1c40, 0x1c50, 0xa620, 0xa8d0, 0xa900, 0xa9d0, 0xa9f0, 0xaa50, 0xabf0, 0xff10,
    0x104a0, 0x10d30, 0x11066, 0x110f0, 0x11136, 0x111d0, 0x112f0, 0x11450, 0x114d0, 0x11650,
    0x116c0, 0x11730, 0x118e0, 0x11950, 0x11c50, 0x11d50, 0x11da0, 0x16a60, 0x16ac0, 0x16b50,
    0x1d7ce, 0x1d7d8, 0x1d7e2, 0x1d7ec, 0x1d7f6, 0x1e140, 0x1e2f0, 0x1e950, 0x1fbf0]

/-- The ASCII digit of the same value. -/
def digitOf? (c : Char) : Option Char :=
  let n := c.toNat
  (decimalZeros.find? fun first => first ≤ n && n ≤ first + 9).map fun first =>
    Char.ofNat ('0'.toNat + (n - first))

/-- The blanks without the information separators. -/
def isPadding (c : Char) : Bool :=
  Text.isBlank c && !(0x1c ≤ c.toNat && c.toNat ≤ 0x1f)

/-- Digits in groups joined by single underscores, as ASCII digits, and what follows them. A character
that is neither ends the groups. -/
def groupedDigits : (afterDigit : Bool) → List Char → Option (List Char × List Char)
  | afterDigit, [] => if afterDigit then some ([], []) else none
  | afterDigit, c :: cs =>
    match digitOf? c with
    | some d => (groupedDigits true cs).map fun (ds, rest) => (d :: ds, rest)
    | none =>
      if !afterDigit then none
      else if c = '_' then groupedDigits false cs
      else some ([], c :: cs)

/-- A text that is no integer is quoted in the failure, cut to 200 characters. The number of digits is
checked before what follows them. -/
def integer (text : String) : Except Failure Int :=
  let invalid : Except Failure Int :=
    .error (.badInteger (String.ofList ((Text.quoted text).toList.take 200)))
  let (negative, body) := Number.splitSign (text.toList.dropWhile isPadding)
  match groupedDigits false body with
  | none => invalid
  | some (digits, rest) =>
    if digitLimit < digits.length then .error (.longInteger (some digits.length))
    else if rest.all isPadding then .ok (Number.intOfDigits negative digits)
    else invalid

end SmallLisp.Settings
