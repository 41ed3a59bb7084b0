import SmallLisp.Json
import SmallLisp.Number.Layout
import SmallLisp.Text.Surrogate
import SmallLisp.Text.Utf8
/-!
Writing JSON on one line in ASCII. Code points outside printable ASCII are escaped by their UTF-16 units,
in lower-case hexadecimal; a comma and a colon have a blank after them.
-/
namespace SmallLisp.Json

def unitEscape (n : Nat) : List Char :=
  '\\' :: 'u' :: (Text.Utf8.hexDigits 4 n).toList

/-- A code point in a string, escaped where it needs to be. -/
def pointText (p : Text.CodePoint) : List Char :=
  match p with
  | .char '"' => ['\\', '"']
  | .char '\\' => ['\\', '\\']
  | .char '\n' => ['\\', 'n']
  | .char '\r' => ['\\', 'r']
  | .char '\t' => ['\\', 't']
  | .char '\x08' => ['\\', 'b']
  | .char '\x0c' => ['\\', 'f']
  | .char c => if 0x20 ≤ c.toNat ∧ c.toNat ≤ 0x7e then [c] else p.units.flatMap unitEscape
  | p => p.units.flatMap unitEscape

def stringText (s : String) : String :=
  String.ofList ('"' :: ((Text.points s).flatMap pointText ++ ['"']))

def layout : Number.Layout :=
  { Number.Layout.source with infinity := "Infinity", nan := "NaN" }

mutual

def text : Json → String
  | null => "null"
  | bool b => if b then "true" else "false"
  | int n => Number.intText n
  | float x => Number.floatText layout x
  | string s => stringText s
  | array items => "[" ++ String.intercalate ", " (itemTexts items) ++ "]"
  | object members => "\x7b" ++ String.intercalate ", " (memberTexts members) ++ "\x7d"

def itemTexts : List Json → List String
  | [] => []
  | item :: items => text item :: itemTexts items

def memberTexts : List (String × Json) → List String
  | [] => []
  | (name, value) :: members => (stringText name ++ ": " ++ text value) :: memberTexts members

end

end SmallLisp.Json
