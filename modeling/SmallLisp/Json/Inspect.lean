import SmallLisp.Json
import SmallLisp.Number.Layout
import SmallLisp.Text.Quoted
/-!
The text of a JSON value inside a sentence: in the inspected style, except that a string stands bare.
-/
namespace SmallLisp.Json

mutual

def inspected : Json → String
  | null => "None"
  | bool b => if b then "True" else "False"
  | int n => Number.intText n
  | float x => Number.floatText .display x
  | string s => Text.quoted s
  | array items => "[" ++ String.intercalate ", " (inspectedItems items) ++ "]"
  | object members => "\x7b" ++ String.intercalate ", " (inspectedMembers members) ++ "\x7d"

def inspectedItems : List Json → List String
  | [] => []
  | item :: items => inspected item :: inspectedItems items

def inspectedMembers : List (String × Json) → List String
  | [] => []
  | (name, value) :: members =>
    (Text.quoted name ++ ": " ++ inspected value) :: inspectedMembers members

end

def bare : Json → String
  | string s => s
  | j => inspected j

/-- The name of the kind of a value that stands for no text. -/
def kindName : Json → String
  | null => "NoneType"
  | bool _ => "bool"
  | int _ => "int"
  | float _ => "float"
  | string _ => "str"
  | array _ => "list"
  | object _ => "dict"

end SmallLisp.Json
