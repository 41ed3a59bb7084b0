import SmallLisp.Datum
import SmallLisp.Primitive
import SmallLisp.Text.Surrogate
/-!
Values. Code and data have this one type. Lists and closures carry the number of the object they are, and
a closure, a continuation and an escape name frames and continuations by number; what these hold is in
`Machine`.
-/
namespace SmallLisp

abbrev FrameId := Nat

inductive Value where
  | symbol (name : String)
  | int (n : Int)
  | float (x : Float)
  /-- The result of a calculation that has none. Each such result is an object of its own. -/
  | nan (object : Nat)
  | string (s : String)
  | bool (b : Bool)
  | list (object : Nat) (items : List Value)
  | closure (object : Nat) (parameters body : Value) (home : FrameId)
  | continuation (k : Nat)
  | primitive (p : Primitive)
  | control (c : Control)
  | unspecified
  /-- What reading gives when no form is left: a symbol that no text can write. -/
  | endOfText
  /-- On its way to the owner of a continuation, with the value to be returned there. -/
  | escape (k : Nat) (value : Value)
  deriving Inhabited

namespace Value

mutual

/-- The value of a datum, its lists numbered from `next` on, and the next number after them. -/
def ofDatum : Datum → (next : Nat) → Value × Nat
  | .symbol name, next => (symbol name, next)
  | .int n, next => (int n, next)
  | .float x, next => (float x, next)
  | .string s, next => (string s, next)
  | .bool b, next => (bool b, next)
  | .list items, next =>
    let (values, after) := ofData items (next + 1)
    (list next values, after)

def ofData : List Datum → (next : Nat) → List Value × Nat
  | [], next => ([], next)
  | d :: ds, next =>
    let (v, next) := ofDatum d next
    let (vs, next) := ofData ds next
    (v :: vs, next)

end

def endName : String := "#<eof-object>"

/-- The name of a symbol. -/
def name? : Value → Option String
  | symbol name => some name
  | endOfText => some endName
  | _ => none

/-- The values that a value holds one after another. A string holds its code points. -/
def elements? : Value → Option (List Value)
  | list _ items => some items
  | string s => some ((Text.points s).map fun p => string (Text.ofPoints [p]))
  | _ => none

/-- The name of a value's kind in reports of misuse. -/
def kindName : Value → String
  | symbol _ | endOfText => "Symbol"
  | int _ => "int"
  | float _ | nan _ => "float"
  | string _ => "str"
  | bool _ => "bool"
  | list .. => "list"
  | closure .. => "Procedure"
  | continuation _ => "Continuation"
  | primitive _ | control _ => "function"
  | unspecified => "UnspecifiedType"
  | escape .. => "Escape"

def isProcedure : Value → Bool
  | closure .. | continuation _ | primitive _ | control _ => true
  | _ => false

/-- Only #f is false. -/
def isFalse : Value → Bool
  | bool false => true
  | _ => false

def hasKind : Kind → Value → Bool
  | .list, list .. => true
  | .pair, list _ (_ :: _) => true
  | .empty, list _ [] => true
  | .symbol, v => v.name?.isSome
  | .boolean, bool _ => true
  | .number, int _ => true
  | .number, float _ => true
  | .number, nan _ => true
  | .string, string _ => true
  | .procedure, v => v.isProcedure
  | _, _ => false

end Value

end SmallLisp
