import SmallLisp.Value
import SmallLisp.Failure
import SmallLisp.Number.Layout
import SmallLisp.Text.Quoted
/-!
The texts of a value: the source form, which the reader reads back where it can, and the inspected form,
in which texts and symbols are quoted. Values nested too deep and integers that are too long have no
text.
-/
namespace SmallLisp

inductive Style where
  | source
  | inspect
  deriving DecidableEq, Repr

namespace Value

def continuationText (live : Bool) : String :=
  "#<continuation " ++ (if live then "live" else "spent") ++ ">"

def symbolText (name : String) : String :=
  "Symbol(" ++ Text.quoted name ++ ")"

mutual

/-- The text in a style; `live` tells the live continuations from the spent ones. -/
def text (live : Nat → Bool) : Style → Value → String
  | .source, symbol name => name
  | .inspect, symbol name => symbolText name
  | .source, endOfText => endName
  | .inspect, endOfText => symbolText endName
  | _, int n => Number.intText n
  | .source, float x => Number.floatText .source x
  | .inspect, float x => Number.floatText .display x
  | _, nan _ => Number.Layout.source.nan
  | .source, string s => "\"" ++ s ++ "\""
  | .inspect, string s => Text.quoted s
  | .source, bool b => if b then "#t" else "#f"
  | .inspect, bool b => if b then "True" else "False"
  | .source, list _ items => "(" ++ String.intercalate " " (texts live .source items) ++ ")"
  | .inspect, list _ items => "[" ++ String.intercalate ", " (texts live .inspect items) ++ "]"
  | _, closure _ parameters body _ =>
    "#<procedure (lambda " ++ text live .source parameters ++ " " ++ text live .source body ++ ")>"
  | _, continuation k => continuationText (live k)
  | _, primitive p => "<function " ++ p.printName ++ ">"
  | _, control c => "<function " ++ c.printName ++ ">"
  | _, unspecified => "#<unspecified>"
  | _, escape k value =>
    "Escape(continuation=" ++ continuationText (live k) ++ ", value=" ++ text live .inspect value ++
      ")"

def texts (live : Nat → Bool) (style : Style) : List Value → List String
  | [] => []
  | v :: vs => text live style v :: texts live style vs

end

/-- The values directly inside a value, as far as its text shows them. -/
def parts : Value → List Value
  | list _ items => items
  | closure _ parameters body _ => [parameters, body]
  | escape _ value => [value]
  | _ => []

/-- Whether a value has parts of parts more than `room` levels deep. -/
def isDeeperThan : (room : Nat) → Value → Bool
  | 0, v => !v.parts.isEmpty
  | room + 1, v => v.parts.any (isDeeperThan room)

mutual

def hasLongInteger : Value → Bool
  | int n => Number.isLongInteger n
  | list _ items => anyLongInteger items
  | closure _ parameters body _ => parameters.hasLongInteger || body.hasLongInteger
  | escape _ value => value.hasLongInteger
  | _ => false

def anyLongInteger : List Value → Bool
  | [] => false
  | v :: vs => v.hasLongInteger || anyLongInteger vs

end

/-- The text of a value, if it has one. -/
def text? (live : Nat → Bool) (room : Nat) (style : Style) (v : Value) : Except Failure String :=
  if v.isDeeperThan room then .error .tooDeep
  else if v.hasLongInteger then .error (.longInteger none)
  else .ok (v.text live style)

/-- The text of a value inside a sentence: symbols and strings bare, all else inspected. -/
def bareText? (live : Nat → Bool) (room : Nat) (v : Value) : Except Failure String :=
  match v with
  | symbol _ | endOfText => v.text? live room .source
  | string s => .ok s
  | _ => v.text? live room .inspect

end Value

end SmallLisp
