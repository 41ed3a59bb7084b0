import SmallLisp.Form.Keyword
import SmallLisp.Machine
/-!
One step of a core form. The parts that are not in tail position are evaluated by the given evaluator; the
part in tail position is handed back to be continued in place. An escape among the parts ends the form
and is its value.
-/
namespace SmallLisp

/-- How a form goes on: it is done, or it continues as another form in a frame. -/
inductive Next where
  | done (v : Value)
  | tail (form : Value) (frame : FrameId)

/-- The values of all operands, or the escape that one of them gave. -/
inductive Operands where
  | values (vs : List Value)
  | escaped (v : Value)

namespace Form

open Run

variable (evaluate : Value → Run Value)

def operands : List Value → Run Operands
  | [] => return .values []
  | e :: es => do
    let v ← evaluate e
    if v.isEscape then return .escaped v
    match ← operands es with
    | .values vs => return .values (v :: vs)
    | .escaped v => return .escaped v

/-- Evaluates for effect all forms but the last, which is in tail position. -/
def sequence (frame : FrameId) : List Value → Run Next
  | [] => return .done .unspecified
  | [last] => return .tail last frame
  | e :: es => do
    let v ← evaluate e
    if v.isEscape then return .done v
    sequence frame es

/-- A missing alternative is unspecified. -/
def test (frame : FrameId) : List Value → Run Next
  | [] => fail .listIndex
  | condition :: branches => do
    let v ← evaluate condition
    if v.isEscape then return .done v
    if v.isFalse then
      match branches with
      | _ :: alternative :: _ => return .tail alternative frame
      | _ => return .done .unspecified
    else
      match branches with
      | consequent :: _ => return .tail consequent frame
      | [] => fail .listIndex

/-- The target and the expression of a binding form. -/
def bindingParts : List Value → Run (Value × Value)
  | [target, e] => pure (target, e)
  | parts =>
    if parts.length < 2 then fail (.shape (.tooFew 2 parts.length)) else fail (.shape (.tooMany 2))

def define (room : Nat) (frame : FrameId) (parts : List Value) : Run Next := do
  let (target, e) ← bindingParts parts
  let v ← evaluate e
  if v.isEscape then return .done v
  Run.define room frame target v
  return .done v

def assign (room : Nat) (frame : FrameId) (parts : List Value) : Run Next := do
  let (target, e) ← bindingParts parts
  let v ← evaluate e
  if v.isEscape then return .done v
  Run.assign room frame target v
  return .done .unspecified

/-- The body of a closure: one form as it is, several as a sequence. -/
def body : List Value → Run Value
  | [e] => pure e
  | es => newList (CoreKeyword.sequence.symbol :: es)

def lambda (frame : FrameId) : List Value → Run Next
  | [] => fail (.shape (.fewerThan 1 0))
  | parameters :: forms => do
    let form ← body forms
    return .done (.closure (← newObject) parameters form frame)

def step (room : Nat) (frame : FrameId) (k : CoreKeyword) (parts : List Value) : Run Next :=
  match k with
  | .quote => match parts with
    | [] => fail .listIndex
    | v :: _ => return .done v
  | .test => test evaluate frame parts
  | .assign => assign evaluate room frame parts
  | .define => define evaluate room frame parts
  | .lambda => lambda frame parts
  | .sequence => sequence evaluate frame parts

end Form

end SmallLisp
