import SmallLisp.Form.Step
import SmallLisp.Form.Template
import SmallLisp.Primitive.Numeric
import SmallLisp.Primitive.Lists
/-!
Expansion, evaluation and application. Expansion turns a form into core forms and alone registers
transformers. Evaluation continues in place where a form is in tail position; everything else is one
level deeper. Escapes are values that every form hands on, and only the call that owns the
continuation takes the value out.

Each operation is one step of itself over the calls that the step makes. `fuel` bounds the steps, so
that the definitions are total; `room` bounds the nesting.
-/
namespace SmallLisp

open Run

def Primitive.run (p : Primitive) (room : Nat) (args : List Value) : Run Value :=
  match p with
  | add => runAdd room args
  | subtract => runSubtract room args
  | multiply => runMultiply room args
  | divide => runDivide room args
  | compare c => runCompare c room args
  | not => runNot args
  | same => runSame args
  | equal => runEqual room args
  | length => runLength room args
  | cons => runCons room args
  | car => runCar room args
  | cdr => runCdr room args
  | append => runAppend room args
  | list => newList args
  | display => runDisplay room args
  | atan2 => runAtan2 room args
  | power => runPower room args
  | hypotenuse => runHypotenuse room args
  | greatest => runExtreme "max" Number.greater room args
  | least => runExtreme "min" (fun a b => b.greater a) room args
  | random => runRandom args
  | isKind k => runIsKind k args
  | elementary f => runElementary f room args
  | expandLet => Form.expandLet room args

/-- The value of a call that owns a continuation: an escape to it ends here. -/
def Value.received (k : Nat) : Value → Value
  | .escape k' v => if k' = k then v else .escape k' v
  | v => v

/-- Registers a transformer; the last one registered under a name counts. -/
def Run.register (name : String) (transformer : Value) : Run Unit :=
  modify fun m => { m with transformers := m.transformers.put (.ofName name transformer) }

def Run.transformer? (head : Value) : Run (Option Value) := do
  match head with
  | .symbol name => return (← get).transformers.get? (.name name)
  | _ => return none

/-- The three operations as a step of any of them calls them. -/
structure Calls where
  evaluate : (room : Nat) → Value → FrameId → Run Value
  apply : (room : Nat) → Value → List Value → (caller : FrameId) → Run Value
  expand : (room : Nat) → Value → (toplevel : Bool) → Run Value

/-- The value of a form: `nested` evaluates its parts, `tail` goes on with the part in tail position,
and `call` applies a procedure to its arguments. -/
@[inline]
def Form.evaluateBy (nested : Value → Run Value) (tail : Value → FrameId → Run Value)
    (call : Value → List Value → Run Value) (room : Nat) (frame : FrameId) (form : Value) :
    Run Value :=
  match form with
  | .symbol _ => lookup room frame form
  | .list _ [] => fail (.type .emptyApplication)
  | .list _ (head :: rest) =>
    match CoreKeyword.ofHead? head with
    | some k => do
      match ← Form.step nested room frame k rest with
      | .done v => return v
      | .tail form frame => tail form frame
    | none => do
      match ← Form.operands nested (head :: rest) with
      | .escaped v => return v
      | .values (procedure :: args) => call procedure args
      | .values [] => fail (.type .emptyApplication)
  | v => return v

namespace Calls

variable (calls : Calls)

/-- Applies a procedure; the body of a closure is continued in place. -/
def callInPlace (room : Nat) (caller : FrameId) (procedure : Value) (args : List Value) :
    Run Value :=
  match procedure with
  | .closure _ parameters body home => do
    let inside ← newFrame room parameters args (some home)
    calls.evaluate room body inside
  | _ => calls.apply room procedure args caller

def evaluation (room : Nat) (form : Value) (frame : FrameId) : Run Value :=
  Form.evaluateBy (fun e => deeper room fun room => calls.evaluate room e frame)
    (calls.evaluate room) (calls.callInPlace room frame) room frame form

def application (room : Nat) (procedure : Value) (args : List Value) (caller : FrameId) :
    Run Value :=
  match procedure with
  | .closure _ parameters body home => do
    let inside ← newFrame room parameters args (some home)
    deeper room fun room => calls.evaluate room body inside
  | .continuation k => invoke k args
  | .control .apply => do
    let (f, operands) ← twoOperands "apply" args
    let operands ← listOperand room "apply" operands
    deeper room fun room => calls.apply room f operands caller
  | .control .eval => do
    let form ← oneOperand "eval" args
    let core ← deeper room fun room => calls.expand room form false
    deeper room fun room => calls.evaluate room core Machine.root
  | .control .callWithEscape => do
    let f ← oneOperand "call/cc" args
    let k ← openContinuation
    let v ← spending k (deeper room fun room => calls.apply room f [.continuation k] caller)
    return v.received k
  | .primitive p => p.run room args
  | v => do fail (.type (.notProcedure (← source room v)))

/-- A definition of a variable or of a transformer. A list target `(f p ...)` makes `f` a closure; the
body of a transformer is evaluated at once, and the form is then without value. -/
def definition (room : Nat) (form head : Value) (rest : List Value) (toplevel : Bool) : Run Value :=
  let require := Form.require room form
  match rest with
  | .list _ [] :: _ :: _ => Form.refuse room form .illegalTarget
  | .list _ (name :: ps) :: body => do
    require .wrongLength (!body.isEmpty)
    let parameters ← newList ps
    let closure ← newList (CoreKeyword.lambda.symbol :: parameters :: body)
    let plain ← newList [head, name, closure]
    deeper room fun room => calls.expand room plain toplevel
  | [.symbol name, e] => do
    let core ← deeper room fun room => calls.expand room e false
    if head.isSymbol "define-macro" then
      require .notTopLevel toplevel
      let transformer ← deeper room fun room => calls.evaluate room core Machine.root
      require .notTransformer transformer.isProcedure
      register name transformer
      return .unspecified
    else newList [head, .symbol name, core]
  | [_, _] => Form.refuse room form .definesNonSymbol
  | _ => Form.refuse room form .wrongLength

def expansion (room : Nat) (form : Value) (toplevel : Bool) : Run Value :=
  let inner (toplevel : Bool) (e : Value) : Run Value :=
    deeper room fun room => calls.expand room e toplevel
  let require := Form.require room form
  match form with
  | .list _ [] => Form.refuse room form .wrongLength
  | .list _ (head :: rest) =>
    match Keyword.ofHead? head with
    | some (.core .quote) => do
      require .wrongLength (rest.length == 1)
      return form
    | some (.core .test) =>
      match rest with
      | [t, c] => do newList (← [head, t, c, .unspecified].mapM (inner false))
      | [_, _, _] => do newList (← (head :: rest).mapM (inner false))
      | _ => Form.refuse room form .wrongLength
    | some (.core .assign) =>
      match rest with
      | [target, e] => do
        require .assignsNonSymbol (target.hasKind .symbol)
        newList [head, target, ← inner false e]
      | _ => Form.refuse room form .wrongLength
    | some (.core .define) | some .defineTransformer =>
      calls.definition room form head rest toplevel
    | some (.core .sequence) =>
      if rest.isEmpty then return .unspecified
      else do newList (← (head :: rest).mapM (inner toplevel))
    | some (.core .lambda) =>
      match rest with
      | parameters :: first :: more => do
        require .illegalParameters (Form.areParameters parameters)
        let body ← Form.body (first :: more)
        newList [head, parameters, ← inner false body]
      | _ => Form.refuse room form .wrongLength
    | some .template =>
      match rest with
      | [template] => do inner false (← Form.ofTemplate room template)
      | _ => Form.refuse room form .wrongLength
    | none => do
      match ← transformer? head with
      | some transformer =>
        let expansion ← deeper room fun room => calls.apply room transformer rest Machine.root
        inner false expansion
      | none => newList (← (head :: rest).mapM (inner false))
  | v => return v

end Calls

mutual

/-- The value of a form in a frame. -/
def evaluate : (fuel room : Nat) → Value → FrameId → Run Value
  | 0 => fun _ _ _ => throw .outOfSteps
  | fuel + 1 => Calls.evaluation ⟨evaluate fuel, apply fuel, expand fuel⟩

/-- The outcome of applying a procedure to values; `caller` is the frame of the application. -/
def apply : (fuel room : Nat) → Value → List Value → (caller : FrameId) → Run Value
  | 0 => fun _ _ _ _ => throw .outOfSteps
  | fuel + 1 => Calls.application ⟨evaluate fuel, apply fuel, expand fuel⟩

/-- The core form of a form. `toplevel` holds for a form read from a text and inside its sequences. -/
def expand : (fuel room : Nat) → Value → (toplevel : Bool) → Run Value
  | 0 => fun _ _ _ => throw .outOfSteps
  | fuel + 1 => Calls.expansion ⟨evaluate fuel, apply fuel, expand fuel⟩

end

/-- The operations with some steps left. -/
def calls (fuel : Nat) : Calls :=
  ⟨evaluate fuel, apply fuel, expand fuel⟩

/-- What a session runs code with: the operations and the room that they have. -/
structure Engine where
  nesting : Nat
  calls : Calls

def Limits.engine (limits : Limits) : Engine :=
  ⟨limits.nesting, SmallLisp.calls limits.steps⟩

instance : Coe Limits Engine := ⟨Limits.engine⟩

end SmallLisp
