import SmallLisp.Frames
/-!
The state of a session and the computations on it. A computation gives a value, fails, or runs out of
steps; the state that it leaves is known in each case.
-/
namespace SmallLisp

/-- A number from zero up to and without one. -/
structure Fraction where
  value : Float
  atLeast : 0 ≤ value
  below : value < 1

/-- The source of random numbers: a stream of them, whatever they are, and how many have been taken. -/
structure Draws where
  numbers : Nat → Fraction
  taken : Nat

namespace Draws

def next (d : Draws) : Fraction :=
  d.numbers d.taken

def rest (d : Draws) : Draws :=
  { d with taken := d.taken + 1 }

/-- The source that gives nothing but zero. -/
def zeros : Draws :=
  ⟨fun _ => ⟨0, by decide, by decide⟩, 0⟩

end Draws

structure Machine where
  frames : Frames
  /-- The transformers by name: procedures from the operands of a form to its expansion. -/
  transformers : Bindings
  /-- Which continuations still have their owner on the way. -/
  continuations : Array Bool
  /-- The number of the next list or closure. -/
  nextObject : Nat
  /-- The lines displayed. -/
  output : Array String
  draws : Draws

/-- Why a computation gives no value. -/
inductive Halt where
  | failed (f : Failure)
  | outOfSteps

abbrev Run := ExceptT Halt (StateM Machine)

namespace Machine

def root : FrameId := 0

/-- The names that the root frame binds at first, in order; two may share one procedure. -/
def builtins : List (String × Value) :=
  [("+", .primitive .add), ("-", .primitive .subtract), ("*", .primitive .multiply),
    ("/", .primitive .divide), ("=", .primitive (.compare .equal)),
    ("<", .primitive (.compare .less)), (">", .primitive (.compare .greater)),
    ("<=", .primitive (.compare .atMost)), (">=", .primitive (.compare .atLeast)),
    ("not", .primitive .not), ("eq?", .primitive .same), ("equal?", .primitive .equal),
    ("length", .primitive .length), ("cons", .primitive .cons), ("car", .primitive .car),
    ("cdr", .primitive .cdr), ("append", .primitive .append), ("list", .primitive .list),
    ("apply", .control .apply), ("eval", .control .eval), ("call/cc", .control .callWithEscape),
    ("call-with-current-continuation", .control .callWithEscape), ("display", .primitive .display),
    ("atan2", .primitive .atan2), ("pow", .primitive .power), ("hypot", .primitive .hypotenuse),
    ("max", .primitive .greatest), ("min", .primitive .least), ("random", .primitive .random)] ++
  Kind.all.map (fun k => (k.name, .primitive (.isKind k))) ++
  Elementary.all.map (fun f => (f.name, .primitive (.elementary f)))

def isLive (m : Machine) (k : Nat) : Bool :=
  m.continuations.getD k false

/-- The state before any code has run: the built-in procedures in the root frame, and `let`. -/
def start (draws : Draws) : Machine where
  frames := (Frames.empty.new (builtins.map fun (name, v) => .ofName name v) none).2
  transformers := [.ofName "let" (.primitive .expandLet)]
  continuations := #[]
  nextObject := 0
  output := #[]
  draws := draws

end Machine

namespace Run

def fail (f : Failure) : Run α :=
  throw (.failed f)

def ofExcept : Except Failure α → Run α
  | .ok a => pure a
  | .error f => fail f

/-- Goes one level deeper if there is room. -/
def deeper (room : Nat) (go : Nat → Run α) : Run α :=
  match room with
  | 0 => fail .tooDeep
  | room + 1 => go room

/-- The number of an object made now. -/
def newObject : Run Nat :=
  modifyGet fun m => (m.nextObject, { m with nextObject := m.nextObject + 1 })

def newList (items : List Value) : Run Value :=
  return .list (← newObject) items

def source (room : Nat) (v : Value) : Run String := do
  ofExcept (v.text? (← get).isLive room .source)

def bare (room : Nat) (v : Value) : Run String := do
  ofExcept (v.bareText? (← get).isLive room)

/-- Writes a line to the session's output. -/
def writeLine (line : String) : Run Unit :=
  modify fun m => { m with output := m.output.push line }

/-- The next random number. -/
def draw : Run Fraction :=
  modifyGet fun m => (m.draws.next, { m with draws := m.draws.rest })

def keyOf (target : Value) : Run Key :=
  match Key.ofValue? target with
  | some key => pure key
  | none => fail (.misuse .noKey)

/-- The frame that owns a target. -/
def find (room : Nat) (f : FrameId) (target : Value) : Run FrameId := do
  let key ← keyOf target
  match (← get).frames.find? f key with
  | some owner => return owner
  | none => fail (.unbound (← bare room target))

def lookup (room : Nat) (f : FrameId) (target : Value) : Run Value := do
  let key ← keyOf target
  match (← get).frames.lookup? f key with
  | some v => return v
  | none => fail (.unbound (← bare room target))

def bind (f : FrameId) (new : Binding) : Run Unit :=
  modify fun m => { m with frames := m.frames.define f new }

/-- Only a symbol can be defined. -/
def define (room : Nat) (f : FrameId) (target v : Value) : Run Unit := do
  match target.name? with
  | some name => bind f (.ofName name v)
  | none => fail (.type (.notName (← bare room target)))

/-- Rebinds a target in the frame that owns it. -/
def assign (room : Nat) (f : FrameId) (target v : Value) : Run Unit := do
  let owner ← find room f target
  bind owner (← ofExcept (Binding.ofTarget target v))

def defineBindings (room : Nat) (f : FrameId) : Bindings → Run Unit
  | [] => pure ()
  | b :: bs => do
    match b.key.name? with
    | some _ => bind f b
    | none => fail (.type (.notName (← bare room b.target)))
    defineBindings room f bs

/-- Defines several targets at once, each in its first place with its last value. -/
def defineAll (room : Nat) (f : FrameId) (pairs : List (Value × Value)) : Run Unit := do
  defineBindings room f (← ofExcept (Bindings.ofPairs pairs))

/-- The bindings of parameters to arguments. One symbol for all parameters takes the arguments as a list. -/
def bindParameters (room : Nat) (parameters : Value) (args : List Value) : Run Bindings := do
  match parameters.name?, parameters.elements? with
  | some name, _ => return [.ofName name (← newList args)]
  | none, some ps =>
    if ps.length ≠ args.length then
      let names ← ps.mapM (bare room)
      fail (.arity ps.length args.length ("(" ++ String.intercalate " " names ++ ")"))
    else ofExcept (Bindings.ofPairs (ps.zip args))
  | none, none => fail (.misuse (.noLength parameters.kindName))

/-- A new frame that binds parameters to arguments. -/
def newFrame (room : Nat) (parameters : Value) (args : List Value) (outer : Option FrameId) :
    Run FrameId := do
  let bindings ← bindParameters room parameters args
  modifyGet fun m =>
    let (f, frames) := m.frames.new bindings outer
    (f, { m with frames := frames })

/-- The arguments that one value stands for. -/
def argumentsOf (parameters args : Value) : Run (List Value) :=
  match args.elements? with
  | some vs => pure vs
  | none =>
    if parameters.name?.isSome then fail (.misuse (.noElements args.kindName))
    else fail (.misuse (.noLength args.kindName))

/-- A new live continuation. -/
def openContinuation : Run Nat :=
  modifyGet fun m => (m.continuations.size, { m with continuations := m.continuations.push true })

/-- Runs a computation and spends a continuation at its end, however it ends. -/
def spending (k : Nat) (run : Run α) : Run α := fun m =>
  let (result, m) := run m
  (result, { m with continuations := m.continuations.setIfInBounds k false })

/-- Invokes a continuation: an escape to its owner. -/
def invoke (k : Nat) (args : List Value) : Run Value := do
  if !(← get).isLive k then fail .spentContinuation
  match args with
  | [] => return .escape k .unspecified
  | [v] => return .escape k v
  | _ => fail (.arity 1 args.length "continuation")

end Run

end SmallLisp
