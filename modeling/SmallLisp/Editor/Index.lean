import SmallLisp.Editor.Scan
/-!
The index of a document: the names that its definition forms define, at whatever depth, and the
parentheses and strings that nothing closes. It is made from the lexemes alone; nothing is read or
evaluated.
-/
namespace SmallLisp.Editor

inductive DefinitionKind where
  | var
  | function
  | transformer
  deriving DecidableEq, Repr

namespace DefinitionKind

def text : DefinitionKind → String
  | var => "var"
  | function => "function"
  | transformer => "macro"

end DefinitionKind

structure Definition where
  name : String
  kind : DefinitionKind
  place : Position
  deriving DecidableEq, Repr

/-- One definition per name, in the order in which the names were first defined. -/
structure Index where
  definitions : List Definition
  unclosed : List Position
  strayCloses : List Position
  openStrings : List Position
  deriving DecidableEq, Repr

namespace Index

def empty : Index := ⟨[], [], [], []⟩

/-- How many more parentheses are opened than closed. -/
def balance (i : Index) : Int :=
  i.unclosed.length - i.strayCloses.length

def hasOpenString (i : Index) : Bool :=
  !i.openStrings.isEmpty

def find? (i : Index) (name : String) : Option Definition :=
  i.definitions.find? fun d => d.name == name

end Index

/-- A name defined again keeps its first place in the order with its last data. -/
def putDefinition : List Definition → Definition → List Definition
  | [], d => [d]
  | other :: ds, d => if other.name = d.name then d :: ds else other :: putDefinition ds d

/-- The kind of definition that a head begins. -/
def definitionHead? (t : Lexeme) : Option DefinitionKind :=
  if t.text = "define".toList then some .var
  else if t.text = "define-macro".toList then some .transformer
  else none

/-- A parenthesis or a string is no name; a number or a quote marker is taken for one. -/
def named? (kind : DefinitionKind) (t : Lexeme) : Option Definition :=
  if t.isOpen || t.isClose || t.isString then none
  else some ⟨String.ofList t.text, kind, t.place⟩

/-- What is defined by a form with the given kind of head, from its target on. A list target defines
a function by its first lexeme. -/
def target? (kind : DefinitionKind) : List Lexeme → Option Definition
  | [] => none
  | t :: rest =>
    if t.isOpen then
      match rest with
      | [] => none
      | name :: _ => named? (if kind = .var then .function else kind) name
    else named? kind t

/-- What the form whose parenthesis has just been read defines. -/
def definition? : List Lexeme → Option Definition
  | [] => none
  | head :: rest => (definitionHead? head).bind fun kind => target? kind rest

/-- The scan so far: the index, and the parentheses still open, the innermost first. -/
structure Progress where
  definitions : List Definition
  opens : List Position
  strayCloses : List Position
  openStrings : List Position

namespace Progress

def start : Progress := ⟨[], [], [], []⟩

def step (p : Progress) (t : Lexeme) (rest : List Lexeme) : Progress :=
  if t.isOpenString then { p with openStrings := p.openStrings ++ [t.place] }
  else if t.isOpen then
    let definitions := match definition? rest with
      | some d => putDefinition p.definitions d
      | none => p.definitions
    { p with definitions := definitions, opens := t.place :: p.opens }
  else if t.isClose then
    match p.opens with
    | _ :: opens => { p with opens := opens }
    | [] => { p with strayCloses := p.strayCloses ++ [t.place] }
  else p

def run (p : Progress) : List Lexeme → Progress
  | [] => p
  | t :: rest => run (p.step t rest) rest

def finish (p : Progress) : Index :=
  ⟨p.definitions, p.opens.reverse, p.strayCloses, p.openStrings⟩

end Progress

def Index.ofLexemes (ts : List Lexeme) : Index :=
  (Progress.start.run ts).finish

def Index.ofText (text : String) : Index :=
  .ofLexemes (scan text.toList)

end SmallLisp.Editor
