import SmallLisp.Editor.Index
import SmallLisp.Reader.Port
/-!
Diagnostics: what the reader refuses in a document, at most one error, and a warning for each list that
the end of the text closes. Nothing is expanded or evaluated.
-/
namespace SmallLisp.Editor

structure Range where
  start : Position
  stop : Position
  deriving DecidableEq, Repr

namespace Range

def ofWidth (p : Position) (width : Nat) : Range :=
  ⟨p, p.right width⟩

end Range

inductive Severity where
  | error
  | warning
  deriving DecidableEq, Repr

namespace Severity

def code : Severity → Nat
  | error => 1
  | warning => 2

end Severity

structure Diagnostic where
  range : Range
  message : String
  severity : Severity
  deriving DecidableEq, Repr

def diagnosticSource : String := "lispette-ls"

def unclosedMessage : String :=
  "Unclosed '(': the list is closed at end of input"

/-- Where a fault of the reader is shown: at the first lexeme of its sort, or at the end. -/
def faultPlace (index : Index) (text : String) : FormFault → Position
  | .unexpectedClose => index.strayCloses.headD (.afterText text.toList)
  | .unterminatedString => index.openStrings.headD (.afterText text.toList)
  | _ => .afterText text.toList

/-- The failure that ends the reading of a text, if one does. -/
def readerFailure? (room : Nat) (text : String) : Option Failure :=
  ((Reader.Port.ofText text ⟨0, []⟩).forms room).2

/-- The error that a failure of the reader becomes. Failures other than malformed forms are not
reported here but end the diagnosis. -/
def errors (index : Index) (text : String) : Option Failure → Except Failure (List Diagnostic)
  | none => .ok []
  | some (.malformed form fault) =>
    .ok [⟨.ofWidth (faultPlace index text fault) 1, (Failure.malformed form fault).message, .error⟩]
  | some failure => .error failure

def warnings (index : Index) : List Diagnostic :=
  index.unclosed.map fun p => ⟨.ofWidth p 1, unclosedMessage, .warning⟩

def diagnose (room : Nat) (text : String) (index : Index) : Except Failure (List Diagnostic) := do
  return (← errors index text (readerFailure? room text)) ++ warnings index

end SmallLisp.Editor
