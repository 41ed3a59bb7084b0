import SmallLisp.Editor.Diagnostics
import SmallLisp.Editor.Word
import SmallLisp.Editor.Signatures
/-!
The workspace of an editor: the open documents with their indexes. A document is indexed whenever its text
changes, and its diagnostics are published; closing it publishes that there are none. A server keeps a
workspace as an editor tells it.
-/
namespace SmallLisp.Editor

structure Document where
  text : String
  index : Index

structure Workspace where
  documents : List (String × Document)

/-- The diagnostics of a document, to be shown in place of those shown before. -/
structure Publication where
  uri : String
  diagnostics : List Diagnostic

namespace Workspace

def empty : Workspace := ⟨[]⟩

def document? (w : Workspace) (uri : String) : Option Document :=
  w.documents.lookup uri

def without (w : Workspace) (uri : String) : Workspace :=
  ⟨w.documents.filter fun (other, _) => other != uri⟩

/-- The document has this text from now on. It is indexed even when its diagnosis fails. -/
def update (w : Workspace) (room : Nat) (uri text : String) :
    Except Failure Publication × Workspace :=
  let index := Index.ofText text
  let published := (diagnose room text index).map fun diagnostics => ⟨uri, diagnostics⟩
  (published, ⟨(uri, ⟨text, index⟩) :: (w.without uri).documents⟩)

def close (w : Workspace) (uri : String) : Publication × Workspace :=
  (⟨uri, []⟩, w.without uri)

/-- The signature of a built-in name, else where the document defines the name. -/
def describe? (index : Index) (word : String) : Option String :=
  match signatures.lookup word with
  | some signature => some signature
  | none => (index.find? word).map fun d =>
    word ++ ": " ++ d.kind.text ++ " (defined at " ++ toString (d.place.line + 1) ++ ":" ++
      toString (d.place.column + 1) ++ ")"

/-- What is known of the word at a cursor. -/
def hover (w : Workspace) (uri : String) (line column : Nat) : Except Failure (Option String) :=
  match w.document? uri with
  | none => .ok none
  | some document => do
    let word ← wordAt document.text line column
    return word.bind (describe? document.index)

inductive CompletionKind where
  | function
  | variable
  deriving DecidableEq, Repr

structure Completion where
  label : String
  kind : CompletionKind
  detail : String

/-- The built-in names, then the names that the document defines. -/
def completions (w : Workspace) (uri : String) : List Completion :=
  let index := match w.document? uri with
    | some document => document.index
    | none => .empty
  signatures.map (fun (name, signature) => ⟨name, .function, signature⟩) ++
    index.definitions.map fun d => ⟨d.name, .variable, d.kind.text⟩

/-- A definition with the range of its name. -/
structure OutlineEntry where
  definition : Definition
  range : Range

def nameRange (d : Definition) : Range :=
  .ofWidth d.place d.name.length

/-- The definitions of an open document. -/
def outline? (w : Workspace) (uri : String) : Option (List OutlineEntry) :=
  (w.document? uri).map fun document => document.index.definitions.map fun d => ⟨d, nameRange d⟩

end Workspace

/-- What an editor tells: a document is opened with a text, gets another one, or is closed. -/
inductive Notification where
  | opened (uri text : String)
  | changed (uri text : String)
  | closed (uri : String)
  deriving DecidableEq, Repr

namespace Notification

def uri : Notification → String
  | opened uri _ | changed uri _ | closed uri => uri

/-- The text that the document has from now on, unless it is closed. -/
def text? : Notification → Option String
  | opened _ text | changed _ text => some text
  | closed _ => none

end Notification

/-- A workspace, and all that has been published from it. -/
structure Server where
  workspace : Workspace
  published : List Publication

namespace Server

def start : Server := ⟨.empty, []⟩

/-- A document has a text from now on. If its diagnosis fails, nothing is published. -/
def refresh (s : Server) (room : Nat) (uri text : String) : Server :=
  match s.workspace.update room uri text with
  | (.ok p, w) => ⟨w, s.published ++ [p]⟩
  | (.error _, w) => ⟨w, s.published⟩

def close (s : Server) (uri : String) : Server :=
  let (p, w) := s.workspace.close uri
  ⟨w, s.published ++ [p]⟩

def receive (room : Nat) (s : Server) : Notification → Server
  | .opened uri text | .changed uri text => s.refresh room uri text
  | .closed uri => s.close uri

def receiveAll (room : Nat) (ns : List Notification) : Server :=
  ns.foldl (receive room) start

end Server

end SmallLisp.Editor
