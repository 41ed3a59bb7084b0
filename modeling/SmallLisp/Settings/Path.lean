import SmallLisp.Text.Lines
/-!
Paths in normal form: repeated and trailing slashes and the components `.` are dropped, `..` is kept, and
exactly two leading slashes differ from one.
-/
namespace SmallLisp.Settings

structure Path where
  root : String
  components : List String
  deriving DecidableEq, Repr

namespace Path

def rootOf (cs : List Char) : String :=
  match (cs.takeWhile (· == '/')).length with
  | 0 => ""
  | 2 => "//"
  | _ => "/"

def ofText (text : String) : Path :=
  let cs := text.toList
  let components := (Text.splitAt '/' cs).map String.ofList
  ⟨rootOf cs, components.filter fun c => c != "" && c != "."⟩

def text (p : Path) : String :=
  if p.root = "" ∧ p.components = [] then "."
  else p.root ++ String.intercalate "/" p.components

/-- The path without its last component; a root is its own parent. -/
def parent (p : Path) : Path :=
  { p with components := p.components.dropLast }

def child (p : Path) (name : String) : Path :=
  { p with components := p.components ++ [name] }

end Path

end SmallLisp.Settings
