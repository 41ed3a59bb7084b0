import SmallLisp.Settings.Path
import SmallLisp.Settings.Integer
/-!
Settings from the variables of the surroundings. A variable without text counts as not set.
-/
namespace SmallLisp

namespace Settings

/-- The variables that are set. -/
abbrev Variables := List (String × String)

def preludeVariable : String := "LISPETTE_PRELUDE_PATH"

def hostVariable : String := "LISPETTE_REPL_HOST"

def portVariable : String := "LISPETTE_REPL_PORT"

def defaultHost : String := "127.0.0.1"

def defaultPort : Int := 8765

/-- Where the library keeps its own prelude. -/
def bundledDirectory : Path := .ofText "/usr/share/small-lisp/prelude"

def nonEmpty? (text : Option String) : Option String :=
  text.filter (· != "")

/-- The text of a variable, if it has any. -/
def value? (vars : Variables) (name : String) : Option String :=
  nonEmpty? (vars.lookup name)

/-- The paths that a variable lists, parted by colons; blank parts are dropped. -/
def paths (vars : Variables) (name : String) (defaults : List Path) : List Path :=
  match value? vars name with
  | none => defaults
  | some text =>
    let parts := (Text.splitAt ':' text.toList).map Text.trim
    (parts.filter (· ≠ [])).map fun part => Path.ofText (String.ofList part)

/-- The files that a session may look at. The host can refuse any question about them. -/
structure Files where
  isDirectory : Path → Except FileFault Bool
  isFile : Path → Except FileFault Bool
  read : Path → Except FileFault String

/-- The first directory named for the prelude, or the parent of what is named when that is no
directory. A variable that names nothing has no first path. -/
def preludeRoot (vars : Variables) (isDirectory : Path → Except FileFault Bool) : Except Failure Path :=
  match paths vars preludeVariable [bundledDirectory] with
  | [] => .error .listIndex
  | path :: _ => (isDirectory path).mapError .file |>.map fun found => if found then path else path.parent

def missingPrelude (core : Path) : FileFault :=
  .notFound ("Cannot find prelude '" ++ core.text ++ "'")

/-- The text of the prelude in a directory, its line ends made newlines. -/
def Files.prelude (files : Files) (root : Path) : Except FileFault String := do
  let core := root.child "core.scm"
  if !(← files.isFile core) then throw (missingPrelude core)
  return String.ofList (Text.unifyBreaks (← files.read core).toList)

/-- The text of the prelude found by the settings, none when it is not found. Nothing else that the host
raises is caught. -/
def prelude? (vars : Variables) (files : Files) : Except Failure (Option String) :=
  match preludeRoot vars files.isDirectory >>= fun root => (files.prelude root).mapError .file with
  | .ok text => .ok (some text)
  | .error (.file (.notFound _)) => .ok none
  | .error f => .error f

structure Address where
  host : String
  port : Int
  deriving DecidableEq, Repr

/-- The address at which sessions are served. -/
def address (vars : Variables) : Except Failure Address := do
  let port ← match value? vars portVariable with
    | some text => integer text
    | none => .ok defaultPort
  return ⟨(value? vars hostVariable).getD defaultHost, port⟩

/-- The address with a given host and port in place of the configured ones. An empty host and port
zero count as not given, and the configured address must be valid in any case. -/
def serverAddress (vars : Variables) (host : Option String) (port : Option Int) :
    Except Failure Address := do
  let configured ← address vars
  return ⟨(nonEmpty? host).getD configured.host, (port.filter (· != 0)).getD configured.port⟩

end Settings

end SmallLisp
