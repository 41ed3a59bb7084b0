/-!
JSON values. The members of an object keep the order in which their names first came; a name given again
replaces the value in its place.
-/
namespace SmallLisp

inductive Json where
  | null
  | bool (b : Bool)
  | int (n : Int)
  | float (x : Float)
  | string (s : String)
  | array (items : List Json)
  | object (members : List (String × Json))
  deriving Inhabited

namespace Json

def putMember (members : List (String × Json)) (name : String) (value : Json) :
    List (String × Json) :=
  match members with
  | [] => [(name, value)]
  | (other, old) :: rest =>
    if other = name then (name, value) :: rest else (other, old) :: putMember rest name value

def member? (name : String) : Json → Option Json
  | object members => members.lookup name
  | _ => none

end Json

end SmallLisp
