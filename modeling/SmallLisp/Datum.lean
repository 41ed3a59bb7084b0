/-!
Data: what the reader makes of a text. Data are trees without identity; the evaluator's values begin as
data and are in `Value`.
-/
namespace SmallLisp

inductive Datum where
  | symbol (name : String)
  | int (n : Int)
  | float (x : Float)
  | string (s : String)
  | bool (b : Bool)
  | list (items : List Datum)

end SmallLisp
