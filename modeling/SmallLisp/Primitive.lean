/-!
The built-in procedures, by meaning. Primitives compute from their operands alone; control procedures run
code.
-/
namespace SmallLisp

inductive Comparison where
  | equal
  | less
  | greater
  | atMost
  | atLeast
  deriving DecidableEq, Repr

/-- The kinds of values that a predicate asks for. -/
inductive Kind where
  | list
  | pair
  | empty
  | symbol
  | boolean
  | number
  | string
  | procedure
  deriving DecidableEq, Repr

/-- The functions of one number. -/
inductive Elementary where
  | abs
  | acos
  | acosh
  | asin
  | asinh
  | atan
  | atanh
  | cbrt
  | ceil
  | cos
  | cosh
  | exp
  | expm1
  | floor
  | log
  | log1p
  | log10
  | log2
  | round
  | sign
  | sin
  | sinh
  | sqrt
  | tan
  | tanh
  | trunc
  deriving DecidableEq, Repr

inductive Primitive where
  | add
  | subtract
  | multiply
  | divide
  | compare (c : Comparison)
  | not
  | same
  | equal
  | length
  | cons
  | car
  | cdr
  | append
  | list
  | display
  | atan2
  | power
  | hypotenuse
  | greatest
  | least
  | random
  | isKind (k : Kind)
  | elementary (f : Elementary)
  | expandLet
  deriving DecidableEq, Repr

inductive Control where
  | apply
  | eval
  | callWithEscape
  deriving DecidableEq, Repr

namespace Comparison

def name : Comparison → String
  | equal => "="
  | less => "<"
  | greater => ">"
  | atMost => "<="
  | atLeast => ">="

end Comparison

namespace Kind

def name : Kind → String
  | list => "list?"
  | pair => "pair?"
  | empty => "null?"
  | symbol => "symbol?"
  | boolean => "boolean?"
  | number => "number?"
  | string => "string?"
  | procedure => "procedure?"

def all : List Kind :=
  [list, pair, empty, symbol, boolean, number, string, procedure]

end Kind

namespace Elementary

def name : Elementary → String
  | abs => "abs"
  | acos => "acos"
  | acosh => "acosh"
  | asin => "asin"
  | asinh => "asinh"
  | atan => "atan"
  | atanh => "atanh"
  | cbrt => "cbrt"
  | ceil => "ceil"
  | cos => "cos"
  | cosh => "cosh"
  | exp => "exp"
  | expm1 => "expm1"
  | floor => "floor"
  | log => "log"
  | log1p => "log1p"
  | log10 => "log10"
  | log2 => "log2"
  | round => "round"
  | sign => "sign"
  | sin => "sin"
  | sinh => "sinh"
  | sqrt => "sqrt"
  | tan => "tan"
  | tanh => "tanh"
  | trunc => "trunc"

def all : List Elementary :=
  [abs, acos, acosh, asin, asinh, atan, atanh, cbrt, ceil, cos, cosh, exp, expm1, floor, log, log1p,
    log10, log2, round, sign, sin, sinh, sqrt, tan, tanh, trunc]

end Elementary

namespace Primitive

/-- The name that the procedure gives itself in its printed form. -/
def printName : Primitive → String
  | add => "add"
  | subtract => "sub"
  | multiply => "mul"
  | divide => "div"
  | compare .equal => "compare_eq"
  | compare .less => "compare_lt"
  | compare .greater => "compare_gt"
  | compare .atMost => "compare_le"
  | compare .atLeast => "compare_ge"
  | not => "logical_not"
  | same => "eq_p"
  | equal => "equal_p"
  | length => "length"
  | cons => "cons"
  | car => "car"
  | cdr => "cdr"
  | append => "append"
  | list => "list_builtin"
  | display => "register.<locals>.display"
  | atan2 => "atan2"
  | power => "pow_builtin"
  | hypotenuse => "hypot"
  | greatest => "max_builtin"
  | least => "min_builtin"
  | random => "random_builtin"
  | isKind k => k.name
  | elementary f => f.name
  | expandLet => "let_macro"

end Primitive

namespace Control

def printName : Control → String
  | apply => "apply_builtin"
  | eval => "register.<locals>.eval_builtin"
  | callWithEscape => "call_cc"

end Control

end SmallLisp
