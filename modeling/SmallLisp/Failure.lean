import SmallLisp.Limits
/-!
Failures, one constructor per cause. `kind` and `message` are the two parts of a failure's text, as
reports, answers and diagnostics show them.
-/
namespace SmallLisp

/-- What is wrong with a form that the reader or the expander refuses. -/
inductive FormFault where
  | wrongLength
  | unterminatedString
  | unexpectedClose
  | nothingQuoted
  | assignsNonSymbol
  | illegalTarget
  | definesNonSymbol
  | notTopLevel
  | notTransformer
  | illegalParameters
  | straySplice
  | illegalBindings
  deriving DecidableEq, Repr

namespace FormFault

def message : FormFault → String
  | wrongLength => "wrong length"
  | unterminatedString => "unterminated string"
  | unexpectedClose => "unexpected )"
  | nothingQuoted => "unexpected end of input after quote"
  | assignsNonSymbol => "can set! only a symbol"
  | illegalTarget => "illegal definition target"
  | definesNonSymbol => "can define only a symbol"
  | notTopLevel => "define-macro only allowed at top level"
  | notTransformer => "macro must be a procedure"
  | illegalParameters => "illegal lambda argument list"
  | straySplice => "can't splice here"
  | illegalBindings => "illegal binding list"

end FormFault

/-- An integer or a quotient of integers that has no nearest double. -/
inductive Overflow where
  | integer
  | quotient
  deriving DecidableEq, Repr

namespace Overflow

def message : Overflow → String
  | integer => "int too large to convert to float"
  | quotient => "integer division result too large for a float"

end Overflow

/-- Why a mathematical function has no answer. -/
inductive MathFault where
  | domain
  | range
  | overflow (cause : Overflow)
  | infinity
  | nan
  | powerRange
  | complexPower
  | zeroToNegativePower
  | notReal
  deriving DecidableEq, Repr

namespace MathFault

def message : MathFault → String
  | domain => "math domain error"
  | range => "math range error"
  | overflow cause => cause.message
  | infinity => "cannot convert float infinity to integer"
  | nan => "cannot convert float NaN to integer"
  | powerRange => "(34, 'Numerical result out of range')"
  | complexPower => "complex exponentiation"
  | zeroToNegativePower => "zero to a negative power"
  | notReal => "result is not a real number"

end MathFault

def longIntegerMessage (digits : Option Nat) : String :=
  let found := match digits with
    | some n => ": value has " ++ toString n ++ " digits"
    | none => ""
  "Exceeds the limit (" ++ toString digitLimit ++ " digits) for integer string conversion" ++ found ++
    "; use sys.set_int_max_str_digits() to increase the limit"

/-- An operand of the wrong kind. The texts are those of the offending values. -/
inductive TypeFault where
  | notProcedure (value : String)
  | emptyApplication
  | notName (value : String)
  | notNumber (operation value : String)
  | notList (operation value : String)
  | notListOrString (value : String)
  | emptyList (operation : String)
  | divisionByZero
  | math (operation : String) (fault : MathFault)
  | unwritable (operation : String)
  deriving DecidableEq, Repr

namespace TypeFault

def message : TypeFault → String
  | notProcedure v => "cannot apply non-procedure " ++ v
  | emptyApplication => "cannot evaluate the empty list ()"
  | notName v => "Cannot define " ++ v ++ " as a symbol"
  | notNumber op v => "All arguments to " ++ op ++ " must be numbers, got " ++ v
  | notList op v => op ++ " expects a list, got " ++ v
  | notListOrString v => "length expects a list or string, got " ++ v
  | emptyList op => op ++ " of empty list"
  | divisionByZero => "Division by zero"
  | math op fault => op ++ ": " ++ fault.message
  | unwritable op => op ++ ": " ++ longIntegerMessage none

end TypeFault

/-- A form of unexpanded code with the wrong number of parts for its keyword. -/
inductive ShapeFault where
  | tooFew (expected got : Nat)
  | fewerThan (least got : Nat)
  | tooMany (expected : Nat)
  deriving DecidableEq, Repr

namespace ShapeFault

def message : ShapeFault → String
  | tooFew expected got =>
    "not enough values to unpack (expected " ++ toString expected ++ ", got " ++ toString got ++ ")"
  | fewerThan least got =>
    "not enough values to unpack (expected at least " ++ toString least ++ ", got " ++
      toString got ++ ")"
  | tooMany expected => "too many values to unpack (expected " ++ toString expected ++ ")"

end ShapeFault

/-- A value that cannot serve as what it is used for: a key, a counted sequence, or a sequence at all. Only lists
are no keys. -/
inductive Misuse where
  | noKey
  | noLength (kind : String)
  | noElements (kind : String)
  deriving DecidableEq, Repr

namespace Misuse

def message : Misuse → String
  | noKey => "unhashable type: 'list'"
  | noLength kind => "object of type '" ++ kind ++ "' has no len()"
  | noElements kind => "'" ++ kind ++ "' object is not iterable"

end Misuse

/-- What the host raises in place of an answer about a file: that there is none, or anything else. -/
inductive FileFault where
  | notFound (message : String)
  | refused (kind message : String)
  deriving DecidableEq, Repr

namespace FileFault

def kind : FileFault → String
  | notFound _ => "FileNotFoundError"
  | refused kind _ => kind

def message : FileFault → String
  | notFound text => text
  | refused _ text => text

end FileFault

inductive Failure where
  | malformed (form : String) (fault : FormFault)
  | unbound (name : String)
  | type (fault : TypeFault)
  | arity (expected given : Nat) (detail : String)
  | spentContinuation
  | escapedSession
  | overflow (cause : Overflow)
  | shape (fault : ShapeFault)
  | longInteger (digits : Option Nat)
  | badInteger (quotedText : String)
  | listIndex
  | stringIndex
  | notText (kind : String)
  | misuse (fault : Misuse)
  | file (fault : FileFault)
  /-- The host has no room to go deeper; the text is the host's. -/
  | nesting (text : String)
  deriving DecidableEq, Repr

namespace Failure

def kind : Failure → String
  | malformed .. => "LispetteSyntaxError"
  | unbound _ => "LispetteUnboundSymbol"
  | type _ => "LispetteTypeError"
  | arity .. => "LispetteArityError"
  | spentContinuation | escapedSession => "LispetteContinuationError"
  | overflow _ => "OverflowError"
  | shape _ | longInteger _ | badInteger _ => "ValueError"
  | listIndex | stringIndex => "IndexError"
  | notText _ => "AttributeError"
  | misuse _ => "TypeError"
  | file fault => fault.kind
  | nesting _ => "RecursionError"

def message : Failure → String
  | malformed form fault => form ++ ": " ++ fault.message
  | unbound name => "unbound variable " ++ name
  | type fault => fault.message
  | arity expected given detail =>
    "expected " ++ toString expected ++ " argument(s), got " ++ toString given ++
      (if detail = "" then "" else ": " ++ detail)
  | spentContinuation => "continuation invoked after its call/cc returned"
  | escapedSession => "escape reached the top level"
  | overflow cause => cause.message
  | shape fault => fault.message
  | longInteger digits => longIntegerMessage digits
  | badInteger text => "invalid literal for int() with base 10: " ++ text
  | listIndex => "list index out of range"
  | stringIndex => "string index out of range"
  | notText kind => "'" ++ kind ++ "' object has no attribute 'split'"
  | misuse fault => fault.message
  | file fault => fault.message
  | nesting text => text

/-- What the host says of itself where it goes no deeper. -/
def tooDeep : Failure :=
  nesting "maximum recursion depth exceeded"

/-- One line: the kind and the message. -/
def report (f : Failure) : String :=
  f.kind ++ ": " ++ f.message

end Failure

end SmallLisp
