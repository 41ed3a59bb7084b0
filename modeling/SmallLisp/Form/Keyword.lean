import SmallLisp.Value
/-!
The keywords. Core forms are evaluated; the other two exist only until expansion.
-/
namespace SmallLisp

inductive CoreKeyword where
  | quote
  | test
  | assign
  | define
  | lambda
  | sequence
  deriving DecidableEq, Repr

inductive Keyword where
  | core (k : CoreKeyword)
  | defineTransformer
  | template
  deriving DecidableEq, Repr

namespace CoreKeyword

def name : CoreKeyword → String
  | quote => "quote"
  | test => "if"
  | assign => "set!"
  | define => "define"
  | lambda => "lambda"
  | sequence => "begin"

def all : List CoreKeyword :=
  [quote, test, assign, define, lambda, sequence]

def ofName? (name : String) : Option CoreKeyword :=
  all.find? fun k => k.name == name

def symbol (k : CoreKeyword) : Value :=
  .symbol k.name

/-- The keyword that a head of a form is. -/
def ofHead? : Value → Option CoreKeyword
  | .symbol name => ofName? name
  | _ => none

end CoreKeyword

namespace Keyword

def ofName? (name : String) : Option Keyword :=
  if name = "define-macro" then some defineTransformer
  else if name = "quasiquote" then some template
  else (CoreKeyword.ofName? name).map core

def ofHead? : Value → Option Keyword
  | .symbol name => ofName? name
  | _ => none

end Keyword

namespace Value

def isSymbol (name : String) : Value → Bool
  | symbol other => other == name
  | _ => false

def isEscape : Value → Bool
  | escape .. => true
  | _ => false

end Value

end SmallLisp
