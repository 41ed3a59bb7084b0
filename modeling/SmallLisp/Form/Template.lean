import SmallLisp.Form.Keyword
import SmallLisp.Machine
/-!
Shapes of forms, and templates. A template becomes an expression that builds it from its quoted and unquoted
parts with `cons` and `append`.
-/
namespace SmallLisp.Form

open Run

/-- Fails with the text of the form at fault. -/
def refuse (room : Nat) (form : Value) (fault : FormFault) : Run α := do
  fail (.malformed (← source room form) fault)

def require (room : Nat) (form : Value) (fault : FormFault) (ok : Bool) : Run Unit :=
  if ok then pure () else refuse room form fault

def quoteForm (v : Value) : Run Value :=
  newList [CoreKeyword.quote.symbol, v]

/-- Whether a value is a form headed by the symbol. -/
def isHeadedBy (name : String) : Value → Bool
  | .list _ (head :: _) => head.isSymbol name
  | _ => false

/-- The rest of a template list is a template again, so an `unquote` at its head gives the tail. -/
def ofTemplate : (room : Nat) → Value → Run Value
  | 0, _ => fail .tooDeep
  | room + 1, template =>
    match template with
    | .list _ (head :: rest) => do
      require room template .straySplice (!head.isSymbol "unquote-splicing")
      if head.isSymbol "unquote" then
        match rest with
        | [e] => return e
        | _ => refuse room template .wrongLength
      else if isHeadedBy "unquote-splicing" head then
        match head with
        | .list _ [_, e] =>
          let after ← ofTemplate room (← newList rest)
          newList [.symbol "append", e, after]
        | _ => refuse room head .wrongLength
      else
        let first ← ofTemplate room head
        let after ← ofTemplate room (← newList rest)
        newList [.symbol "cons", first, after]
    | v => quoteForm v

/-- There are no dotted lists, so a point is no parameter. -/
def isParameter : Value → Bool
  | .symbol name => name != "."
  | _ => false

def areParameters : Value → Bool
  | .list _ ps => ps.all isParameter
  | v => isParameter v

/-- A binding of `let`: a list of a symbol and an expression. -/
def letBinding? : Value → Option (Value × Value)
  | .list _ [.symbol name, e] => some (.symbol name, e)
  | _ => none

def letBindings? : Value → Option (List (Value × Value))
  | .list _ bindings => bindings.mapM letBinding?
  | _ => none

/-- `(let ((v e) ...) body ...)` applies `(lambda (v ...) body ...)` to the expressions. -/
def expandLet (room : Nat) (operands : List Value) : Run Value := do
  let form := Value.list 0 (.symbol "let" :: operands)
  match operands with
  | bindings :: first :: more =>
    match letBindings? bindings with
    | some pairs =>
      let names ← newList (pairs.map (·.1))
      let closure ← newList (CoreKeyword.lambda.symbol :: names :: first :: more)
      newList (closure :: pairs.map (·.2))
    | none => refuse room form .illegalBindings
  | _ => refuse room form .wrongLength

end SmallLisp.Form
