/-!
The signatures shown for the built-in procedures and keywords.
-/
namespace SmallLisp.Editor

def signatures : List (String × String) :=
  [("+", "(+ num ...)"), ("-", "(- x num ...)"), ("*", "(* num ...)"), ("/", "(/ x num ...)"),
    ("=", "(= x y ...)"), ("<", "(< x y ...)"), ("cons", "(cons x xs)"), ("car", "(car xs)"),
    ("cdr", "(cdr xs)"), ("list", "(list x ...)"), ("append", "(append xs ...)"),
    ("length", "(length xs)"), ("apply", "(apply f args)"), ("eval", "(eval datum)"),
    ("call/cc", "(call/cc f)"), ("display", "(display x)"), ("max", "(max num ...)"),
    ("min", "(min num ...)"), ("let", "(let ((var val) ...) body ...)"),
    ("lambda", "(lambda (params) body ...)"),
    ("define", "(define name value) | (define (name params) body ...)"),
    ("define-macro", "(define-macro name procedure)"), ("if", "(if test then [else])"),
    ("set!", "(set! var value)"), ("begin", "(begin expr ...)"), ("quote", "(quote datum)"),
    ("quasiquote", "(quasiquote template)")]

end SmallLisp.Editor
