/-!
The prelude: the derived forms that every session has unless it is started without them. The variable
`or-value` of `or` is visible to the clauses after the first.
-/
namespace SmallLisp.Prelude

def text : String :=
"(define-macro and (lambda args
  (if (null? args) #t
      (if (= (length args) 1) (car args)
          `(if ,(car args) (and ,@(cdr args)) #f)))))

(define-macro or (lambda args
  (if (null? args) #f
      (if (= (length args) 1) (car args)
          `(let ((or-value ,(car args)))
             (if or-value or-value (or ,@(cdr args))))))))

(define-macro when (lambda form
  `(if ,(car form) (begin ,@(cdr form)))))

(define-macro unless (lambda form
  `(if (not ,(car form)) (begin ,@(cdr form)))))
"

end SmallLisp.Prelude
