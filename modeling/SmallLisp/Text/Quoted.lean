import SmallLisp.Text.Printable
import SmallLisp.Text.Surrogate
import SmallLisp.Text.Utf8
/-!
Quoted text: one line of printable characters that shows any text without doubt. The quotes are single
unless the text has single quotes and no double ones.
-/
namespace SmallLisp.Text

def codeEscape (n : Nat) : String :=
  if n < 0x100 then "\\x" ++ Utf8.hexDigits 2 n
  else if n < 0x10000 then "\\u" ++ Utf8.hexDigits 4 n
  else "\\U" ++ Utf8.hexDigits 8 n

def quotedPoint (quote : Char) : CodePoint → String
  | .char c =>
    if c = quote ∨ c = '\\' then String.ofList ['\\', c]
    else if c = '\n' then "\\n"
    else if c = '\r' then "\\r"
    else if c = '\t' then "\\t"
    else if isPrintable c then c.toString
    else codeEscape c.toNat
  | .surrogate n => codeEscape (CodePoint.surrogate n).code

def quoteFor (ps : List CodePoint) : Char :=
  if ps.contains (.char '\'') && !ps.contains (.char '"') then '"' else '\''

def quoted (s : String) : String :=
  let ps := points s
  let quote := quoteFor ps
  quote.toString ++ String.join (ps.map (quotedPoint quote)) ++ quote.toString

end SmallLisp.Text
