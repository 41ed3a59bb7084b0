import SmallLisp.Value
import SmallLisp.Number.Binary64
/-!
The two equalities. `same` compares atoms of one kind by what they are, and lists, closures and results that
are no number by the object they are; two empty lists are the same. `equal` goes into lists.
-/
namespace SmallLisp.Value

def same : Value → Value → Bool
  | int a, int b => a == b
  | float a, float b => a == b
  | nan i, nan j => i == j
  | string a, string b => a == b
  | bool a, bool b => a == b
  | list i xs, list j ys => i == j || (xs.isEmpty && ys.isEmpty)
  | closure i _ _ _, closure j _ _ _ => i == j
  | continuation k, continuation l => k == l
  | primitive p, primitive q => p == q
  | control c, control d => c == d
  | unspecified, unspecified => true
  | a, b => a.name?.isSome && a.name? == b.name?

/-- Compares two lists of values up to the first difference, none when a comparison gives none. -/
def allEqual? (equal? : Value → Value → Option Bool) : List Value → List Value → Option Bool
  | x :: xs, y :: ys => do if ← equal? x y then allEqual? equal? xs ys else return false
  | _, _ => some true

/-- Deep equality, none when the values agree down to more levels than there is room for. -/
def equal? : (room : Nat) → Value → Value → Option Bool
  | 0, list .., list .. => none
  | room + 1, list _ xs, list _ ys =>
    if xs.length = ys.length then allEqual? (equal? room) xs ys else some false
  | _, a, b => some (a.same b)

end SmallLisp.Value
