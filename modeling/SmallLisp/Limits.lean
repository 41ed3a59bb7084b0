/-!
Limits on resources. Nesting counts the evaluations, expansions, list levels or printed levels that
are open inside one another; work in tail position opens none.
-/
namespace SmallLisp

def nestingLimit : Nat := 2500

/-- Integers are read and written only up to this many decimal digits. -/
def digitLimit : Nat := 4300

/-- The bounds of a run: how many steps it may take and how deep they may nest. -/
structure Limits where
  steps : Nat
  nesting : Nat

namespace Limits

/-- No run that ends takes this many steps. -/
def standard : Limits := ⟨0x4000000000000000, nestingLimit⟩

end Limits

end SmallLisp
