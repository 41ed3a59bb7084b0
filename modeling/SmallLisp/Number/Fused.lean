import SmallLisp.Number.Binary64
/-!
A product added to a third number, a · b + c, calculated exactly and rounded once. An exact zero is
negative only if the product and the third number both are.
-/
namespace SmallLisp.Number

/-- The signed whole number m · 2 ^ (e - least), for an exponent e that is not below the least one. -/
def aligned (least : Int) (negative : Bool) (m : Nat) (e : Int) : Int :=
  let n : Int := m * twoTo (e - least).toNat
  if negative then -n else n

/-- The double nearest to n · 2 ^ e. The sign of a zero is given. -/
def floatOfScaled (negativeZero : Bool) (n e : Int) : Float :=
  if n = 0 then zero negativeZero
  else ((Ratio.scale ⟨n.natAbs, 1⟩ e).toFloat? (n < 0)).getD (infinity (n < 0))

/-- The double nearest to a · b + c. -/
def fusedMulAdd (a b c : Float) : Float :=
  match Binary64.ofFloat a, Binary64.ofFloat b, Binary64.ofFloat c with
  | .finite na ma ea, .finite nb mb eb, .finite nc mc ec =>
    let product := ea + eb
    let least := if product < ec then product else ec
    let sum := aligned least (na != nb) (ma * mb) product + aligned least nc mc ec
    floatOfScaled (nc && (na != nb)) sum least
  | _, _, _ => a * b + c

theorem natAbs_aligned (least : Int) (negative : Bool) (m : Nat) (e : Int) :
    (aligned least negative m e).natAbs = m * twoTo (e - least).toNat := by
  cases negative <;> simp [aligned, Int.natAbs_mul]

end SmallLisp.Number
