/-!
Powers of two, of ten and of integers.
-/
namespace SmallLisp.Number

def twoTo (k : Nat) : Nat :=
  1 <<< k

def tenTo (k : Nat) : Nat :=
  Nat.pow 10 k

theorem twoTo_zero : twoTo 0 = 1 := rfl

theorem twoTo_succ (k : Nat) : twoTo (k + 1) = 2 * twoTo k := by
  simp [twoTo, Nat.shiftLeft_succ]

theorem twoTo_pos (k : Nat) : 0 < twoTo k := by
  induction k with
  | zero => simp [twoTo_zero]
  | succ k ih => rw [twoTo_succ]; omega

theorem tenTo_zero : tenTo 0 = 1 := rfl

theorem tenTo_succ (k : Nat) : tenTo (k + 1) = tenTo k * 10 := rfl

theorem tenTo_pos (k : Nat) : 0 < tenTo k := by
  induction k with
  | zero => simp [tenTo_zero]
  | succ k ih => rw [tenTo_succ]; omega

/-- The power of a natural number; those of zero and one take no multiplication. -/
def natPower : Nat → Nat → Nat
  | _, 0 => 1
  | 0, _ => 0
  | 1, _ => 1
  | m, n => Nat.pow m n

/-- The power of an integer: that of its absolute value, negative when the base is and the exponent is
odd. -/
def intPower (m : Int) (n : Nat) : Int :=
  let size := natPower m.natAbs n
  if m < 0 ∧ n % 2 = 1 then -(size : Int) else size

theorem natPower_eq (m n : Nat) : natPower m n = Nat.pow m n := by
  unfold natPower
  split
  · rfl
  · next h => cases n with
    | zero => exact (h rfl).elim
    | succ n => simp
  · simp
  · rfl

end SmallLisp.Number
