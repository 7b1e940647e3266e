/-!
# Signed values

Signed values are mapped onto the natural numbers in the order 0, -1, 1, -2, 2, and so on, so that
values near zero stay small.  `unzigzag_zigzag` and `zigzag_unzigzag` say that this is a
bijection.
-/

namespace EntropyCoding

/-- The place of `v` in the order 0, -1, 1, -2, 2, … -/
def zigzag (v : Int) : Nat :=
  if 0 ≤ v then 2 * v.toNat else 2 * (-v).toNat - 1

/-- The value at place `n` of the order 0, -1, 1, -2, 2, … -/
def unzigzag (n : Nat) : Int :=
  if n % 2 = 0 then (n / 2 : Nat) else -(n / 2 : Nat) - 1

/-- A value is at its place. -/
@[simp] theorem unzigzag_zigzag (v : Int) : unzigzag (zigzag v) = v := by
  unfold unzigzag zigzag
  split <;> split <;> omega

/-- A place is the place of its value. -/
@[simp] theorem zigzag_unzigzag (n : Nat) : zigzag (unzigzag n) = n := by
  unfold unzigzag zigzag
  split <;> split <;> omega

end EntropyCoding
