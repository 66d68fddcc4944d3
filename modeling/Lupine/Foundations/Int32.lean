import Mathlib.Algebra.Ring.Int.Defs

/-!
# The C type `int`

Counters of this type are integers, and what is stored is the exact result reduced to 32 bits in
two's complement.
-/

namespace Lupine.Foundations

def intMax : ℤ := 2 ^ 31 - 1

/-- The `int` that an exact sum is stored as. -/
def wrapInt (x : ℤ) : ℤ := (x + 2 ^ 31) % 2 ^ 32 - 2 ^ 31

theorem wrapInt_of_le {x : ℤ} (hlow : 0 ≤ x) (hhigh : x ≤ intMax) : wrapInt x = x := by
  unfold wrapInt intMax at *
  omega

theorem wrapInt_of_gt {x : ℤ} (hlow : intMax < x) (hhigh : x ≤ intMax + 2) : wrapInt x < 0 := by
  unfold wrapInt intMax at *
  omega

end Lupine.Foundations
