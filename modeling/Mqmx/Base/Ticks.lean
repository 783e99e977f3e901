import Mathlib.Algebra.Group.Nat.Defs
import Mathlib.Algebra.Ring.Int.Defs

/-!
# Clock ticks

A clock counts in a signed type of 64 bits.  `InRange` are the values of the type, and
`Adds plus` says that `plus` is an addition of it: exact wherever the sum is a value of the
type, and else some value of it, since the sum is undefined there.  `wrap` is the one of
most machines.
-/

namespace Ticks

def min : Int := -2 ^ 63

def max : Int := 2 ^ 63 - 1

/-- The values of the tick type. -/
def InRange (t : Int) : Prop := min ≤ t ∧ t ≤ max

instance (t : Int) : Decidable (InRange t) := inferInstanceAs (Decidable (_ ∧ _))

/-- An addition of the tick type. -/
structure Adds (plus : Int → Int → Int) : Prop where
  exact : ∀ {a b : Int}, InRange (a + b) → plus a b = a + b
  inRange : ∀ a b : Int, InRange (plus a b)

/-- **A sum is right where it is representable, and only there.** -/
theorem Adds.eq_iff {plus : Int → Int → Int} (h : Adds plus) {a b : Int} :
    plus a b = a + b ↔ InRange (a + b) := by
  constructor
  · intro e
    rw [← e]
    exact h.inRange a b
  · exact h.exact

/-- Addition modulo 2^64. -/
def wrap (a b : Int) : Int := Int.bmod (a + b) (2 ^ 64)

theorem wrap_adds : Adds wrap where
  exact := by
    rintro a b ⟨h1, h2⟩
    unfold min at h1
    unfold max at h2
    exact Int.bmod_eq_of_le (by omega) (by omega)
  inRange := by
    intro a b
    have h1 := Int.le_bmod (x := a + b) (m := 2 ^ 64) (by decide)
    have h2 := Int.bmod_lt (x := a + b) (m := 2 ^ 64) (by decide)
    unfold InRange min max wrap
    omega

end Ticks
