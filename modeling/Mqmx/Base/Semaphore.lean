/-!
# Counting semaphores

What a program may rely on of a counting semaphore: it starts at zero, `post` adds
one, and `wait` takes one away or, at zero, blocks.
-/

/-- A counting semaphore.  `wait` is `none` where it blocks. -/
class Semaphore (σ : Type) where
  initial : σ
  post : σ → σ
  wait : σ → Option σ
  value : σ → Nat
  value_initial : value initial = 0
  value_post : ∀ s, value (post s) = value s + 1
  wait_eq_none : ∀ s, wait s = none ↔ value s = 0
  value_wait : ∀ s s', wait s = some s' → value s = value s' + 1

namespace Semaphore

attribute [simp] value_initial value_post

/-- The semaphore that is its own value. -/
instance counter : Semaphore Nat where
  initial := 0
  post s := s + 1
  wait s := if s = 0 then none else some (s - 1)
  value s := s
  value_initial := rfl
  value_post _ := rfl
  wait_eq_none s := by simp
  value_wait s s' h := by
    split at h
    · cases h
    · cases h; omega

end Semaphore
