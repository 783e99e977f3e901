import Mathlib.Data.List.Basic

/-!
# Interleavings

`Interleaves ls l`: the list `l` is put together from the lists `ls`, each of them in
its own order.  The relation grows at the end, where a history grows: the next element
of `l` is the next element of one of the `ls`.
-/

universe u

inductive Interleaves {α : Type u} : List (List α) → List α → Prop
  | nil {ls : List (List α)} : (∀ m ∈ ls, m = []) → Interleaves ls []
  | snoc {a b : List (List α)} {m l : List α} (x : α) : Interleaves (a ++ m :: b) l →
      Interleaves (a ++ (m ++ [x]) :: b) (l ++ [x])

/-- **Every element of the lists is there exactly once.** -/
theorem Interleaves.perm {α : Type u} {ls : List (List α)} {l : List α} (h : Interleaves ls l) :
    l.Perm ls.flatten := by
  induction h with
  | nil h => rw [List.flatten_eq_nil_iff.mpr h]
  | @snoc a b m l x _ ih =>
    have hmove : (a ++ (m ++ [x]) :: b).flatten.Perm ((a ++ m :: b).flatten ++ [x]) := by
      have hx : ([x] ++ b.flatten).Perm (b.flatten ++ [x]) := List.perm_append_comm
      simp only [List.flatten_append, List.flatten_cons, List.append_assoc]
      exact (hx.append_left m).append_left a.flatten
    exact (ih.append_right [x]).trans hmove.symm
