import Mathlib.Data.List.Induction
import Mathlib.Data.List.Perm.Basic
import Mathlib.Order.Lattice

/-!
# Binary heaps in a vector

The heap algorithms of a C++ standard library, as far as its standard specifies
them.  A vector is a heap under `comp` when no element precedes its parent's
place: `comp (parent) (child)` never holds, so the front is a maximum under
`comp`.

`Algorithms comp` holds the three functions together with what a caller may rely
on.  It leaves open which heap they build, since the standard does: two libraries
may lay equal elements out differently.  `exists_algorithms` says that this
freedom is complete, and `siftUp` gives one implementation, `Algorithms.sift`.

`FrontStable` is the one further fact some callers need: a new element moves up
only past elements that strictly precede it, so it takes the front from no equal.
-/

namespace StdHeap

universe u

variable {α : Type u}

/-- A strict weak order: what the standard asks of a comparison object. -/
structure StrictWeak (comp : α → α → Prop) : Prop where
  irrefl : ∀ a, ¬ comp a a
  trans : ∀ {a b c}, comp a b → comp b c → comp a c
  negTrans : ∀ {a b c}, ¬ comp a b → ¬ comp b c → ¬ comp a c

theorem StrictWeak.asymm {comp : α → α → Prop} (h : StrictWeak comp) {a b : α}
    (hab : comp a b) : ¬ comp b a := fun hba => h.irrefl a (h.trans hab hba)

theorem strictWeak_of_key {κ : Type*} [LinearOrder κ] (key : α → κ) :
    StrictWeak (fun a b => key b < key a) where
  irrefl a := lt_irrefl (key a)
  trans h g := lt_trans g h
  negTrans h g := by
    rw [not_lt] at *
    exact le_trans h g

def parent (i : ℕ) : ℕ := (i - 1) / 2

theorem parent_lt {i : ℕ} (h : 0 < i) : parent i < i := by
  unfold parent; omega

/-- No element precedes its parent. -/
def IsHeap (comp : α → α → Prop) (v : List α) : Prop :=
  ∀ i p x, 0 < i → v[parent i]? = some p → v[i]? = some x → ¬ comp p x

variable {comp : α → α → Prop}

@[simp] theorem isHeap_nil : IsHeap comp ([] : List α) := by
  intro i p x _ hp _; simp at hp

@[simp] theorem isHeap_singleton (x : α) : IsHeap comp [x] := by
  intro i p y hi _ hy
  rw [List.getElem?_eq_none (by simp; omega)] at hy
  exact absurd hy (by simp)

/-- **The front of a heap is a maximum.** -/
theorem IsHeap.front (hc : StrictWeak comp) {x : α} {v : List α} (h : IsHeap comp (x :: v)) :
    ∀ y ∈ x :: v, ¬ comp x y := by
  suffices ∀ i y, (x :: v)[i]? = some y → ¬ comp x y by
    intro y hy
    obtain ⟨i, hi⟩ := List.getElem?_of_mem hy
    exact this i y hi
  intro i
  induction i using Nat.strongRecOn with
  | ind i ih =>
    intro y hy
    rcases Nat.eq_zero_or_pos i with rfl | hi
    · obtain rfl : x = y := by simpa using hy
      exact hc.irrefl x
    · have hlt : parent i < (x :: v).length := by
        have := (List.getElem?_eq_some_iff.mp hy).1
        have := parent_lt hi
        omega
      have hp : (x :: v)[parent i]? = some ((x :: v)[parent i]) := List.getElem?_eq_getElem hlt
      exact hc.negTrans (ih (parent i) (parent_lt hi) _ hp) (h i _ y hi hp hy)

/-! ### What a caller may rely on -/

/-- `push_heap`, `pop_heap` and `make_heap`, with their specification. -/
structure Algorithms (comp : α → α → Prop) where
  pushHeap : List α → List α
  popHeap : List α → List α
  makeHeap : List α → List α
  pushHeap_perm : ∀ {v x}, IsHeap comp v → (pushHeap (v ++ [x])).Perm (v ++ [x])
  pushHeap_isHeap : ∀ {v x}, IsHeap comp v → IsHeap comp (pushHeap (v ++ [x]))
  popHeap_spec : ∀ {x v}, IsHeap comp (x :: v) →
    ∃ u, popHeap (x :: v) = u ++ [x] ∧ u.Perm v ∧ IsHeap comp u
  makeHeap_perm : ∀ v, (makeHeap v).Perm v
  makeHeap_isHeap : ∀ v, IsHeap comp (makeHeap v)

/-- `push_heap` moves the new element up only past elements that strictly precede
it: it takes the front only from an element `comp` puts below it. -/
def Algorithms.FrontStable (A : Algorithms comp) : Prop :=
  ∀ v x y, IsHeap comp (y :: v) → ¬ comp y x →
    (A.pushHeap (y :: v ++ [x])).head? = some y

/-- **Any three heaps of the right elements are the results of some library**, one
for each function. -/
theorem exists_algorithms (A : Algorithms comp) {a a' : List α} {x y : α} {b u c c' : List α}
    (ha : a'.Perm (a ++ [x])) (ha' : IsHeap comp a')
    (hu : u.Perm b) (hu' : IsHeap comp u) (hc : c'.Perm c) (hc' : IsHeap comp c') :
    ∃ B : Algorithms comp, B.pushHeap (a ++ [x]) = a' ∧ B.popHeap (y :: b) = u ++ [y] ∧
      B.makeHeap c = c' := by
  classical
  refine ⟨{ pushHeap := fun v => if v = a ++ [x] then a' else A.pushHeap v
            popHeap := fun v => if v = y :: b then u ++ [y] else A.popHeap v
            makeHeap := fun v => if v = c then c' else A.makeHeap v
            pushHeap_perm := ?_, pushHeap_isHeap := ?_, popHeap_spec := ?_
            makeHeap_perm := ?_, makeHeap_isHeap := ?_ }, by simp, by simp, by simp⟩
  · intro v z hv
    by_cases he : v ++ [z] = a ++ [x]
    · rw [if_pos he, he]; exact ha
    · rw [if_neg he]; exact A.pushHeap_perm hv
  · intro v z hv
    by_cases he : v ++ [z] = a ++ [x]
    · rw [if_pos he]; exact ha'
    · rw [if_neg he]; exact A.pushHeap_isHeap hv
  · intro z v hv
    by_cases he : z :: v = y :: b
    · obtain ⟨rfl, rfl⟩ := List.cons.inj he
      exact ⟨u, if_pos rfl, hu, hu'⟩
    · rw [if_neg he]; exact A.popHeap_spec hv
  · intro v
    by_cases he : v = c
    · rw [if_pos he, he]; exact hc
    · rw [if_neg he]; exact A.makeHeap_perm v
  · intro v
    by_cases he : v = c
    · rw [if_pos he]; exact hc'
    · rw [if_neg he]; exact A.makeHeap_isHeap v

/-- **Any heap of the rest is what some `pop_heap` leaves**, beside the same `push_heap`. -/
theorem Algorithms.exists_popHeap (A : Algorithms comp) {x : α} {v u : List α} (hu : u.Perm v)
    (hu' : IsHeap comp u) :
    ∃ B : Algorithms comp, B.popHeap (x :: v) = u ++ [x] ∧ B.pushHeap = A.pushHeap := by
  classical
  refine ⟨{ A with popHeap := fun l => if l = x :: v then u ++ [x] else A.popHeap l
                   popHeap_spec := ?_ }, if_pos rfl, rfl⟩
  intro z l hl
  by_cases he : z :: l = x :: v
  · obtain ⟨rfl, rfl⟩ := List.cons.inj he
    exact ⟨u, if_pos rfl, hu, hu'⟩
  · rw [if_neg he]; exact A.popHeap_spec hl

/-! ### One implementation -/

def swapAt (v : List α) (i j : ℕ) : List α :=
  match v[i]?, v[j]? with
  | some x, some y => (v.set i y).set j x
  | _, _ => v

/-- Move the element at `i` up while its parent precedes it.  `fuel` bounds the
number of exchanges; `i` of them always suffice. -/
def siftUp (comp : α → α → Prop) [DecidableRel comp] : ℕ → ℕ → List α → List α
  | 0, _, v => v
  | fuel + 1, i, v =>
    match v[parent i]?, v[i]? with
    | some p, some x =>
      if comp p x then siftUp comp fuel (parent i) (swapAt v i (parent i)) else v
    | _, _ => v

/-- Only the element at `k` may precede its parent. -/
def HeapExcept (comp : α → α → Prop) (v : List α) (k : ℕ) : Prop :=
  (∀ i p x, 0 < i → i ≠ k → v[parent i]? = some p → v[i]? = some x → ¬ comp p x) ∧
    ∀ i g x, 0 < k → 0 < i → parent i = k → v[parent k]? = some g → v[i]? = some x → ¬ comp g x

theorem swapAt_perm (v : List α) (i j : ℕ) : (swapAt v i j).Perm v := by
  unfold swapAt
  split
  · rename_i x y hx hy
    obtain ⟨hi, rfl⟩ := List.getElem?_eq_some_iff.mp hx
    obtain ⟨hj, rfl⟩ := List.getElem?_eq_some_iff.mp hy
    exact List.set_set_perm hi hj
  · exact .refl v

theorem getElem?_swapAt {v : List α} {i j : ℕ} {x y : α} (hx : v[i]? = some x)
    (hy : v[j]? = some y) (k : ℕ) :
    (swapAt v i j)[k]? = if k = j then some x else if k = i then some y else v[k]? := by
  obtain ⟨hi, -⟩ := List.getElem?_eq_some_iff.mp hx
  obtain ⟨hj, -⟩ := List.getElem?_eq_some_iff.mp hy
  simp only [swapAt, hx, hy, List.getElem?_set]
  by_cases h1 : k = j
  · subst h1; simp [hj]
  · by_cases h2 : k = i
    · subst h2; simp [h1, Ne.symm h1, hi]
    · simp [h1, h2, Ne.symm h1, Ne.symm h2]

theorem HeapExcept.move (hc : StrictWeak comp) {v : List α} {k : ℕ} {p x : α}
    (h : HeapExcept comp v k) (hk : 0 < k) (hp : v[parent k]? = some p) (hx : v[k]? = some x)
    (hlt : comp p x) : HeapExcept comp (swapAt v k (parent k)) (parent k) := by
  have hpk := parent_lt hk
  have get := getElem?_swapAt hx hp
  refine ⟨?_, ?_⟩
  · intro i q y hi hik hq hy
    rw [get] at hq hy
    rw [if_neg hik] at hy
    by_cases hi1 : i = k
    · subst hi1
      rw [if_pos rfl] at hq hy
      cases hq; cases hy
      exact hc.asymm hlt
    rw [if_neg hi1] at hy
    by_cases hi2 : parent i = parent k
    · rw [if_pos hi2] at hq
      cases hq
      have := h.1 i p y hi hi1 (hi2 ▸ hp) hy
      exact fun hxy => this (hc.trans hlt hxy)
    rw [if_neg hi2] at hq
    by_cases hi3 : parent i = k
    · rw [if_pos hi3] at hq
      cases hq
      exact h.2 i p y hk hi hi3 hp hy
    · rw [if_neg hi3] at hq
      exact h.1 i q y hi hi1 hq hy
  · intro i g y hpos hi hpi hg hy
    have hgk := parent_lt hpos
    rw [get, if_neg (by omega), if_neg (by omega)] at hg
    have hgp : ¬ comp g p := h.1 (parent k) g p hpos (by omega) hg hp
    rw [get, if_neg (by have := parent_lt hi; omega)] at hy
    by_cases hi1 : i = k
    · rw [if_pos hi1] at hy
      cases hy
      exact hgp
    · rw [if_neg hi1] at hy
      exact hc.negTrans hgp (h.1 i p y hi hi1 (hpi ▸ hp) hy)

theorem IsHeap.append_except {v : List α} (h : IsHeap comp v) (x : α) :
    HeapExcept comp (v ++ [x]) v.length := by
  refine ⟨?_, ?_⟩
  · intro i p y hi hne hp hy
    have hlen := (List.getElem?_eq_some_iff.mp hy).1
    rw [List.length_append, List.length_singleton] at hlen
    have hpi := parent_lt hi
    rw [List.getElem?_append_left (by omega)] at hp hy
    exact h i p y hi hp hy
  · intro i g y _ hi hpi _ hy
    have hlen := (List.getElem?_eq_some_iff.mp hy).1
    rw [List.length_append, List.length_singleton] at hlen
    have := parent_lt hi
    omega

section Sift

variable [DecidableRel comp]

theorem siftUp_perm (fuel i : ℕ) (v : List α) : (siftUp comp fuel i v).Perm v := by
  induction fuel generalizing i v with
  | zero => exact .refl v
  | succ fuel ih =>
    rw [siftUp]
    split
    · split
      · exact (ih _ _).trans (swapAt_perm v _ _)
      · exact .refl v
    · exact .refl v

theorem siftUp_isHeap (hc : StrictWeak comp) (fuel : ℕ) :
    ∀ (i : ℕ) (v : List α), i ≤ fuel → HeapExcept comp v i →
      IsHeap comp (siftUp comp fuel i v) := by
  induction fuel with
  | zero =>
    intro i v hi h j p x hj hp hx
    exact h.1 j p x hj (by omega) hp hx
  | succ fuel ih =>
    intro i v hi h
    rw [siftUp]
    split
    · rename_i p x hp hx
      split
      · rename_i hlt
        have hpos : 0 < i := by
          rcases Nat.eq_zero_or_pos i with rfl | h0
          · rw [show parent 0 = 0 from rfl, hx] at hp
            cases hp
            exact absurd hlt (hc.irrefl _)
          · exact h0
        exact ih _ _ (by have := parent_lt hpos; omega) (h.move hc hpos hp hx hlt)
      · rename_i hnlt
        intro j q y hj hq hy
        by_cases hji : j = i
        · subst hji
          rw [hp] at hq; rw [hx] at hy
          cases hq; cases hy
          exact hnlt
        · exact h.1 j q y hj hji hq hy
    · rename_i hnone
      intro j q y hj hq hy
      by_cases hji : j = i
      · subst hji; exact absurd hy (hnone q y hq)
      · exact h.1 j q y hj hji hq hy

theorem siftUp_head (fuel : ℕ) :
    ∀ (i : ℕ) (v : List α) (x y : α), v[0]? = some y → v[i]? = some x → ¬ comp y x →
      (siftUp comp fuel i v)[0]? = some y := by
  induction fuel with
  | zero => intro i v x y hy _ _; exact hy
  | succ fuel ih =>
    intro i v x y hy hx hyx
    rw [siftUp]
    split
    · rename_i p x' hp hx'
      rw [hx] at hx'
      cases hx'
      split
      · rename_i hlt
        have h0 : parent i ≠ 0 := by
          intro h0
          rw [h0, hy] at hp
          cases hp
          exact hyx hlt
        have hi : 0 ≠ i := by rintro rfl; exact h0 rfl
        have get := getElem?_swapAt hx hp
        refine ih _ _ x y ?_ ?_ hyx
        · rw [get, if_neg (Ne.symm h0), if_neg hi, hy]
        · rw [get, if_pos rfl]
      · exact hy
    · exact hy

/-- `push_heap` of a vector whose last element is the new one. -/
def siftPush (comp : α → α → Prop) [DecidableRel comp] (v : List α) : List α :=
  siftUp comp (v.length - 1) (v.length - 1) v

/-- `make_heap` by pushing the elements one after another. -/
def siftMake (comp : α → α → Prop) [DecidableRel comp] (v : List α) : List α :=
  v.foldl (fun u x => siftPush comp (u ++ [x])) []

theorem siftPush_perm (v : List α) : (siftPush comp v).Perm v := siftUp_perm _ _ v

theorem siftPush_isHeap (hc : StrictWeak comp) {v : List α} {x : α} (h : IsHeap comp v) :
    IsHeap comp (siftPush comp (v ++ [x])) := by
  have hl : (v ++ [x]).length - 1 = v.length := by simp
  rw [siftPush, hl]
  exact siftUp_isHeap hc _ _ _ (Nat.le_refl _) (h.append_except x)

theorem siftMake_append (v : List α) (x : α) :
    siftMake comp (v ++ [x]) = siftPush comp (siftMake comp v ++ [x]) := by
  simp [siftMake, List.foldl_append]

theorem siftMake_perm (v : List α) : (siftMake comp v).Perm v := by
  induction v using List.reverseRecOn with
  | nil => exact .refl []
  | append_singleton v x ih =>
    rw [siftMake_append]
    exact (siftPush_perm _).trans (ih.append_right [x])

theorem siftMake_isHeap (hc : StrictWeak comp) (v : List α) : IsHeap comp (siftMake comp v) := by
  induction v using List.reverseRecOn with
  | nil => exact isHeap_nil
  | append_singleton v x ih =>
    rw [siftMake_append]
    exact siftPush_isHeap hc ih

theorem siftPush_head {v : List α} {x y : α} (h : ¬ comp y x) :
    (siftPush comp (y :: v ++ [x])).head? = some y := by
  rw [List.head?_eq_getElem?, siftPush]
  refine siftUp_head _ _ _ x y (by simp) ?_ h
  simp

theorem siftMake_head {y : α} {v : List α} (h : ∀ x ∈ v, ¬ comp y x) :
    (siftMake comp (y :: v)).head? = some y := by
  induction v using List.reverseRecOn with
  | nil => rfl
  | append_singleton v x ih =>
    obtain ⟨u, hu⟩ : ∃ u, siftMake comp (y :: v) = y :: u :=
      List.head?_eq_some_iff.mp (ih fun z hz => h z (List.mem_append_left _ hz))
    rw [← List.cons_append, siftMake_append, hu]
    exact siftPush_head (h x (List.mem_append_right _ (List.mem_singleton_self x)))

theorem exists_isHeap_front (hc : StrictWeak comp) {y : α} {v : List α} (hy : y ∈ v)
    (h : ∀ x ∈ v, ¬ comp y x) : ∃ u, (y :: u).Perm v ∧ IsHeap comp (y :: u) := by
  obtain ⟨a, b, rfl⟩ := List.append_of_mem hy
  obtain ⟨u, hu⟩ : ∃ u, siftMake comp (y :: (a ++ b)) = y :: u :=
    List.head?_eq_some_iff.mp (siftMake_head fun x hx => h x (by
      rcases List.mem_append.mp hx with hx | hx
      · exact List.mem_append_left _ hx
      · exact List.mem_append_right _ (List.mem_cons_of_mem _ hx)))
  refine ⟨u, ?_, hu ▸ siftMake_isHeap hc _⟩
  rw [← hu]
  exact (siftMake_perm _).trans List.perm_middle.symm

/-- `pop_heap` by building the rest anew behind the front. -/
def siftPop (comp : α → α → Prop) [DecidableRel comp] : List α → List α
  | [] => []
  | x :: v => siftMake comp v ++ [x]

/-- The heap algorithms by sifting. -/
def Algorithms.sift (hc : StrictWeak comp) : Algorithms comp where
  pushHeap := siftPush comp
  popHeap := siftPop comp
  makeHeap := siftMake comp
  pushHeap_perm _ := siftPush_perm _
  pushHeap_isHeap h := siftPush_isHeap hc h
  popHeap_spec {_ v} _ := ⟨siftMake comp v, rfl, siftMake_perm v, siftMake_isHeap hc v⟩
  makeHeap_perm := siftMake_perm
  makeHeap_isHeap := siftMake_isHeap hc

theorem Algorithms.sift_frontStable (hc : StrictWeak comp) :
    (Algorithms.sift hc).FrontStable := by
  intro v x y _ hyx
  exact siftPush_head hyx

end Sift

end StdHeap
