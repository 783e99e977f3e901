import Mathlib.Data.List.Basic
import Mathlib.Data.List.Nodup
import Mathlib.Data.Nat.Notation
import Mathlib.Logic.Function.Basic

/-!
# Custody of items in boxes

Items are put into boxes and taken out in order; the whole content of a box can be carried
over to an empty one, or discarded.  Each item has a number, and the numbers are given in the
order in which items come in.

`Boxes` has where each number is and the boxes it went through, and `Sound` is kept by every
operation: an item is in one box, or taken once, or discarded (`Sound.one_place`), and of two
items that went the same way the earlier one is taken first (`Sound.order`).
-/

namespace Custody

variable {A β : Type}

structure Boxes (A β : Type) where
  /-- All items that came in, by number. -/
  accepted : List β
  stored : A → List ℕ
  taken : List ℕ
  discarded : List ℕ
  /-- The boxes that the item went through. -/
  path : ℕ → List A

namespace Boxes

def empty : Boxes A β := ⟨[], fun _ => [], [], [], fun _ => []⟩

variable [DecidableEq A]

def put (a : A) (x : β) (c : Boxes A β) : Boxes A β :=
  { c with
    accepted := c.accepted ++ [x]
    stored := Function.update c.stored a (c.stored a ++ [c.accepted.length])
    path := Function.update c.path c.accepted.length [a] }

def take (a : A) (c : Boxes A β) : Boxes A β :=
  { c with
    stored := Function.update c.stored a (c.stored a).tail
    taken := c.taken ++ (c.stored a).take 1 }

/-- The content of `o` goes to `a`. -/
def carry (a o : A) (c : Boxes A β) : Boxes A β :=
  { c with
    stored := Function.update (Function.update c.stored a (c.stored o)) o []
    path := fun i => if i ∈ c.stored o then c.path i ++ [a] else c.path i }

def discard (a : A) (c : Boxes A β) : Boxes A β :=
  { c with
    stored := Function.update c.stored a []
    discarded := c.discarded ++ c.stored a }

variable {c : Boxes A β} {a o b : A} {i : ℕ}

theorem mem_put {x : β} : i ∈ (c.put a x).stored b ↔
    i ∈ c.stored b ∨ (b = a ∧ i = c.accepted.length) := by
  simp only [put, Function.update_apply]
  split
  · rename_i e
    simp [e]
  · rename_i e
    simp [e]

theorem mem_discard : i ∈ (c.discard a).stored b ↔ i ∈ c.stored b ∧ b ≠ a := by
  simp only [discard, Function.update_apply]
  split
  · rename_i e
    simp [e]
  · rename_i e
    simp [e]

theorem mem_carry (hne : a ≠ o) : i ∈ (c.carry a o).stored b ↔
    (b = a ∧ i ∈ c.stored o) ∨ (b ≠ a ∧ b ≠ o ∧ i ∈ c.stored b) := by
  simp only [carry, Function.update_apply]
  by_cases hbo : b = o
  · subst hbo
    simp [Ne.symm hne]
  · by_cases hba : b = a
    · subst hba
      simp [hne]
    · simp [hbo, hba]

theorem path_carry_of_mem (h : i ∈ c.stored o) : (c.carry a o).path i = c.path i ++ [a] := if_pos h

theorem path_carry_of_not_mem (h : i ∉ c.stored o) : (c.carry a o).path i = c.path i := if_neg h

end Boxes

/-! ### Where items can be -/

inductive Place (A : Type)
  | box (a : A)
  | taken
  | discarded

def Boxes.at (c : Boxes A β) : Place A → List ℕ
  | .box a => c.stored a
  | .taken => c.taken
  | .discarded => c.discarded

structure Sound (c : Boxes A β) : Prop where
  lt : ∀ p, ∀ i ∈ c.at p, i < c.accepted.length
  somewhere : ∀ i < c.accepted.length, ∃ p, i ∈ c.at p
  taken : ∀ i ∈ c.taken, i ∉ c.discarded ∧ ∀ a, i ∉ c.stored a
  discarded : ∀ i ∈ c.discarded, ∀ a, i ∉ c.stored a
  takenOnce : c.taken.Nodup
  discardedOnce : c.discarded.Nodup
  ascending : ∀ a, (c.stored a).Pairwise (· < ·)
  /-- The way of an item leads to where it is. -/
  home : ∀ a, ∀ i ∈ c.stored a, (c.path i).getLast? = some a
  /-- Nobody overtakes: who came this way later is here still. -/
  behind : ∀ a, ∀ i ∈ c.stored a, ∀ j < c.accepted.length, i < j → c.path i <+: c.path j →
    j ∈ c.stored a ∧ c.path j = c.path i
  order : c.taken.Pairwise fun i j => c.path i = c.path j → i < j

namespace Sound

variable {c : Boxes A β}

theorem empty : Sound (Boxes.empty : Boxes A β) := by
  refine ⟨fun p i hi => ?_, fun i hi => ?_, fun i hi => ?_, fun i hi => ?_, List.nodup_nil,
    List.nodup_nil, fun a => List.Pairwise.nil, fun a i hi => ?_, fun a i hi => ?_,
    List.Pairwise.nil⟩
  · cases p <;> cases hi
  all_goals cases hi

theorem box_unique (h : Sound c) {a b : A} {i : ℕ} (ha : i ∈ c.stored a) (hb : i ∈ c.stored b) :
    a = b := Option.some.inj ((h.home a i ha).symm.trans (h.home b i hb))

theorem nodup (h : Sound c) (p : Place A) : (c.at p).Nodup := by
  cases p with
  | box a => exact (h.ascending a).imp Nat.ne_of_lt
  | taken => exact h.takenOnce
  | discarded => exact h.discardedOnce

/-- **Every item that came in is in exactly one place.** -/
theorem one_place (h : Sound c) {i : ℕ} (hi : i < c.accepted.length) :
    ∃ p, i ∈ c.at p ∧ ∀ p', i ∈ c.at p' → p' = p := by
  obtain ⟨p, hp⟩ := h.somewhere i hi
  refine ⟨p, hp, ?_⟩
  intro p' hp'
  cases p with
  | box a =>
    cases p' with
    | box b => rw [h.box_unique hp' hp]
    | taken => exact absurd hp ((h.taken i hp').2 a)
    | discarded => exact absurd hp (h.discarded i hp' a)
  | taken =>
    cases p' with
    | box b => exact absurd hp' ((h.taken i hp).2 b)
    | taken => rfl
    | discarded => exact absurd hp' (h.taken i hp).1
  | discarded =>
    cases p' with
    | box b => exact absurd hp' (h.discarded i hp b)
    | taken => exact absurd hp (h.taken i hp').1
    | discarded => rfl

theorem stored_lt (h : Sound c) {a : A} {i : ℕ} (hi : i ∈ c.stored a) : i < c.accepted.length :=
  h.lt (.box a) i hi

variable [DecidableEq A]

/-! ### Every operation keeps it -/

theorem put (h : Sound c) (a : A) (x : β) : Sound (c.put a x) := by
  have hpath : ∀ i < c.accepted.length, (c.put a x).path i = c.path i := fun i hi =>
    Function.update_of_ne (by omega) ..
  have hnew : (c.put a x).path c.accepted.length = [a] := Function.update_self ..
  have hlen : (c.put a x).accepted.length = c.accepted.length + 1 := by simp [Boxes.put]
  have hold : ∀ {b i}, i ∈ c.stored b → i < c.accepted.length := h.stored_lt
  refine ⟨?_, ?_, fun i hi => ⟨(h.taken i hi).1, fun b hb => ?_⟩, ?_, h.takenOnce, h.discardedOnce,
    ?_, ?_, ?_, ?_⟩
  · intro p i hi
    rw [hlen]
    cases p with
    | box b =>
      rcases Boxes.mem_put.mp hi with hi | ⟨-, rfl⟩
      · have := hold hi
        omega
      · omega
    | taken => exact Nat.lt_succ_of_lt (h.lt .taken i hi)
    | discarded => exact Nat.lt_succ_of_lt (h.lt .discarded i hi)
  · intro i hi
    rw [hlen] at hi
    by_cases he : i = c.accepted.length
    · exact ⟨.box a, Boxes.mem_put.mpr (.inr ⟨rfl, he⟩)⟩
    · obtain ⟨p, hp⟩ := h.somewhere i (by omega)
      refine ⟨p, ?_⟩
      cases p with
      | box b => exact Boxes.mem_put.mpr (.inl hp)
      | _ => exact hp
  · rcases Boxes.mem_put.mp hb with hb | ⟨-, rfl⟩
    · exact (h.taken i hi).2 b hb
    · exact absurd (h.lt .taken _ hi) (Nat.lt_irrefl _)
  · intro i hi b hb
    rcases Boxes.mem_put.mp hb with hb | ⟨-, rfl⟩
    · exact h.discarded i hi b hb
    · exact absurd (h.lt .discarded _ hi) (Nat.lt_irrefl _)
  · intro b
    simp only [Boxes.put, Function.update_apply]
    split
    · refine List.pairwise_append.mpr ⟨h.ascending a, List.pairwise_singleton .., ?_⟩
      intro i hi j hj
      rw [List.mem_singleton.mp hj]
      exact hold hi
    · exact h.ascending b
  · intro b i hi
    rcases Boxes.mem_put.mp hi with hi | ⟨rfl, rfl⟩
    · rw [hpath i (hold hi)]
      exact h.home b i hi
    · rw [hnew]
      rfl
  · intro b i hi j hj hij hp
    rw [hlen] at hj
    rcases Boxes.mem_put.mp hi with hi | ⟨rfl, rfl⟩
    · rw [hpath i (hold hi)] at hp ⊢
      by_cases hjn : j = c.accepted.length
      · -- the new item stands behind those that were put here
        subst hjn
        rw [hnew] at hp ⊢
        have hhome := h.home b i hi
        have hne : c.path i ≠ [] := by
          intro e
          rw [e] at hhome
          cases hhome
        have he : c.path i = [a] := by
          rcases List.prefix_cons_iff.mp hp with e | ⟨v, e, hv⟩
          · exact absurd e hne
          · rw [e, List.prefix_nil.mp hv]
        rw [he] at hhome
        obtain rfl : a = b := Option.some.inj hhome
        exact ⟨Boxes.mem_put.mpr (.inr ⟨rfl, rfl⟩), he.symm⟩
      · rw [hpath j (by omega)] at hp ⊢
        obtain ⟨hjb, e⟩ := h.behind b i hi j (by omega) hij hp
        exact ⟨Boxes.mem_put.mpr (.inl hjb), e⟩
    · omega
  · refine h.order.imp_of_mem fun {i j} hi hj hij => ?_
    rw [hpath i (h.lt .taken i hi), hpath j (h.lt .taken j hj)]
    exact hij

theorem take (h : Sound c) (a : A) : Sound (c.take a) := by
  cases hs : c.stored a with
  | nil =>
    have e : c.take a = c := by
      rw [Boxes.take, hs, List.tail_nil, List.take_nil, List.append_nil, ← hs,
        Function.update_eq_self]
    rw [e]
    exact h
  | cons k rest =>
    have hk : k ∈ c.stored a := by
      rw [hs]
      exact List.mem_cons_self
    have hasc := h.ascending a
    rw [hs, List.pairwise_cons] at hasc
    have hstored : (c.take a).stored = Function.update c.stored a rest := by
      rw [Boxes.take, hs, List.tail_cons]
    have htaken : (c.take a).taken = c.taken ++ [k] := by
      rw [Boxes.take, hs]
      rfl
    have hsub : ∀ b i, i ∈ (c.take a).stored b → i ∈ c.stored b ∧ i ≠ k := by
      intro b i hi
      rw [hstored, Function.update_apply] at hi
      split at hi
      · rename_i e
        rw [e, hs]
        exact ⟨List.mem_cons_of_mem _ hi, fun e => by have := hasc.1 i hi; omega⟩
      · rename_i e
        refine ⟨hi, ?_⟩
        rintro rfl
        exact e (h.box_unique hi hk)
    have hmem : ∀ b i, i ∈ c.stored b → i ≠ k → i ∈ (c.take a).stored b := by
      intro b i hi hne
      rw [hstored, Function.update_apply]
      split
      · rename_i e
        rw [e, hs] at hi
        exact (List.mem_cons.mp hi).resolve_left hne
      · exact hi
    refine ⟨?_, ?_, ?_, ?_, ?_, h.discardedOnce, ?_, fun b i hi => h.home b i (hsub b i hi).1, ?_,
      ?_⟩
    · intro p i hi
      cases p with
      | box b => exact h.stored_lt (hsub b i hi).1
      | taken =>
        have hi : i ∈ (c.take a).taken := hi
        rw [htaken] at hi
        rcases List.mem_append.mp hi with hi | hi
        · exact h.lt .taken i hi
        · rw [List.mem_singleton.mp hi]
          exact h.stored_lt hk
      | discarded => exact h.lt .discarded i hi
    · intro i hi
      by_cases hik : i = k
      · refine ⟨.taken, ?_⟩
        show i ∈ (c.take a).taken
        rw [htaken, hik]
        simp
      · obtain ⟨p, hp⟩ := h.somewhere i hi
        cases p with
        | box b => exact ⟨.box b, hmem b i hp hik⟩
        | taken =>
          refine ⟨.taken, ?_⟩
          show i ∈ (c.take a).taken
          rw [htaken]
          exact List.mem_append_left _ hp
        | discarded => exact ⟨.discarded, hp⟩
    · intro i hi
      rw [htaken] at hi
      rcases List.mem_append.mp hi with hi | hi
      · exact ⟨(h.taken i hi).1, fun b hb => (h.taken i hi).2 b (hsub b i hb).1⟩
      · obtain rfl := List.mem_singleton.mp hi
        exact ⟨fun hd => h.discarded i hd a hk, fun b hb => (hsub b i hb).2 rfl⟩
    · intro i hi b hb
      exact h.discarded i hi b (hsub b i hb).1
    · rw [htaken, List.nodup_append]
      refine ⟨h.takenOnce, by simp, ?_⟩
      intro i hi j hj
      rw [List.mem_singleton.mp hj]
      rintro rfl
      exact (h.taken i hi).2 a hk
    · intro b
      rw [hstored, Function.update_apply]
      split
      · exact hasc.2
      · exact h.ascending b
    · intro b i hi j hj hij hp
      obtain ⟨hib, hik⟩ := hsub b i hi
      obtain ⟨hjb, e⟩ := h.behind b i hib j hj hij hp
      refine ⟨hmem b j hjb ?_, e⟩
      rintro rfl
      -- the first of the box is the least
      obtain rfl := h.box_unique hjb hk
      rw [hs] at hib
      have := hasc.1 i ((List.mem_cons.mp hib).resolve_left hik)
      omega
    · rw [htaken]
      refine List.pairwise_append.mpr ⟨h.order, List.pairwise_singleton .., fun i hi j hj => ?_⟩
      obtain rfl := List.mem_singleton.mp hj
      intro hp
      by_contra hlt
      have hne : i ≠ j := by
        rintro rfl
        exact (h.taken i hi).2 a hk
      -- who was taken before and came later would have overtaken
      have hpath : c.path j <+: c.path i := ⟨[], by
        rw [List.append_nil]
        exact Eq.symm hp⟩
      have hib := (h.behind a j hk i (h.lt .taken i hi) (by omega) hpath).1
      exact (h.taken i hi).2 a hib

theorem discard (h : Sound c) (a : A) : Sound (c.discard a) := by
  refine ⟨?_, ?_, fun i hi => ⟨fun hd => ?_, fun b hb => ?_⟩, ?_, h.takenOnce, ?_, ?_,
    fun b i hi => h.home b i (Boxes.mem_discard.mp hi).1, ?_, h.order⟩
  · intro p i hi
    cases p with
    | box b => exact h.stored_lt (Boxes.mem_discard.mp hi).1
    | taken => exact h.lt .taken i hi
    | discarded =>
      rcases List.mem_append.mp hi with hi | hi
      · exact h.lt .discarded i hi
      · exact h.stored_lt hi
  · intro i hi
    obtain ⟨p, hp⟩ := h.somewhere i hi
    cases p with
    | box b =>
      by_cases hb : b = a
      · subst hb
        exact ⟨.discarded, List.mem_append_right _ hp⟩
      · exact ⟨.box b, Boxes.mem_discard.mpr ⟨hp, hb⟩⟩
    | taken => exact ⟨.taken, hp⟩
    | discarded => exact ⟨.discarded, List.mem_append_left _ hp⟩
  · rcases List.mem_append.mp hd with hd | hd
    · exact (h.taken i hi).1 hd
    · exact (h.taken i hi).2 a hd
  · exact (h.taken i hi).2 b (Boxes.mem_discard.mp hb).1
  · intro i hi b hb
    obtain ⟨hb, hne⟩ := Boxes.mem_discard.mp hb
    rcases List.mem_append.mp hi with hi | hi
    · exact h.discarded i hi b hb
    · exact hne (h.box_unique hb hi)
  · exact List.nodup_append.mpr ⟨h.discardedOnce, h.nodup (.box a),
      fun i hi j hj e => h.discarded i hi a (e ▸ hj)⟩
  · intro b
    simp only [Boxes.discard, Function.update_apply]
    split
    · exact List.Pairwise.nil
    · exact h.ascending b
  · intro b i hi j hj hij hp
    obtain ⟨hib, hne⟩ := Boxes.mem_discard.mp hi
    obtain ⟨hjb, e⟩ := h.behind b i hib j hj hij hp
    exact ⟨Boxes.mem_discard.mpr ⟨hjb, hne⟩, e⟩

theorem carry (h : Sound c) {a o : A} (hne : a ≠ o) (hempty : c.stored a = []) :
    Sound (c.carry a o) := by
  -- every item that is in a box was in one
  have hwas : ∀ b i, i ∈ (c.carry a o).stored b → ∃ b', i ∈ c.stored b' := by
    intro b i hi
    rcases (Boxes.mem_carry hne).mp hi with ⟨-, hi⟩ | ⟨-, -, hi⟩
    · exact ⟨o, hi⟩
    · exact ⟨b, hi⟩
  refine ⟨?_, ?_, fun i hi => ⟨(h.taken i hi).1, fun b hb => ?_⟩, ?_, h.takenOnce, h.discardedOnce,
    ?_, ?_, ?_, ?_⟩
  · intro p i hi
    cases p with
    | box b =>
      obtain ⟨b', hb'⟩ := hwas b i hi
      exact h.stored_lt hb'
    | taken => exact h.lt .taken i hi
    | discarded => exact h.lt .discarded i hi
  · intro i hi
    obtain ⟨p, hp⟩ := h.somewhere i hi
    cases p with
    | box b =>
      have hp : i ∈ c.stored b := hp
      by_cases hbo : b = o
      · exact ⟨.box a, (Boxes.mem_carry hne).mpr (.inl ⟨rfl, hbo ▸ hp⟩)⟩
      · have hba : b ≠ a := by
          rintro rfl
          rw [hempty] at hp
          cases hp
        exact ⟨.box b, (Boxes.mem_carry hne).mpr (.inr ⟨hba, hbo, hp⟩)⟩
    | taken => exact ⟨.taken, hp⟩
    | discarded => exact ⟨.discarded, hp⟩
  · obtain ⟨b', hb'⟩ := hwas b i hb
    exact (h.taken i hi).2 b' hb'
  · intro i hi b hb
    obtain ⟨b', hb'⟩ := hwas b i hb
    exact h.discarded i hi b' hb'
  · intro b
    simp only [Boxes.carry, Function.update_apply]
    split
    · exact List.Pairwise.nil
    · split
      · exact h.ascending o
      · exact h.ascending b
  · intro b i hi
    rcases (Boxes.mem_carry hne).mp hi with ⟨rfl, hio⟩ | ⟨hba, hbo, hi⟩
    · rw [Boxes.path_carry_of_mem hio, List.getLast?_concat]
    · rw [Boxes.path_carry_of_not_mem fun ho => hbo (h.box_unique hi ho)]
      exact h.home b i hi
  · intro b i hi j hj hij hp
    rcases (Boxes.mem_carry hne).mp hi with ⟨rfl, hio⟩ | ⟨hba, hbo, hi⟩
    · -- the first of the two is carried
      rw [Boxes.path_carry_of_mem hio] at hp ⊢
      by_cases hjo : j ∈ c.stored o
      · rw [Boxes.path_carry_of_mem hjo] at hp ⊢
        have hp' : c.path i <+: c.path j := by
          refine List.prefix_of_prefix_length_le ((List.prefix_append ..).trans hp)
            (List.prefix_append ..) ?_
          have := hp.length_le
          simpa using this
        obtain ⟨-, e⟩ := h.behind o i hio j hj hij hp'
        exact ⟨(Boxes.mem_carry hne).mpr (.inl ⟨rfl, hjo⟩), by rw [e]⟩
      · rw [Boxes.path_carry_of_not_mem hjo] at hp
        exact absurd (h.behind o i hio j hj hij ((List.prefix_append ..).trans hp)).1 hjo
    · have hio : i ∉ c.stored o := fun ho => hbo (h.box_unique hi ho)
      rw [Boxes.path_carry_of_not_mem hio] at hp ⊢
      by_cases hjo : j ∈ c.stored o
      · -- the second one is carried, and the first one is not where it was
        rw [Boxes.path_carry_of_mem hjo] at hp
        exfalso
        rcases List.prefix_concat_iff.mp hp with e | hp'
        · have hhome := h.home b i hi
          rw [e, List.getLast?_concat] at hhome
          exact hba (Option.some.inj hhome).symm
        · obtain ⟨hjb, -⟩ := h.behind b i hi j hj hij hp'
          exact hbo (h.box_unique hjb hjo)
      · rw [Boxes.path_carry_of_not_mem hjo] at hp ⊢
        obtain ⟨hjb, e⟩ := h.behind b i hi j hj hij hp
        exact ⟨(Boxes.mem_carry hne).mpr (.inr ⟨hba, hbo, hjb⟩), e⟩
  · refine h.order.imp_of_mem fun {i j} hi hj hij => ?_
    rw [Boxes.path_carry_of_not_mem ((h.taken i hi).2 o),
      Boxes.path_carry_of_not_mem ((h.taken j hj).2 o)]
    exact hij

end Sound

end Custody
