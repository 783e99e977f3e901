import Mathlib.Data.List.MinMax
import Mqmx.Testing.Agenda

/-!
# Forwarding items and the epoch

Time point `0` is the empty one, so an item that is run with a record of time `0` next
takes the queue for empty and posts.  Whether all of two or more items are served depends
on that alone: once two of them are after the epoch, each finds the other due for ever.

`Servable v` is the agendas of which that cannot happen, whatever the user works return and
however the heap library lays equals out:

* `Servable.user`, `Servable.post`, `Servable.again`: an execution keeps it.
* `exists_not_servable`: where it fails, some execution leaves it so.
-/

namespace Mqmx.Testing

open WorkQueue (Record Heap IsHeap Outcome)

variable {ω σ : Type} {w : ℕ}

/-! ### Items before, at and after the epoch -/

def beforeEpoch (v : List (Record (Work ω) w)) : ℕ :=
  v.countP fun r => isForwarding r && decide (r.1.timePoint < 0)

def atEpoch (v : List (Record (Work ω) w)) : ℕ :=
  v.countP fun r => isForwarding r && decide (r.1.timePoint = 0)

def pastEpoch (v : List (Record (Work ω) w)) : ℕ :=
  v.countP fun r => isForwarding r && decide (0 < r.1.timePoint)

/-- A user work waits at the epoch. -/
def UserAtEpoch (v : List (Record (Work ω) w)) : Prop :=
  ∃ r ∈ v, isForwarding r = false ∧ r.1.timePoint = 0

/-- A periodic record can be run at `t` again. -/
def RunsAgain (r : Record (Work ω) w) (t : Int) : Prop :=
  0 < r.1.period ∧ ∃ k : ℕ, t = r.1.timePoint + (k + 1 : ℕ) * r.1.period

def moved (r : Record (Work ω) w) (tp : Int) : Record (Work ω) w :=
  ({ r.1 with timePoint := tp }, r.2)

/-- The record one period on. -/
def later (r : Record (Work ω) w) : Record (Work ω) w := moved r (r.1.timePoint + r.1.period)

/-- After its first record has been run, the agenda may have a user work run at `t`. -/
def MayRun : List (Record (Work ω) w) → Int → Prop
  | [], _ => False
  | e :: u, t => (isForwarding e = false ∧ RunsAgain e t) ∨
      ∃ r ∈ u, isForwarding r = false ∧ (t = r.1.timePoint ∨ RunsAgain r t)

/-- Before the epoch an item is the last one to run. -/
def ItemLast (v : List (Record (Work ω) w)) : Prop :=
  ∀ t < 0, MayRun v t → ∃ r ∈ v, isForwarding r = true ∧ r.1.timePoint < 0 ∧ t < r.1.timePoint

/-- A user work is at the epoch, and an item of that time is run before it. -/
def ItemBeforeUser (v : List (Record (Work ω) w)) : Prop :=
  UserAtEpoch v ∧ ∃ e ∈ v.head?, isForwarding e = true ∧ e.1.timePoint = 0

/-- With one item before the epoch served, at most one is left behind the epoch. -/
def OneLeft (v : List (Record (Work ω) w)) : Prop :=
  (beforeEpoch v = 1 ∧ 1 ≤ atEpoch v ∧ pastEpoch v = 0) ∨
    (beforeEpoch v + pastEpoch v = 2 ∧ atEpoch v = 0 ∧ UserAtEpoch v)

/-- **The agendas all items of which are served.**  There is at most one item; or all are at
the epoch; or of two items one is after the epoch, and the other at it and run before a user
work there; or before the epoch an item is the last to run, and that leaves at most one. -/
def Servable (v : List (Record (Work ω) w)) : Prop :=
  v.countP isForwarding ≤ 1 ∨
  (beforeEpoch v = 0 ∧ pastEpoch v = 0) ∨
  (beforeEpoch v = 0 ∧ atEpoch v = 1 ∧ pastEpoch v = 1 ∧ ItemBeforeUser v) ∨
  (1 ≤ beforeEpoch v ∧ ItemLast v ∧ OneLeft v)

/-! ### Counting -/

section Counting

variable {u v : List (Record (Work ω) w)} {e : Record (Work ω) w}

theorem beforeEpoch_perm (h : u.Perm v) : beforeEpoch u = beforeEpoch v := h.countP_eq _

theorem atEpoch_perm (h : u.Perm v) : atEpoch u = atEpoch v := h.countP_eq _

theorem pastEpoch_perm (h : u.Perm v) : pastEpoch u = pastEpoch v := h.countP_eq _

theorem counts_perm (h : u.Perm v) :
    beforeEpoch u = beforeEpoch v ∧ atEpoch u = atEpoch v ∧ pastEpoch u = pastEpoch v :=
  ⟨beforeEpoch_perm h, atEpoch_perm h, pastEpoch_perm h⟩

theorem beforeEpoch_pos :
    0 < beforeEpoch v ↔ ∃ r ∈ v, isForwarding r = true ∧ r.1.timePoint < 0 := by
  simp [beforeEpoch, List.countP_pos_iff]

theorem atEpoch_pos : 0 < atEpoch v ↔ ∃ r ∈ v, isForwarding r = true ∧ r.1.timePoint = 0 := by
  simp [atEpoch, List.countP_pos_iff]

theorem counts_user (h : isForwarding e = false) :
    beforeEpoch (e :: u) = beforeEpoch u ∧ atEpoch (e :: u) = atEpoch u ∧
      pastEpoch (e :: u) = pastEpoch u := by
  simp [beforeEpoch, atEpoch, pastEpoch, h]

theorem counts_before (h : isForwarding e = true) (ht : e.1.timePoint < 0) :
    beforeEpoch (e :: u) = beforeEpoch u + 1 ∧ atEpoch (e :: u) = atEpoch u ∧
      pastEpoch (e :: u) = pastEpoch u := by
  have h1 : e.1.timePoint ≠ 0 := by omega
  have h2 : ¬ 0 < e.1.timePoint := by omega
  simp [beforeEpoch, atEpoch, pastEpoch, h, ht, h1, h2]

theorem counts_atEpoch (h : isForwarding e = true) (ht : e.1.timePoint = 0) :
    beforeEpoch (e :: u) = beforeEpoch u ∧ atEpoch (e :: u) = atEpoch u + 1 ∧
      pastEpoch (e :: u) = pastEpoch u := by
  simp [beforeEpoch, atEpoch, pastEpoch, h, ht]

theorem counts_after (h : isForwarding e = true) (ht : 0 < e.1.timePoint) :
    beforeEpoch (e :: u) = beforeEpoch u ∧ atEpoch (e :: u) = atEpoch u ∧
      pastEpoch (e :: u) = pastEpoch u + 1 := by
  have h1 : e.1.timePoint ≠ 0 := by omega
  have h2 : ¬ e.1.timePoint < 0 := by omega
  simp [beforeEpoch, atEpoch, pastEpoch, h, ht, h1, h2]

theorem countP_isForwarding (v : List (Record (Work ω) w)) :
    v.countP isForwarding = beforeEpoch v + atEpoch v + pastEpoch v := by
  induction v with
  | nil => rfl
  | cons r v ih =>
    rw [List.countP_cons, ih]
    cases hf : isForwarding r with
    | false =>
      obtain ⟨h1, h2, h3⟩ := counts_user (u := v) hf
      rw [h1, h2, h3]
      rfl
    | true =>
      rw [if_pos rfl]
      rcases Int.lt_trichotomy r.1.timePoint 0 with h | h | h
      · have := counts_before (u := v) hf h
        omega
      · have := counts_atEpoch (u := v) hf h
        omega
      · have := counts_after (u := v) hf h
        omega

theorem UserAtEpoch.perm (h : UserAtEpoch u) (hp : u.Perm v) : UserAtEpoch v :=
  h.imp fun _ hr => ⟨hp.mem_iff.mp hr.1, hr.2⟩

end Counting

/-! ### Running again -/

section Again

variable {r : Record (Work ω) w} {t : Int}

@[simp] theorem isForwarding_later (r : Record (Work ω) w) :
    isForwarding (later r) = isForwarding r := rfl

theorem RunsAgain.lt (h : RunsAgain r t) : r.1.timePoint < t := by
  obtain ⟨hp, k, rfl⟩ := h
  have : 0 < ((k + 1 : ℕ) : Int) * r.1.period := Int.mul_pos (by omega) hp
  omega

theorem runsAgain_iff_later : RunsAgain r t ↔
    0 < r.1.period ∧ (t = (later r).1.timePoint ∨ RunsAgain (later r) t) := by
  have shift : ∀ k : ℕ, r.1.timePoint + (k + 1 : ℕ) * r.1.period =
      (later r).1.timePoint + k * (later r).1.period := by
    intro k
    show _ = r.1.timePoint + r.1.period + k * r.1.period
    rw [Int.natCast_add, Int.natCast_one, Int.add_mul, Int.one_mul]
    omega
  constructor
  · rintro ⟨hp, k, rfl⟩
    refine ⟨hp, ?_⟩
    rw [shift]
    cases k with
    | zero => exact .inl (by simp)
    | succ j => exact .inr ⟨hp, j, rfl⟩
  · rintro ⟨hp, h | ⟨-, k, h⟩⟩
    · exact ⟨hp, 0, by rw [h, shift]; simp⟩
    · exact ⟨hp, k + 1, by rw [h, shift]⟩

end Again

theorem servable_iff_of_after {v : List (Record (Work ω) w)}
    (h : ∀ r ∈ v, isForwarding r = true → 0 < r.1.timePoint) :
    Servable v ↔ v.countP isForwarding ≤ 1 := by
  have hb : beforeEpoch v = 0 := by
    by_contra hne
    obtain ⟨r, hr, hf, ht⟩ := beforeEpoch_pos.mp (Nat.pos_of_ne_zero hne)
    have := h r hr hf
    omega
  have he : atEpoch v = 0 := by
    by_contra hne
    obtain ⟨r, hr, hf, ht⟩ := atEpoch_pos.mp (Nat.pos_of_ne_zero hne)
    have := h r hr hf
    omega
  have hcount := countP_isForwarding v
  constructor
  · rintro (h | h | h | h)
    · exact h
    · omega
    · omega
    · omega
  · exact .inl

/-! ### What an agenda depends on -/

theorem SameNext.mayRun {u v : List (Record (Work ω) w)} (h : SameNext u v) {t : Int}
    (hu : MayRun u t) : MayRun v t := by
  cases u with
  | nil => exact absurd hu id
  | cons e u =>
    obtain ⟨v', rfl⟩ := List.head?_eq_some_iff.mp h.2.symm
    refine hu.imp id ?_
    rintro ⟨r, hr, hru⟩
    exact ⟨r, (h.1.cons_inv).mem_iff.mp hr, hru⟩

theorem OneLeft.perm {u v : List (Record (Work ω) w)} (hu : OneLeft u) (h : u.Perm v) :
    OneLeft v := by
  unfold OneLeft at hu ⊢
  rw [← beforeEpoch_perm h, ← atEpoch_perm h, ← pastEpoch_perm h]
  exact hu.imp_right fun h' => ⟨h'.1, h'.2.1, h'.2.2.perm h⟩

theorem Servable.sameNext {u v : List (Record (Work ω) w)} (hs : Servable u) (h : SameNext u v) :
    Servable v := by
  unfold Servable at hs ⊢
  rw [← beforeEpoch_perm h.1, ← atEpoch_perm h.1, ← pastEpoch_perm h.1, ← h.1.countP_eq]
  rcases hs with hs | hs | ⟨h1, h2, h3, h4, h5⟩ | ⟨h1, h2, h3⟩
  · exact .inl hs
  · exact .inr (.inl hs)
  · exact .inr (.inr (.inl ⟨h1, h2, h3, h4.perm h.1, h.2 ▸ h5⟩))
  · refine .inr (.inr (.inr ⟨h1, ?_, h3.perm h.1⟩))
    intro t ht hm
    obtain ⟨r, hr, hr'⟩ := h2 t ht (h.symm.mayRun hm)
    exact ⟨r, h.1.mem_iff.mp hr, hr'⟩

theorem MayRun.exists_mem {v : List (Record (Work ω) w)} {t : Int} (h : MayRun v t) :
    ∃ r ∈ v, isForwarding r = false ∧ (t = r.1.timePoint ∨ RunsAgain r t) := by
  cases v with
  | nil => exact absurd h id
  | cons e u =>
    rcases h with ⟨hf, h⟩ | ⟨r, hr, h⟩
    · exact ⟨e, List.mem_cons_self, hf, .inr h⟩
    · exact ⟨r, List.mem_cons_of_mem _ hr, h⟩

/-! ### What is put back -/

section PutBack

variable {v : List (Record (Work ω) w)} {e : Record (Work ω) w} {plus : Int → Int → Int}
  {now : Int} {o : Outcome}

theorem putBack_user (hf : isForwarding e = false) :
    putBack plus now e o v = again e (WorkQueue.executeWork plus e o) := if_neg (by simp [hf])

theorem putBack_user_again (hf : isForwarding e = false) (hp : 0 < e.1.period)
    (hexact : plus e.1.timePoint e.1.period = e.1.timePoint + e.1.period)
    (hne : (later e).1.timePoint ≠ 0) :
    putBack plus now e (.returned true) v = [later e] := by
  have hempty : ¬ isTimePointEmpty (e.1.timePoint + e.1.period) := hne
  rw [putBack_user hf, WorkQueue.executeWork, if_pos hp, hexact, again, if_neg hempty]
  rfl

variable (plus) in
/-- Behind a record at the epoch, or one not due, an item posts; behind another one it is put
back. -/
theorem putBack_item (hnow : 0 < now) (hf : isForwarding e = true) :
    ((isTimePointEmpty (nearest v) ∨ now < nearest v) ∧ putBack plus now e o v = []) ∨
    ∃ y v', v = y :: v' ∧ y.1.timePoint ≠ 0 ∧ y.1.timePoint ≤ now ∧
      putBack plus now e o v = [moved e now] := by
  by_cases hnear : isTimePointEmpty (nearest v) ∨ now < nearest v
  · exact .inl ⟨hnear, by rw [putBack, if_pos hf, if_pos hnear]⟩
  · have hput : putBack plus now e o v = [moved e now] := by
      have hne : ¬ isTimePointEmpty now := fun h => Int.ne_of_gt hnow h
      rw [putBack, if_pos hf, if_neg hnear, again, if_neg hne]
      rfl
    cases v with
    | nil => exact absurd (.inl rfl) hnear
    | cons y v' =>
      exact .inr ⟨y, v', rfl, fun h => hnear (.inl h), Int.not_lt.mp fun h => hnear (.inr h), hput⟩

end PutBack

/-! ### An execution keeps it -/

section Keep

variable {u v : List (Record (Work ω) w)} {e : Record (Work ω) w}

theorem item_front (hmin : ∀ r ∈ u, e.1.timePoint ≤ r.1.timePoint) (h : 1 ≤ beforeEpoch (e :: u)) :
    e.1.timePoint < 0 := by
  obtain ⟨r, hr, -, ht⟩ := beforeEpoch_pos.mp h
  rcases List.mem_cons.mp hr with rfl | hr
  · exact ht
  · have := hmin r hr
    omega

/-- `l` is what a user work has put back: the same record, later. -/
theorem Servable.user (h : Servable (e :: u)) (hf : isForwarding e = false)
    (hmin : ∀ r ∈ u, e.1.timePoint ≤ r.1.timePoint) {l : List (Record (Work ω) w)}
    (hl : ∀ r ∈ l, isForwarding r = false ∧ ∀ t, t = r.1.timePoint ∨ RunsAgain r t → RunsAgain e t)
    (hv : v.Perm (u ++ l)) : Servable v := by
  have hcount : ∀ p : Record (Work ω) w → Bool, (∀ r, isForwarding r = false → p r = false) →
      v.countP p = (e :: u).countP p := by
    intro p hp
    have hl0 : l.countP p = 0 := List.countP_eq_zero.mpr fun r hr => by simp [hp r (hl r hr).1]
    rw [hv.countP_eq, List.countP_append, hl0, List.countP_cons, hp e hf]
    rfl
  have hb : beforeEpoch v = beforeEpoch (e :: u) := hcount _ fun r hr => by simp [hr]
  have he : atEpoch v = atEpoch (e :: u) := hcount _ fun r hr => by simp [hr]
  have ha : pastEpoch v = pastEpoch (e :: u) := hcount _ fun r hr => by simp [hr]
  rcases h with h | h | ⟨-, -, -, -, x, hx, hfx, -⟩ | ⟨h1, h2, h3⟩
  · exact .inl ((hcount _ fun r hr => hr).trans_le h)
  · exact .inr (.inl ⟨hb.trans h.1, ha.trans h.2⟩)
  · obtain rfl : e = x := Option.some.inj hx
    rw [hf] at hfx
    cases hfx
  · refine .inr (.inr (.inr ⟨hb ▸ h1, ?_, ?_⟩))
    · intro t ht hm
      obtain ⟨r, hr, hfr, hrt⟩ := hm.exists_mem
      have hmay : MayRun (e :: u) t := by
        rcases List.mem_append.mp (hv.mem_iff.mp hr) with hr | hr
        · exact .inr ⟨r, hr, hfr, hrt⟩
        · exact .inl ⟨hf, (hl r hr).2 t hrt⟩
      obtain ⟨x, hx, hfx, hxt⟩ := h2 t ht hmay
      rcases List.mem_cons.mp hx with rfl | hx
      · rw [hf] at hfx
        cases hfx
      · exact ⟨x, hv.mem_iff.mpr (List.mem_append_left _ hx), hfx, hxt⟩
    · unfold OneLeft at h3 ⊢
      rw [hb, he, ha]
      refine h3.imp_right fun ⟨h4, h5, r, hr, hr'⟩ => ⟨h4, h5, r, ?_, hr'⟩
      rcases List.mem_cons.mp hr with rfl | hr
      · -- the first record is before the epoch
        have := item_front hmin h1
        omega
      · exact hv.mem_iff.mpr (List.mem_append_left _ hr)

theorem Servable.post (h : Servable (e :: u)) (hf : isForwarding e = true)
    (hmin : ∀ r ∈ u, e.1.timePoint ≤ r.1.timePoint) : Servable u := by
  have hitems := countP_isForwarding u
  have hcons : (e :: u).countP isForwarding = u.countP isForwarding + 1 := by
    rw [List.countP_cons, if_pos hf]
  rw [countP_isForwarding] at hcons
  rcases h with h | ⟨h1, h2⟩ | ⟨h1, h2, h3, -⟩ | ⟨h1, -, h3⟩
  · rw [countP_isForwarding] at h
    exact .inl (by omega)
  · have hb : beforeEpoch u ≤ beforeEpoch (e :: u) := (List.sublist_cons_self ..).countP_le
    have ha : pastEpoch u ≤ pastEpoch (e :: u) := (List.sublist_cons_self ..).countP_le
    exact .inr (.inl ⟨by omega, by omega⟩)
  · exact .inl (by omega)
  · obtain ⟨hb, he, ha⟩ := counts_before (u := u) hf (item_front hmin h1)
    rcases h3 with ⟨h4, -, h6⟩ | ⟨h4, h5, -⟩
    · exact .inr (.inl ⟨by omega, by omega⟩)
    · exact .inl (by omega)

/-- The item has found `y` due, and is put back after the epoch. -/
theorem Servable.again (h : Servable (e :: u)) (hf : isForwarding e = true)
    (hmin : ∀ r ∈ u, e.1.timePoint ≤ r.1.timePoint) {x y : Record (Work ω) w} (hy : y ∈ u)
    (hymin : ∀ r ∈ u, y.1.timePoint ≤ r.1.timePoint) (hy0 : y.1.timePoint ≠ 0)
    (hx : isForwarding x = true) (hx0 : 0 < x.1.timePoint) (hv : v.Perm (x :: u)) : Servable v := by
  obtain ⟨hb, he, ha⟩ := counts_perm hv
  obtain ⟨hbx, hex, hax⟩ := counts_after (u := u) hx hx0
  have hcons : v.countP isForwarding = (e :: u).countP isForwarding := by
    rw [hv.countP_eq, List.countP_cons, List.countP_cons, hf, hx]
  -- with the front at the epoch there is nothing else at it
  have hnone : e.1.timePoint = 0 → ∀ r ∈ u, r.1.timePoint ≠ 0 := by
    intro he0 r hr hr0
    have := hmin y hy
    have := hymin r hr
    omega
  rcases h with h | ⟨h1, h2⟩ | ⟨-, -, -, ⟨r, hr, hfr, hr0⟩, z, hz, -, hz0⟩ | ⟨h1, h2, h3⟩
  · exact .inl (hcons.trans_le h)
  · have he0 : e.1.timePoint = 0 := by
      rcases Int.lt_trichotomy e.1.timePoint 0 with h | h | h
      · have := counts_before (u := u) hf h
        omega
      · exact h
      · have := counts_after (u := u) hf h
        omega
    have hu0 : atEpoch u = 0 := by
      by_contra hne
      obtain ⟨r, hr, -, hr0⟩ := atEpoch_pos.mp (Nat.pos_of_ne_zero hne)
      exact hnone he0 r hr hr0
    have := counts_atEpoch (u := u) hf he0
    rw [Servable, hcons, countP_isForwarding]
    exact .inl (by omega)
  · obtain rfl : e = z := Option.some.inj hz
    rcases List.mem_cons.mp hr with rfl | hr
    · rw [hf] at hfr
      cases hfr
    · exact absurd hr0 (hnone hz0 r hr)
  · have he0 := item_front hmin h1
    obtain ⟨hb', he', ha'⟩ := counts_before (u := u) hf he0
    -- something is at the epoch, so `y` is before it, and an item
    obtain ⟨r, hr, hr0⟩ : ∃ r ∈ u, r.1.timePoint = 0 := by
      have hmem : ∃ r ∈ e :: u, r.1.timePoint = 0 := by
        rcases h3 with ⟨-, h4, -⟩ | ⟨-, -, h4⟩
        · exact (atEpoch_pos.mp h4).imp fun r hr => ⟨hr.1, hr.2.2⟩
        · exact h4.imp fun r hr => ⟨hr.1, hr.2.2⟩
      obtain ⟨r, hr, hr0⟩ := hmem
      rcases List.mem_cons.mp hr with rfl | hr
      · omega
      · exact ⟨r, hr, hr0⟩
    have hyneg : y.1.timePoint < 0 := by
      have := hymin r hr
      omega
    have hu : 0 < beforeEpoch u := by
      cases hfy : isForwarding y with
      | true => exact beforeEpoch_pos.mpr ⟨y, hy, hfy, hyneg⟩
      | false =>
        obtain ⟨z, hz, hfz, hz0, hlt⟩ := h2 _ hyneg (.inr ⟨y, hy, hfy, .inl rfl⟩)
        rcases List.mem_cons.mp hz with rfl | hz
        · have := hmin y hy
          omega
        · exact beforeEpoch_pos.mpr ⟨z, hz, hfz, hz0⟩
    rcases h3 with ⟨h4, -, -⟩ | ⟨h4, h5, h6⟩
    · omega
    · refine .inr (.inr (.inr ⟨by omega, ?_, .inr ⟨by omega, by omega, ?_⟩⟩))
      · intro t ht hm
        obtain ⟨r, hr, hfr, hrt⟩ := hm.exists_mem
        have hru : r ∈ u := by
          rcases List.mem_cons.mp (hv.mem_iff.mp hr) with rfl | hr
          · rw [hx] at hfr
            cases hfr
          · exact hr
        obtain ⟨z, hz, hfz, hz0, hlt⟩ := h2 t ht (.inr ⟨r, hru, hfr, hrt⟩)
        rcases List.mem_cons.mp hz with rfl | hz
        · obtain ⟨z', hz', hfz', hz0'⟩ := beforeEpoch_pos.mp hu
          have := hmin z' hz'
          exact ⟨z', hv.mem_iff.mpr (List.mem_cons_of_mem _ hz'), hfz', hz0', by omega⟩
        · exact ⟨z, hv.mem_iff.mpr (List.mem_cons_of_mem _ hz), hfz, hz0, hlt⟩
      · obtain ⟨r, hr, hfr, hr0⟩ := h6
        rcases List.mem_cons.mp hr with rfl | hr
        · omega
        · exact ⟨r, hv.mem_iff.mpr (List.mem_cons_of_mem _ hr), hfr, hr0⟩

theorem Servable.item {plus : Int → Int → Int} {now : Int} {o : Outcome} (hnow : 0 < now)
    (h : Servable (e :: u)) (hf : isForwarding e = true)
    (hmin : ∀ r ∈ u, e.1.timePoint ≤ r.1.timePoint) (hu : IsHeap u) :
    Servable (insertBack u (putBack plus now e o u)) := by
  rcases putBack_item plus hnow hf (o := o) (v := u) with
    ⟨-, hp⟩ | ⟨y, v', rfl, hy0, hle, hp⟩
  · rw [hp, insertBack_nil]
    exact h.post hf hmin
  · rw [hp, insertBack_cons_of_le hle]
    exact h.again hf hmin List.mem_cons_self (WorkQueue.front_le hu) hy0
      (show isForwarding (moved e now) = true from hf) hnow (List.perm_append_singleton _ _)

end Keep

/-! ### Where it fails -/

section Fail

variable {u v : List (Record (Work ω) w)} {e : Record (Work ω) w}

theorem not_servable_cases (h : ¬ Servable v) :
    (beforeEpoch v = 0 ∧ 2 ≤ pastEpoch v) ∨
    (beforeEpoch v = 0 ∧ pastEpoch v = 1 ∧ 1 ≤ atEpoch v ∧ (atEpoch v = 1 → ¬ ItemBeforeUser v)) ∨
    (1 ≤ beforeEpoch v ∧ 2 ≤ beforeEpoch v + atEpoch v + pastEpoch v ∧
      (ItemLast v → ¬ OneLeft v)) := by
  unfold Servable at h
  push Not at h
  obtain ⟨h1, h2, h3, h4⟩ := h
  rw [countP_isForwarding] at h1
  rcases Nat.eq_zero_or_pos (beforeEpoch v) with hb | hb
  · have := h2 hb
    by_cases ha : pastEpoch v = 1
    · exact .inr (.inl ⟨hb, ha, by omega, fun he => h3 hb he ha⟩)
    · exact .inl ⟨hb, by omega⟩
  · exact .inr (.inr ⟨hb, by omega, h4 hb⟩)

theorem not_servable_of_after (hb : beforeEpoch v = 0) (ha : 2 ≤ pastEpoch v) : ¬ Servable v := by
  rintro (h | h | h | h)
  · rw [countP_isForwarding] at h
    omega
  · omega
  · have := h.2.2.1
    omega
  · omega

theorem not_servable_of_atEpoch (hb : beforeEpoch v = 0) (ha : pastEpoch v = 1) (he : 1 ≤ atEpoch v)
    (hu : ¬ ItemBeforeUser v) : ¬ Servable v := by
  rintro (h | h | h | h)
  · rw [countP_isForwarding] at h
    omega
  · omega
  · exact hu h.2.2.2
  · omega

theorem not_servable_of_before (hb : 1 ≤ beforeEpoch v)
    (hn : 2 ≤ beforeEpoch v + atEpoch v + pastEpoch v)
    (h : ItemLast v → ¬ OneLeft v) : ¬ Servable v := by
  rintro (h' | h' | h' | h')
  · rw [countP_isForwarding] at h'
    omega
  · omega
  · omega
  · exact h h'.2.1 h'.2.2

/-- An earliest record, and one of `P` if one of its time is. -/
theorem exists_earliest (hu : u ≠ []) (P : Record (Work ω) w → Prop) :
    ∃ y ∈ u, (∀ r ∈ u, y.1.timePoint ≤ r.1.timePoint) ∧
      (P y ∨ ∀ r ∈ u, r.1.timePoint = y.1.timePoint → ¬ P r) := by
  obtain ⟨y, hy⟩ := Option.ne_none_iff_exists'.mp
    (mt List.argmin_eq_none.mp hu :
      List.argmin (fun r : Record (Work ω) w => r.1.timePoint) u ≠ none)
  have hmin : ∀ r ∈ u, y.1.timePoint ≤ r.1.timePoint := fun r hr =>
    List.le_of_mem_argmin (f := fun r : Record (Work ω) w => r.1.timePoint) hr hy
  by_cases h : ∃ r ∈ u, r.1.timePoint = y.1.timePoint ∧ P r
  · obtain ⟨r, hr, he, hP⟩ := h
    exact ⟨r, hr, fun x hx => he ▸ hmin x hx, .inl hP⟩
  · refine ⟨y, List.argmin_mem hy, hmin, .inr ?_⟩
    intro r hr he hP
    exact h ⟨r, hr, he, hP⟩

/-- A next record with which no item at the epoch is run before a user work there. -/
theorem exists_user_first (hu : u ≠ []) :
    ∃ y ∈ u, (∀ r ∈ u, y.1.timePoint ≤ r.1.timePoint) ∧
      ∀ v, (y :: v).Perm u → ¬ ItemBeforeUser (y :: v) := by
  obtain ⟨y, hy, hmin, hP⟩ := exists_earliest hu fun r => isForwarding r = false
  refine ⟨y, hy, hmin, ?_⟩
  rintro v hv ⟨⟨r, hr, hfr, hr0⟩, z, hz, hfz, hz0⟩
  obtain rfl : y = z := Option.some.inj hz
  rcases hP with hP | hP
  · rw [hP] at hfz
    cases hfz
  · exact hP r (hv.mem_iff.mp hr) (hr0.trans hz0.symm) hfr

/-- A next record that is not a user work with an item of its time, or before. -/
theorem exists_item_first (hu : u ≠ []) :
    ∃ y ∈ u, (∀ r ∈ u, y.1.timePoint ≤ r.1.timePoint) ∧
      ∀ r x, isForwarding r = false → x ∈ u → isForwarding x = true →
        x.1.timePoint ≤ r.1.timePoint → r ≠ y := by
  obtain ⟨y, hy, hmin, hP⟩ := exists_earliest hu fun r => isForwarding r = true
  refine ⟨y, hy, hmin, ?_⟩
  rintro r x hfr hx hfx hle rfl
  rcases hP with hP | hP
  · rw [hfr] at hP
    cases hP
  · have := hmin x hx
    exact hP x hx (by omega) hfx

/-- Some user work may still be run before the epoch, after every item there. -/
theorem not_itemLast_iff : ¬ ItemLast v ↔ ∃ t < 0, MayRun v t ∧
    ∀ r ∈ v, isForwarding r = true → r.1.timePoint < 0 → r.1.timePoint ≤ t := by
  unfold ItemLast
  push Not
  rfl

theorem MayRun.next {y : Record (Work ω) w} {l : List (Record (Work ω) w)} {t : Int}
    {r : Record (Work ω) w} (hr : r ∈ y :: v) (hf : isForwarding r = false)
    (h : t = r.1.timePoint ∧ r ≠ y ∨ RunsAgain r t) : MayRun (y :: v ++ l) t := by
  rcases List.mem_cons.mp hr with rfl | hr
  · exact .inl ⟨hf, h.resolve_left fun h => h.2 rfl⟩
  · exact .inr ⟨r, List.mem_append_left _ hr, hf, h.imp_left And.left⟩

/-- The record run first may run again behind every item before the epoch. -/
theorem not_itemLast_of_again {y : Record (Work ω) w} {t : Int} (hf : isForwarding e = false)
    (ht : t < 0) (hrun : t = e.1.timePoint ∨ RunsAgain e t) (hyt : y.1.timePoint ≤ t)
    (hle : ∀ r ∈ y :: v, isForwarding r = true → r.1.timePoint < 0 → r.1.timePoint ≤ t) :
    ¬ ItemLast (insertBack (y :: v) [e]) := by
  refine not_itemLast_iff.mpr ⟨t, ht, ?_, fun r hr hfr hr0 => ?_⟩
  · by_cases hlt : e.1.timePoint < y.1.timePoint
    · rw [insertBack_cons_of_lt hlt]
      exact .inl ⟨hf, hrun.resolve_left (by omega)⟩
    · rw [insertBack_cons_of_le (by omega)]
      exact .inr ⟨e, List.mem_append_right _ (List.mem_singleton_self e), hf, hrun⟩
  · rcases List.mem_append.mp ((insertBack_perm _ _).mem_iff.mp hr) with hr | hr
    · exact hle r hr hfr hr0
    · rw [List.mem_singleton.mp hr, hf] at hfr
      cases hfr

theorem insertBack_cons_perm {y : Record (Work ω) w} (hv : (y :: v).Perm u)
    (r : Record (Work ω) w) : (insertBack (y :: v) [r]).Perm (r :: u) :=
  (insertBack_perm _ _).trans ((List.perm_append_singleton r (y :: v)).trans (hv.cons r))

/-- A user work in front need not be run again, and else is put back in its place. -/
theorem exists_not_servable_user {plus : Int → Int → Int} (now : Int) (h : ¬ Servable (e :: u))
    (hf : isForwarding e = false)
    (hexact : 0 < e.1.period → plus e.1.timePoint e.1.period = e.1.timePoint + e.1.period) :
    ∃ y ∈ u, (∀ r ∈ u, y.1.timePoint ≤ r.1.timePoint) ∧ ∃ o, ∀ v, (y :: v).Perm u →
      ¬ Servable (insertBack (y :: v) (putBack plus now e o (y :: v))) := by
  obtain ⟨hb, he, ha⟩ := counts_user (u := u) hf
  have hdrop : ∀ v, insertBack v (putBack plus now e (.returned false) v) = v := by
    intro v
    rw [putBack_user hf]
    exact insertBack_nil v
  have hne : u ≠ [] := by
    rintro rfl
    apply h
    left
    rw [List.countP_cons, hf]
    exact Nat.zero_le 1
  rcases not_servable_cases h with ⟨h1, h2⟩ | ⟨h1, h2, h3, -⟩ | ⟨h1, h2, h3⟩
  · obtain ⟨y, hy, hmin, -⟩ := exists_earliest hne fun _ => True
    refine ⟨y, hy, hmin, .returned false, fun v hv => ?_⟩
    have := beforeEpoch_perm hv
    have := pastEpoch_perm hv
    rw [hdrop]
    exact not_servable_of_after (by omega) (by omega)
  · obtain ⟨y, hy, hmin, hno⟩ := exists_user_first hne
    refine ⟨y, hy, hmin, .returned false, fun v hv => ?_⟩
    obtain ⟨hb₁, he₁, ha₁⟩ := counts_perm hv
    rw [hdrop]
    exact not_servable_of_atEpoch (by omega) (by omega) (by omega) (hno v hv)
  by_cases hlast : ItemLast (e :: u)
  · obtain ⟨y, hy, hmin, -⟩ := exists_earliest hne fun _ => True
    refine ⟨y, hy, hmin, .returned false, fun v hv => ?_⟩
    obtain ⟨hb₁, he₁, ha₁⟩ := counts_perm hv
    rw [hdrop]
    refine not_servable_of_before (by omega) (by omega) fun _ hol => h3 hlast ?_
    have hol' := hol.perm hv
    unfold OneLeft at hol' ⊢
    rw [hb, he, ha]
    exact hol'.imp_right fun ⟨h4, h5, r, hr, hr'⟩ => ⟨h4, h5, r, List.mem_cons_of_mem _ hr, hr'⟩
  obtain ⟨t, ht, hmay, hle⟩ := not_itemLast_iff.mp hlast
  obtain ⟨x, hx, hfx, hx0⟩ := beforeEpoch_pos.mp (hb ▸ h1 : 0 < beforeEpoch u)
  have hxt := hle x (List.mem_cons_of_mem _ hx) hfx hx0
  rcases hmay with ⟨-, hp, k, hk⟩ | ⟨r, hr, hfr, hrt⟩
  · -- it is the record in front that may run behind the items: run it again
    obtain ⟨y, hy, hmin, -⟩ := exists_earliest hne fun _ => True
    refine ⟨y, hy, hmin, .returned true, fun v hv => ?_⟩
    have hrun := (runsAgain_iff_later.mp ⟨hp, k, hk⟩).2
    have hle' : (later e).1.timePoint ≤ t := by
      rcases hrun with h | h
      · omega
      · exact Int.le_of_lt h.lt
    obtain ⟨hb₁, he₁, ha₁⟩ := counts_perm (insertBack_cons_perm hv (later e))
    obtain ⟨hb₂, he₂, ha₂⟩ := counts_user (u := u) ((isForwarding_later e).trans hf)
    rw [putBack_user_again hf hp (hexact hp) (by omega)]
    refine not_servable_of_before (by omega) (by omega) fun hl _ => ?_
    refine not_itemLast_of_again ((isForwarding_later e).trans hf) ht hrun
      (Int.le_trans (hmin x hx) hxt) (fun z hz => ?_) hl
    exact hle z (List.mem_cons_of_mem _ (hv.mem_iff.mp hz))
  · obtain ⟨y, hy, hmin, hother⟩ := exists_item_first hne
    refine ⟨y, hy, hmin, .returned false, fun v hv => ?_⟩
    obtain ⟨hb₁, he₁, ha₁⟩ := counts_perm hv
    rw [hdrop]
    refine not_servable_of_before (by omega) (by omega) fun hl _ => ?_
    refine not_itemLast_iff.mpr ⟨t, ht, ?_, fun z hz => ?_⟩ hl
    · have hnext := MayRun.next (v := v) (l := []) (hv.mem_iff.mpr hr) hfr
        (hrt.imp_left fun e => ⟨e, hother r x hfr hx hfx (e ▸ hxt)⟩)
      rwa [List.append_nil] at hnext
    · exact hle z (List.mem_cons_of_mem _ (hv.mem_iff.mp hz))

theorem insertBack_item (plus : Int → Int → Int) {now : Int} (hnow : 0 < now) {o : Outcome}
    (hf : isForwarding e = true) {y : Record (Work ω) w} (hle : y.1.timePoint ≤ now) :
    (y.1.timePoint = 0 ∧ insertBack (y :: v) (putBack plus now e o (y :: v)) = y :: v) ∨
    (y.1.timePoint ≠ 0 ∧ insertBack (y :: v) (putBack plus now e o (y :: v)) =
      y :: v ++ [moved e now]) := by
  rcases putBack_item plus hnow hf (o := o) (v := y :: v) with
    ⟨h, hp⟩ | ⟨x, v', hv, h0, -, hp⟩
  · refine .inl ⟨?_, by rw [hp, insertBack_nil]⟩
    rcases h with h | h
    · exact h
    · exact absurd h (Int.not_lt.mpr hle)
  · obtain ⟨rfl, rfl⟩ := List.cons.inj hv
    exact .inr ⟨h0, by rw [hp]; exact insertBack_cons_of_le hle⟩

theorem counts_back {now : Int} (hnow : 0 < now) (hf : isForwarding e = true)
    {y : Record (Work ω) w} (hv : (y :: v).Perm u) :
    (y :: v ++ [moved e now]).Perm (moved e now :: u) ∧
      beforeEpoch (y :: v ++ [moved e now]) = beforeEpoch u ∧
      atEpoch (y :: v ++ [moved e now]) = atEpoch u ∧
      pastEpoch (y :: v ++ [moved e now]) = pastEpoch u + 1 := by
  have hperm : (y :: v ++ [moved e now]).Perm (moved e now :: u) :=
    (List.perm_append_singleton _ _).trans (hv.cons _)
  obtain ⟨hb, he, ha⟩ := counts_perm hperm
  obtain ⟨hb', he', ha'⟩ :=
    counts_after (u := u) (show isForwarding (moved e now) = true from hf) hnow
  exact ⟨hperm, hb.trans hb', he.trans he', ha.trans ha'⟩

theorem fails_of_item {plus : Int → Int → Int} {now : Int} (hnow : 0 < now)
    (hf : isForwarding e = true) {y : Record (Work ω) w} (hle : y.1.timePoint ≤ now)
    (hpost : y.1.timePoint = 0 → ∀ v, (y :: v).Perm u → ¬ Servable (y :: v))
    (hback : y.1.timePoint ≠ 0 → ∀ v, (y :: v).Perm u → ¬ Servable (y :: v ++ [moved e now])) :
    ∃ o, ∀ v, (y :: v).Perm u →
      ¬ Servable (insertBack (y :: v) (putBack plus now e o (y :: v))) := by
  refine ⟨.returned false, fun v hv => ?_⟩
  rcases insertBack_item plus (v := v) hnow (o := .returned false) hf hle with
    ⟨h0, hi⟩ | ⟨h0, hi⟩
  · rw [hi]
    exact hpost h0 v hv
  · rw [hi]
    exact hback h0 v hv

/-- Two items are after the epoch, whatever the item in front does. -/
theorem fails_after {now : Int} (hnow : 0 < now) (hf : isForwarding e = true)
    (hmin : ∀ r ∈ u, e.1.timePoint ≤ r.1.timePoint) (hb : beforeEpoch (e :: u) = 0)
    (ha : 2 ≤ pastEpoch (e :: u)) {y : Record (Work ω) w} (hy : y ∈ u) :
    (y.1.timePoint = 0 → ∀ v, (y :: v).Perm u → ¬ Servable (y :: v)) ∧
      (y.1.timePoint ≠ 0 → ∀ v, (y :: v).Perm u → ¬ Servable (y :: v ++ [moved e now])) := by
  have hb0 : beforeEpoch u = 0 := by
    have : beforeEpoch u ≤ beforeEpoch (e :: u) := (List.sublist_cons_self ..).countP_le
    omega
  refine ⟨fun hy0 v hv => ?_, fun _ v hv => ?_⟩
  · have hafter : pastEpoch (e :: u) = pastEpoch u := by
      rcases Int.lt_or_eq_of_le (hy0 ▸ hmin y hy) with he0 | he0
      · exact (counts_before hf he0).2.2
      · exact (counts_atEpoch hf he0).2.2
    have := beforeEpoch_perm hv
    have := pastEpoch_perm hv
    exact not_servable_of_after (by omega) (by omega)
  · obtain ⟨-, hb', -, ha'⟩ := counts_back hnow hf hv
    have hafter : pastEpoch (e :: u) ≤ pastEpoch u + 1 := by
      unfold pastEpoch
      rw [List.countP_cons]
      split <;> omega
    exact not_servable_of_after (by omega) (by omega)

/-- One item is after the epoch and the others are at it. -/
theorem fails_atEpoch {now : Int} (hnow : 0 < now) (hf : isForwarding e = true)
    (hmin : ∀ r ∈ u, e.1.timePoint ≤ r.1.timePoint) (hb : beforeEpoch (e :: u) = 0)
    (ha : pastEpoch (e :: u) = 1) (he : 1 ≤ atEpoch (e :: u))
    (hno : atEpoch (e :: u) = 1 → ¬ ItemBeforeUser (e :: u)) {y : Record (Work ω) w} (hy : y ∈ u)
    (huser : ∀ v, (y :: v).Perm u → ¬ ItemBeforeUser (y :: v)) :
    (y.1.timePoint = 0 → ∀ v, (y :: v).Perm u → ¬ Servable (y :: v)) ∧
      (y.1.timePoint ≠ 0 → ∀ v, (y :: v).Perm u → ¬ Servable (y :: v ++ [moved e now])) := by
  obtain ⟨z, hz, -, hz0⟩ := atEpoch_pos.mp he
  have he0 : e.1.timePoint = 0 := by
    have hez : e.1.timePoint ≤ 0 := by
      rcases List.mem_cons.mp hz with rfl | hz
      · omega
      · exact hz0 ▸ hmin z hz
    have hnb : ¬ e.1.timePoint < 0 := by
      intro hlt
      have := counts_before (u := u) hf hlt
      omega
    omega
  obtain ⟨hb', he', ha'⟩ := counts_atEpoch (u := u) hf he0
  refine ⟨fun hy0 v hv => ?_, fun _ v hv => ?_⟩
  · have hat : 1 ≤ atEpoch u := by
      cases hfy : isForwarding y with
      | true => exact atEpoch_pos.mpr ⟨y, hy, hfy, hy0⟩
      | false =>
        by_contra hlt
        exact hno (by omega) ⟨⟨y, List.mem_cons_of_mem _ hy, hfy, hy0⟩, e, rfl, hf, he0⟩
    obtain ⟨hb₁, he₁, ha₁⟩ := counts_perm hv
    exact not_servable_of_atEpoch (by omega) (by omega) (by omega) (huser v hv)
  · obtain ⟨-, hb'', -, ha''⟩ := counts_back hnow hf hv
    exact not_servable_of_after (by omega) (by omega)

/-- The item in front is the only one before the epoch. -/
theorem fails_alone {now : Int} (hnow : 0 < now) (hf : isForwarding e = true)
    (he0 : e.1.timePoint < 0)
    (hn : 2 ≤ beforeEpoch (e :: u) + atEpoch (e :: u) + pastEpoch (e :: u))
    (hno : ItemLast (e :: u) → ¬ OneLeft (e :: u)) (hb : beforeEpoch u = 0) {y : Record (Work ω) w}
    (hy : y ∈ u) (hymin : ∀ r ∈ u, y.1.timePoint ≤ r.1.timePoint)
    (huser : ∀ v, (y :: v).Perm u → ¬ ItemBeforeUser (y :: v)) :
    (y.1.timePoint = 0 → ∀ v, (y :: v).Perm u → ¬ Servable (y :: v)) ∧
      (y.1.timePoint ≠ 0 → ∀ v, (y :: v).Perm u → ¬ Servable (y :: v ++ [moved e now])) := by
  obtain ⟨hb', he', ha'⟩ := counts_before (u := u) hf he0
  refine ⟨fun hy0 v hv => ?_, fun hy0 v hv => ?_⟩
  · have hlast : ItemLast (e :: u) := by
      rintro t ht (⟨hfe, -⟩ | ⟨r, hr, -, hrt⟩)
      · rw [hf] at hfe
        cases hfe
      · have hr0 : 0 ≤ r.1.timePoint := hy0 ▸ hymin r hr
        rcases hrt with h | h
        · omega
        · have := h.lt
          omega
    have hol := hno hlast
    have hat : atEpoch u = 0 → UserAtEpoch (e :: u) := by
      intro hat
      refine ⟨y, List.mem_cons_of_mem _ hy, ?_, hy0⟩
      cases hfy : isForwarding y with
      | true => exact absurd (atEpoch_pos.mpr ⟨y, hy, hfy, hy0⟩) (by omega)
      | false => rfl
    have hone : 1 ≤ pastEpoch u := by
      by_contra hlt
      exact hol (.inl ⟨by omega, by omega, by omega⟩)
    have htwo : atEpoch u = 0 → 2 ≤ pastEpoch u := by
      intro h0
      by_contra hlt
      exact hol (.inr ⟨by omega, by omega, hat h0⟩)
    obtain ⟨hb₁, he₁, ha₁⟩ := counts_perm hv
    by_cases hafter : pastEpoch u = 1
    · exact not_servable_of_atEpoch (by omega) (by omega) (by omega) (huser v hv)
    · exact not_servable_of_after (by omega) (by omega)
  · obtain ⟨-, hb'', he'', ha''⟩ := counts_back hnow hf hv
    by_cases hafter : pastEpoch u = 0
    · refine not_servable_of_atEpoch (by omega) (by omega) (by omega) ?_
      rintro ⟨-, z, hz, -, hz0⟩
      obtain rfl : y = z := Option.some.inj hz
      exact hy0 hz0
    · exact not_servable_of_after (by omega) (by omega)

/-- Another item is before the epoch too. -/
theorem fails_before {now : Int} (hnow : 0 < now) (hf : isForwarding e = true)
    (he0 : e.1.timePoint < 0)
    (hn : 2 ≤ beforeEpoch (e :: u) + atEpoch (e :: u) + pastEpoch (e :: u))
    (hno : ItemLast (e :: u) → ¬ OneLeft (e :: u)) (hb : 0 < beforeEpoch u) {y : Record (Work ω) w}
    (hother : ∀ r x, isForwarding r = false → x ∈ u → isForwarding x = true →
      x.1.timePoint ≤ r.1.timePoint → r ≠ y) (hv : (y :: v).Perm u) :
    ¬ Servable (y :: v ++ [moved e now]) := by
  obtain ⟨hb', he', ha'⟩ := counts_before (u := u) hf he0
  obtain ⟨z, hz, hfz, hz0⟩ := beforeEpoch_pos.mp hb
  obtain ⟨hperm, hb'', he'', ha''⟩ := counts_back hnow hf hv
  refine not_servable_of_before (by omega) (by omega) fun hl hol => ?_
  have hol' : OneLeft (e :: u) := by
    rcases hol with ⟨-, -, h⟩ | ⟨h5, h6, r, hr, hfr, hr0⟩
    · omega
    · refine .inr ⟨by omega, by omega, r, ?_, hfr, hr0⟩
      rcases List.mem_cons.mp (hperm.mem_iff.mp hr) with rfl | hr
      · exact absurd hfr (by rw [show isForwarding (moved e now) = true from hf]; decide)
      · exact List.mem_cons_of_mem _ hr
  obtain ⟨t, ht, hmay, hlt⟩ := not_itemLast_iff.mp fun hlast => hno hlast hol'
  have hzt := hlt z (List.mem_cons_of_mem _ hz) hfz hz0
  rcases hmay with ⟨hfe, -⟩ | ⟨r, hr, hfr, hrt⟩
  · rw [hf] at hfe
    cases hfe
  · refine not_itemLast_iff.mpr ⟨t, ht, MayRun.next (hv.mem_iff.mpr hr) hfr
      (hrt.imp_left fun e => ⟨e, hother r z hfr hz hfz (e ▸ hzt)⟩), fun q hq hfq hq0 => ?_⟩ hl
    rcases List.mem_cons.mp (hperm.mem_iff.mp hq) with rfl | hq
    · exact absurd hq0 (Int.not_lt.mpr (Int.le_of_lt hnow))
    · exact hlt q (List.mem_cons_of_mem _ hq) hfq hq0

theorem exists_not_servable_item {plus : Int → Int → Int} {now : Int} (hnow : 0 < now)
    (h : ¬ Servable (e :: u)) (hf : isForwarding e = true)
    (hmin : ∀ r ∈ u, e.1.timePoint ≤ r.1.timePoint)
    (hdue : ∀ r ∈ u, isForwarding r = true → r.1.timePoint ≤ now) :
    ∃ y ∈ u, (∀ r ∈ u, y.1.timePoint ≤ r.1.timePoint) ∧ ∃ o, ∀ v, (y :: v).Perm u →
      ¬ Servable (insertBack (y :: v) (putBack plus now e o (y :: v))) := by
  obtain ⟨x, hx, hfx⟩ : ∃ x ∈ u, isForwarding x = true := by
    by_contra hno
    push Not at hno
    have : u.countP isForwarding = 0 := List.countP_eq_zero.mpr hno
    exact h (.inl (by rw [List.countP_cons, if_pos hf]; omega))
  have hne := List.ne_nil_of_mem hx
  have hle : ∀ {y : Record (Work ω) w}, (∀ r ∈ u, y.1.timePoint ≤ r.1.timePoint) →
      y.1.timePoint ≤ now := fun hy => Int.le_trans (hy x hx) (hdue x hx hfx)
  rcases not_servable_cases h with ⟨h1, h2⟩ | ⟨h1, h2, h3, h4⟩ | ⟨h1, h2, h3⟩
  · obtain ⟨y, hy, hymin, -⟩ := exists_earliest hne fun _ => True
    obtain ⟨hpost, hback⟩ := fails_after hnow hf hmin h1 h2 hy
    exact ⟨y, hy, hymin, fails_of_item hnow hf (hle hymin) hpost hback⟩
  · obtain ⟨y, hy, hymin, huser⟩ := exists_user_first hne
    obtain ⟨hpost, hback⟩ := fails_atEpoch hnow hf hmin h1 h2 h3 h4 hy huser
    exact ⟨y, hy, hymin, fails_of_item hnow hf (hle hymin) hpost hback⟩
  have he0 := item_front hmin h1
  rcases Nat.eq_zero_or_pos (beforeEpoch u) with hb | hb
  · obtain ⟨y, hy, hymin, huser⟩ := exists_user_first hne
    obtain ⟨hpost, hback⟩ := fails_alone hnow hf he0 h2 h3 hb hy hymin huser
    exact ⟨y, hy, hymin, fails_of_item hnow hf (hle hymin) hpost hback⟩
  · obtain ⟨y, hy, hymin, hother⟩ := exists_item_first hne
    obtain ⟨z, hz, -, hz0⟩ := beforeEpoch_pos.mp hb
    refine ⟨y, hy, hymin, fails_of_item hnow hf (hle hymin) (fun hy0 => ?_)
      fun _ v hv => fails_before hnow hf he0 h2 h3 hb hother hv⟩
    have := hymin z hz
    omega

/-- **Where it fails, the next execution can leave it so.** -/
theorem exists_not_servable (plus : Int → Int → Int) {now : Int} (hnow : 0 < now)
    (h : ¬ Servable (e :: u)) (hmin : ∀ r ∈ u, e.1.timePoint ≤ r.1.timePoint)
    (hdue : ∀ r ∈ u, isForwarding r = true → r.1.timePoint ≤ now)
    (hexact : isForwarding e = false → 0 < e.1.period →
      plus e.1.timePoint e.1.period = e.1.timePoint + e.1.period) :
    ∃ y ∈ u, (∀ r ∈ u, y.1.timePoint ≤ r.1.timePoint) ∧ ∃ o, ∀ v, (y :: v).Perm u →
      ¬ Servable (insertBack (y :: v) (putBack plus now e o (y :: v))) := by
  cases hf : isForwarding e with
  | false => exact exists_not_servable_user now h hf (hexact hf)
  | true => exact exists_not_servable_item hnow h hf hmin hdue

end Fail

end Mqmx.Testing
