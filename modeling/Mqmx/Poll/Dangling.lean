import Mqmx.Poll.Alive
import Mqmx.Poll.Overlap
import Mqmx.Queue.Notified

/-!
# Listeners that are gone

The listener of a poll is a local variable of it: when `poll` returns it is destroyed, and a
queue that still had it would call into nothing.

`listener_outlives`: as long as no other thread sets the listener of a poll, every queue that
has it is held by the poll, whatever other polls and threads set and clear on the same queues.
So no queue has it once the poll is done, and it is told nothing any more.
-/

namespace Mqmx

variable {A β L : Type}

theorem Op.told_listens [DecidableEq A] {m : Memory A β L} {o : Op A β L} {l : L}
    (h : l ∈ o.told m) :
    (∃ a, Listens m a l) ∨ ∃ a, o = .setListener a l := by
  have listens : ∀ {a : A}, l ∈ (m.listener? a).toList → ∃ a, Listens m a l := by
    intro a hl
    obtain ⟨q, hq, he⟩ := Option.bind_eq_some_iff.mp (Option.mem_toList.mp hl)
    exact ⟨a, q, Memory.queue?_eq_some.mp hq, he⟩
  cases o with
  | moveConstruct | destroy => exact .inl (listens h)
  | moveAssign a o =>
    simp only [Op.told] at h
    split at h
    · cases h
    · rcases List.mem_append.mp h with h | h
      · exact .inl (listens h)
      · exact .inl (listens h)
  | push a msg =>
    cases msg with
    | none => cases h
    | some x =>
      simp only [Op.told] at h
      split at h
      · exact .inl (listens h)
      · cases h
  | setListener a k =>
    simp only [Op.told] at h
    split at h
    · obtain rfl := List.mem_singleton.mp h
      exact .inr ⟨a, rfl⟩
    · cases h
  | construct | pop | clearListener => cases h

end Mqmx

namespace Mqmx.Poll

open Transition (System Run)

variable {A β L : Type}

/-- Some other thread sets the listener of the poll. -/
def Label.Lends (l : L) : Label A β L → Prop
  | .op (.setListener _ k) _ => k = l
  | _ => False

variable [DecidableEq A] [DecidableEq L]

/-- The polls, with the listener of `l` unknown to other threads. -/
def owning (range : L → List A) (l : L) : System (State A β L) (Label A β L) :=
  (system range).restrict fun _ x => ¬ x.Lends l

section Steps

variable {range : L → List A} {s t : State A β L} {x : Label A β L} {a : A} {l : L}

/-- **A queue with the listener of a poll had it before, or was attached now.** -/
theorem listens_before (hx : Step range s x t) (hno : ¬ x.Lends l) (h : Listens t.memory a l) :
    x = .attach l a ∨ (Listens s.memory a l ∧ ∀ k, x ≠ .detach k a) := by
  obtain ⟨q, hq, hl⟩ := h
  rcases hx.memory with e | ⟨o, r, hc, e⟩
  · rw [e] at hq
    refine .inr ⟨⟨q, hq, hl⟩, ?_⟩
    rintro k rfl
    -- the call of a destructor takes the listener off where the queue is there
    obtain ⟨r, he⟩ := hx.detach_effect ⟨q, hq⟩
    obtain ⟨p, hp, hnone⟩ := Listens.clearListener he
    obtain rfl := Object.alive.inj ((e ▸ hp).symm.trans hq)
    rw [hl] at hnone
    cases hnone
  · obtain ⟨p, hp, -, ⟨hpl, hrel⟩ | ⟨rfl, -⟩⟩ := listener_before e hq hl
    · refine .inr ⟨⟨p, hp, hpl⟩, ?_⟩
      rintro k rfl
      cases hc
      exact hrel rfl
    · cases hc with
      | attach => exact .inl rfl
      | op => exact absurd rfl hno

structure Holding (range : L → List A) (l : L) (s : State A β L) : Prop where
  whole : Whole range s
  held : ∀ a, Listens s.memory a l → a ∈ held (range l) (s.pc l)

theorem Holding.step (h : Holding range l s) (hx : Step range s x t) (hno : ¬ x.Lends l) :
    Holding range l t := by
  refine ⟨h.whole.step hx, fun a ha => ?_⟩
  rcases listens_before hx hno ha with rfl | ⟨hb, hne⟩
  · cases hx with
    | attach hpc =>
      show a ∈ Poll.held (range l) ((s.goto l _).pc l)
      rw [goto_pc_self]
      exact List.mem_append_right _ (List.mem_singleton_self a)
  · exact held_keep h.whole hx (hne l) (h.held a hb)

theorem holding_run {i : State A β L} {ls : List (Label A β L)} (hi : (system range).init i)
    (hr : Run (owning range l) i ls s) : Holding range l s := by
  refine hr.invariant (P := Holding range l) ?_ ⟨whole_initial hi, ?_⟩
  · rintro u x v hu ⟨hno, hx⟩
    exact hu.step hx hno
  · rintro a ⟨q, hq, -⟩
    rw [hi.1 a] at hq
    cases hq

theorem done_step (hx : Step range s x t) (h : s.pc l = .done) : t.pc l = .done := by
  have goto : ∀ {k : L} {pc pc' : Pc A}, s.pc k = pc' → pc' ≠ .done →
      (s.goto k pc).pc l = .done := by
    intro k pc pc' hpc hne
    by_cases hk : l = k
    · rw [hk, hpc] at h
      exact absurd h hne
    · rw [goto_pc_of_ne hk]
      exact h
  cases hx with
  | op => exact h
  | begin k hpc => exact goto hpc (by simp)
  | attach hpc | ready hpc | wake hpc | timeout hpc | detach hpc | finish hpc =>
    exact goto hpc (by simp)

theorem Holding.silent (h : Holding range l s) (hd : s.pc l = .done) (hx : Step range s x t)
    (hno : ¬ x.Lends l) : t.memory.notifications l = s.memory.notifications l := by
  rcases hx.memory with e | ⟨o, r, hc, e⟩
  · rw [e]
  · apply e.notifications_of_not_told
    intro hl
    rcases Op.told_listens hl with ⟨a, ha⟩ | ⟨a, rfl⟩
    · have := h.held a ha
      rw [hd] at this
      cases this
    · cases hc with
      | attach =>
        cases hx with
        | attach hpc =>
          rw [hd] at hpc
          cases hpc
      | op => exact hno rfl

end Steps

/-- **No queue calls a listener that is gone.**  Where no other thread sets the listener of a
poll, each queue that has it is one that the poll has attached and not yet come to again.  When
the poll is done no queue has it any more, for good, and its list stays as it was. -/
theorem listener_outlives {range : L → List A} {i s : State A β L} {ls : List (Label A β L)}
    {l : L} (hi : (system range).init i) (hr : Run (owning range l) i ls s) :
    (∀ a, Listens s.memory a l → a ∈ held (range l) (s.pc l)) ∧
    (s.pc l = .done → ∀ ls' t, Run (owning range l) s ls' t →
      (∀ a, ¬ Listens t.memory a l) ∧
        t.memory.notifications l = s.memory.notifications l) := by
  have h := holding_run hi hr
  refine ⟨h.held, fun hd ls' t hr' => ?_⟩
  obtain ⟨ht, hdt, hn⟩ := hr'.invariant
    (P := fun t => Holding range l t ∧ t.pc l = .done ∧
      t.memory.notifications l = s.memory.notifications l) (by
        rintro u x v ⟨hu, hdu, hn⟩ ⟨hno, hx⟩
        exact ⟨hu.step hx hno, done_step hx hdu, (hu.silent hdu hx hno).trans hn⟩) ⟨h, hd, rfl⟩
  refine ⟨fun a ha => ?_, hn⟩
  have := ht.held a ha
  rw [hdt] at this
  cases this

/-- A poll that has timed out, and a push after it. -/
theorem listener_outlives_timeout : ∃ (s t : State ℕ Unit Bool) (ls ls' : List (Label ℕ Unit Bool)),
    Run (owning (fun _ => [0]) true) noPolls ls s ∧ s.pc true = .done ∧
    Run (owning (fun _ => [0]) true) s ls' t ∧ t.memory.notifications true = [] := by
  have hr : Run (owning (fun _ => [0]) true) (noPolls : State ℕ Unit Bool)
      [.op (.construct 0 7) .done, .begin true, .attach true 0, .ready true, .timeout true,
        .detach true 0, .finish true] _ :=
    .cons ⟨id, .op (.construct 0 7) rfl⟩
      (.cons ⟨id, .begin true rfl⟩
      (.cons ⟨id, .attach rfl⟩
      (.cons ⟨id, .ready rfl⟩
      (.cons ⟨id, .timeout rfl⟩
      (.cons ⟨id, .detach rfl⟩
      (.single ⟨id, .finish rfl⟩))))))
  have hpush : ∀ {s : State ℕ Unit Bool} {m : Memory ℕ Unit Bool},
      (Op.push 0 (some ⟨7, 1, ()⟩)).run s.memory = some (.pushed .success none, m) →
      (owning (fun _ => [0]) true).step s (.op (.push 0 (some ⟨7, 1, ()⟩)) (.pushed .success none))
        { s with memory := m } := fun h => ⟨id, .op _ h⟩
  refine ⟨_, _, _, _, hr, rfl, .single (hpush rfl), ?_⟩
  have hi : (system fun _ : Bool => [0]).init (noPolls : State ℕ Unit Bool) :=
    ⟨fun _ => rfl, fun _ => rfl, fun _ => rfl⟩
  exact ((listener_outlives hi hr).2 rfl _ _ (.single (hpush rfl))).2

end Mqmx.Poll
