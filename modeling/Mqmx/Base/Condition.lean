import Mathlib.Data.Fintype.Card
import Mqmx.Base.Transition

/-!
# Condition variables

Threads that wait at condition variables, and `notify_one`.  A thread that waits evaluates its
predicate and goes to sleep in one step, under the mutex.  It may wake up for no reason, and then
evaluates the predicate again.

* `Notify.lone`: a thread that waits at a condition variable alone is not asleep after
  `notify_one`.
* `Monitor`: threads that wait for one predicate.  `asleep_le`: when each change makes the
  predicate true and calls `notify_one`, each takes one of the threads out of sleep; and
  `exists_asleep`: it may be no more than that.
-/

namespace Condition

open Transition (System Run)

universe u v

variable {ι : Type u} {κ : Type v}

/-- Where a thread is with its wait.  It is `awake` when it is about to evaluate the predicate. -/
inductive Place
  | away
  | awake
  | asleep
  deriving DecidableEq

section Notify

variable [DecidableEq ι] (cv : ι → κ)

/-- `notify_one`: one of those that sleep at `k` wakes up, where there is one. -/
inductive NotifyOne (k : κ) (p : ι → Place) : (ι → Place) → Prop
  | one {i : ι} : cv i = k → p i = .asleep → NotifyOne k p (Function.update p i .awake)
  | nobody : (∀ i, cv i = k → p i ≠ .asleep) → NotifyOne k p p

/-- `notify_one` at each of these, one after the other. -/
inductive Notify : List κ → (ι → Place) → (ι → Place) → Prop
  | nil (p : ι → Place) : Notify [] p p
  | cons {k : κ} {ks : List κ} {p p' p'' : ι → Place} :
      NotifyOne cv k p p' → Notify ks p' p'' → Notify (k :: ks) p p''

variable {cv} {k : κ} {ks : List κ} {p p' : ι → Place} {i : ι}

theorem exists_notifyOne (cv : ι → κ) (k : κ) (p : ι → Place) : ∃ p', NotifyOne cv k p p' := by
  by_cases h : ∃ i, cv i = k ∧ p i = .asleep
  · obtain ⟨i, hi, hp⟩ := h
    exact ⟨_, .one hi hp⟩
  · exact ⟨p, .nobody fun i hi hp => h ⟨i, hi, hp⟩⟩

theorem exists_notify (cv : ι → κ) (ks : List κ) (p : ι → Place) : ∃ p', Notify cv ks p p' := by
  induction ks generalizing p with
  | nil => exact ⟨p, .nil p⟩
  | cons k ks ih =>
    obtain ⟨p', hp'⟩ := exists_notifyOne cv k p
    obtain ⟨p'', hp''⟩ := ih p'
    exact ⟨p'', .cons hp' hp''⟩

theorem NotifyOne.place (h : NotifyOne cv k p p') (i : ι) :
    p' i = p i ∨ (p i = .asleep ∧ p' i = .awake) := by
  cases h with
  | nobody => exact .inl rfl
  | @one j _ hj =>
    by_cases hij : i = j
    · subst hij
      exact .inr ⟨hj, Function.update_self ..⟩
    · exact .inl (Function.update_of_ne hij ..)

theorem Notify.place (h : Notify cv ks p p') (i : ι) :
    p' i = p i ∨ (p i = .asleep ∧ p' i = .awake) := by
  induction h with
  | nil => exact .inl rfl
  | cons hone _ ih =>
    rcases hone.place i with e | ⟨hs, ha⟩
    · rw [e] at ih
      exact ih
    · rcases ih with e | ⟨hs', -⟩
      · exact .inr ⟨hs, e.trans ha⟩
      · rw [ha] at hs'
        cases hs'

theorem Notify.asleep (h : Notify cv ks p p') (hi : p' i = .asleep) : p i = .asleep := by
  rcases h.place i with e | ⟨hs, -⟩
  · rw [← e]
    exact hi
  · exact hs

theorem Notify.away_iff (h : Notify cv ks p p') : p' i = .away ↔ p i = .away := by
  rcases h.place i with e | ⟨hs, ha⟩
  · rw [e]
  · rw [hs, ha]
    simp

/-- **Who waits alone is woken.** -/
theorem Notify.lone (h : Notify cv ks p p') (hlone : ∀ j, cv j = cv i → j = i)
    (hi : cv i ∈ ks) : p' i ≠ .asleep := by
  induction h with
  | nil => cases hi
  | @cons k ks p p' p'' hone hrest ih =>
    by_cases hk : cv i = k
    · have hawake : p' i ≠ .asleep := by
        cases hone with
        | nobody hno => exact hno i hk
        | @one j hj _ =>
          obtain rfl := hlone j (hj.trans hk.symm)
          rw [Function.update_self]
          simp
      exact fun hs => hawake (hrest.asleep hs)
    · exact ih ((List.mem_cons.mp hi).resolve_left hk)

end Notify

/-! ### Monitors -/

section Monitor

variable {σ : Type v} [DecidableEq ι]

structure State (ι : Type u) (σ : Type v) where
  data : σ
  place : ι → Place

def State.move (i : ι) (pl : Place) (s : State ι σ) : State ι σ :=
  { s with place := Function.update s.place i pl }

inductive Label (ι : Type u)
  | enter (i : ι)
  | sleep (i : ι)
  | leave (i : ι)
  | stir (i : ι)
  | giveUp (i : ι)
  | notify
  deriving DecidableEq

inductive Step (holds : σ → Prop) (change : σ → σ → Prop) :
    State ι σ → Label ι → State ι σ → Prop
  | enter {s : State ι σ} {i : ι} : s.place i = .away →
      Step holds change s (.enter i) (s.move i .awake)
  | sleep {s : State ι σ} {i : ι} : s.place i = .awake → ¬ holds s.data →
      Step holds change s (.sleep i) (s.move i .asleep)
  | leave {s : State ι σ} {i : ι} : s.place i = .awake → holds s.data →
      Step holds change s (.leave i) (s.move i .away)
  /-- It wakes up for no reason. -/
  | stir {s : State ι σ} {i : ι} : s.place i = .asleep →
      Step holds change s (.stir i) (s.move i .awake)
  /-- Its time is over. -/
  | giveUp {s : State ι σ} {i : ι} : s.place i = .asleep →
      Step holds change s (.giveUp i) (s.move i .away)
  | notify {s : State ι σ} {d : σ} {p : ι → Place} : change s.data d →
      NotifyOne (fun _ => ()) () s.place p → Step holds change s .notify ⟨d, p⟩

/-- Threads that wait for `holds`, from where nobody waits and it does not hold. -/
def Monitor (ι : Type u) [DecidableEq ι] (holds : σ → Prop) (change : σ → σ → Prop) :
    System (State ι σ) (Label ι) where
  init s := (∀ i, s.place i = .away) ∧ ¬ holds s.data
  step := Step holds change

variable [Fintype ι]

def asleep (p : ι → Place) : Finset ι := Finset.univ.filter fun i => p i = .asleep

variable {holds : σ → Prop} {change : σ → σ → Prop} {s t : State ι σ} {ls : List (Label ι)}

omit [DecidableEq ι] in
theorem mem_asleep {p : ι → Place} {i : ι} : i ∈ asleep p ↔ p i = .asleep := by
  simp [asleep]

theorem asleep_move_subset {i : ι} {pl : Place} (hpl : pl ≠ .asleep) :
    asleep (s.move i pl).place ⊆ asleep s.place := by
  intro j hj
  rw [mem_asleep] at hj ⊢
  by_cases hij : j = i
  · subst hij
    exact absurd ((Function.update_self ..).symm.trans hj) hpl
  · exact (Function.update_of_ne hij ..).symm.trans hj

/-- **`notify_one` takes one out of sleep**, if anyone sleeps. -/
theorem NotifyOne.card_asleep {p p' : ι → Place} (h : NotifyOne (fun _ : ι => ()) () p p') :
    (asleep p').card = (asleep p).card - 1 := by
  cases h with
  | nobody hno =>
    have hnone : asleep p = ∅ := by
      ext i
      simp [mem_asleep, hno i rfl]
    rw [hnone]
    rfl
  | @one i _ hi =>
    have herase : asleep (Function.update p i .awake) = (asleep p).erase i := by
      ext j
      rw [mem_asleep, Finset.mem_erase, mem_asleep, Function.update_apply]
      split
      · rename_i hj
        simp [hj]
      · rename_i hj
        simp [hj]
    rw [herase, Finset.card_erase_of_mem (mem_asleep.mpr hi)]

/-- **Each notification takes one of the threads out of sleep**, and nobody goes to sleep after
the first. -/
theorem asleep_le (hmakes : ∀ d d', change d d' → holds d')
    (hr : Run (Monitor ι holds change) s ls t) :
    (asleep t.place).card ≤ Fintype.card ι - ls.count .notify ∧
      (0 < ls.count .notify → holds t.data) := by
  refine hr.history_invariant (P := fun ls t =>
    (asleep t.place).card ≤ Fintype.card ι - ls.count .notify ∧
      (0 < ls.count .notify → holds t.data)) ?_ ⟨?_, by simp⟩
  · rintro ls s x t ⟨hle, hholds⟩ hs
    rw [List.count_append]
    cases hs with
    | enter | leave | stir | giveUp =>
      exact ⟨(Finset.card_le_card (asleep_move_subset (by simp))).trans hle, hholds⟩
    | @sleep i _ hno =>
      -- nothing has been told so far
      have hzero : ls.count .notify = 0 := by
        by_contra hne
        exact hno (hholds (Nat.pos_of_ne_zero hne))
      refine ⟨?_, hholds⟩
      rw [hzero]
      exact Finset.card_le_univ _
    | notify hc hp =>
      refine ⟨?_, fun _ => hmakes _ _ hc⟩
      show (asleep _).card ≤ _ - (_ + 1)
      rw [hp.card_asleep]
      omega
  · exact (Finset.card_le_univ _).trans (by simp)

omit [Fintype ι] in
theorem exists_all_asleep (change : σ → σ → Prop) {d : σ} (hno : ¬ holds d) (S : Finset ι) :
    ∃ ls, Run (Monitor ι holds change) ⟨d, fun _ => .away⟩ ls
      ⟨d, fun i => if i ∈ S then .asleep else .away⟩ ∧ ls.count .notify = 0 := by
  induction S using Finset.induction_on with
  | empty => exact ⟨[], .nil _, rfl⟩
  | @insert i S hi ih =>
    obtain ⟨ls, hr, hcount⟩ := ih
    refine ⟨ls ++ [.enter i, .sleep i], ?_, by simp [hcount]⟩
    let u : State ι σ := ⟨d, fun j => if j ∈ S then .asleep else .away⟩
    have haway : u.place i = .away := if_neg hi
    have hrun : Run (Monitor ι holds change) u [.enter i, .sleep i]
        ((u.move i .awake).move i .asleep) :=
      .cons (.enter haway) (.single (.sleep (Function.update_self ..) hno))
    have he : (u.move i .awake).move i .asleep =
        ⟨d, fun j => if j ∈ insert i S then .asleep else .away⟩ := by
      refine congrArg (State.mk d) ?_
      funext j
      by_cases hj : j = i
      · simp [State.move, u, hj]
      · simp [State.move, u, hj]
    rw [he] at hrun
    exact hr.append hrun

omit [Fintype ι] in
theorem exists_woken (holds : σ → Prop) {d₀ d : σ} (hfirst : change d₀ d) (hmore : change d d)
    (S : Finset ι) :
    Run (Monitor ι holds change) ⟨d₀, fun _ => .asleep⟩ (List.replicate S.card .notify)
      ⟨if S = ∅ then d₀ else d, fun i => if i ∈ S then .awake else .asleep⟩ := by
  induction S using Finset.induction_on with
  | empty => exact .nil _
  | @insert i S hi ih =>
    rw [Finset.card_insert_of_notMem hi, List.replicate_succ', if_neg (Finset.insert_ne_empty i S)]
    have hplace : (fun j => if j ∈ insert i S then Place.awake else .asleep) =
        Function.update (fun j => if j ∈ S then Place.awake else .asleep) i .awake := by
      funext j
      by_cases hj : j = i
      · simp [hj]
      · simp [hj]
    rw [hplace]
    refine ih.snoc (.notify ?_ (.one rfl (if_neg hi)))
    split
    · exact hfirst
    · exact hmore

/-- **It need not be fewer**: so many of them may still be asleep. -/
theorem exists_asleep {d₀ d : σ} (hno : ¬ holds d₀) (hfirst : change d₀ d) (hmore : change d d)
    {k : ℕ} (hk : k ≤ Fintype.card ι) :
    ∃ ls t, Run (Monitor ι holds change) ⟨d₀, fun _ => .away⟩ ls t ∧ ls.count .notify = k ∧
      (asleep t.place).card = Fintype.card ι - k := by
  obtain ⟨ls, hr, hcount⟩ := exists_all_asleep change hno (Finset.univ : Finset ι)
  obtain ⟨S, -, hS⟩ := Finset.exists_subset_card_eq (s := Finset.univ) hk
  have hall : (fun i => if i ∈ (Finset.univ : Finset ι) then Place.asleep else .away) =
      fun _ => .asleep := by
    funext i
    simp
  rw [hall] at hr
  refine ⟨_, _, hr.append (exists_woken holds hfirst hmore S), ?_, ?_⟩
  · rw [List.count_append, hcount, List.count_replicate_self, hS, Nat.zero_add]
  · have hcompl : asleep (fun i => if i ∈ S then Place.awake else .asleep) = Sᶜ := by
      ext i
      by_cases hi : i ∈ S
      · simp [mem_asleep, hi]
      · simp [mem_asleep, hi]
    rw [hcompl, Finset.card_compl, hS]

end Monitor

end Condition
