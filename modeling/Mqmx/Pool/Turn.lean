import Mqmx.Pool.Calls

/-!
# Whose turn it is

The worker and the callers of `is_poll_idle` take turns with `_mqs`.  The turn is the
worker's, or it is on its way in `_sem_pause`, or a caller's, or on its way back in
`_sem_resume`; `Token` reads it off the state, and every step leaves exactly one
(`Token.step`).  No restriction on the clients is needed for it.
-/

namespace Mqmx.Pool

open Transition (System Run)

variable {A T H U σ : Type}

def ClientPc.InSection : ClientPc A → Prop
  | .start => True
  | .poll _ => True
  | .polled _ => True
  | _ => False

inductive Turn (T : Type)
  | worker
  | pause
  | client (t : T)
  | resume
  deriving DecidableEq

variable [DecidableEq T] [Semaphore σ]

structure Token (s : State A T H U σ) (k : Turn T) : Prop where
  worker : s.worker = .parked ↔ k ≠ .worker
  pause : Semaphore.value s.semPause = if k = .pause then 1 else 0
  resume : Semaphore.value s.semResume = if k = .resume then 1 else 0
  client : ∀ t, (s.client t).InSection ↔ k = .client t

section Worker

omit [DecidableEq T] [Semaphore σ]

theorem examine_ne_parked (handler : List (Option (Handler H))) (rec : NotificationRec A)
    (mqlist : List (NotificationRec A)) :
    (examine handler rec mqlist : WorkerPc A T U) ≠ .parked := by
  rcases examine_cases handler rec mqlist with e | ⟨-, e⟩ | e <;> rw [e] <;> simp

theorem afterControl_ne_parked (rec : NotificationRec A) (mqlist : List (NotificationRec A))
    (st : ExitStatus) : (afterControl rec mqlist st : WorkerPc A T U) ≠ .parked := by
  cases st <;> simp [afterControl]

theorem afterHandler_ne_parked (rec : NotificationRec A) (mqlist : List (NotificationRec A))
    (o : Outcome) : (afterHandler rec mqlist o : WorkerPc A T U) ≠ .parked := by
  rcases afterHandler_cases rec mqlist o with e | e <;> rw [e] <;> simp

end Worker

variable {s t : State A T H U σ} {k : Turn T}

theorem Token.keep (h : Token s k) (hw : t.worker = .parked ↔ s.worker = .parked)
    (hp : t.semPause = s.semPause) (hr : t.semResume = s.semResume)
    (hc : ∀ u, (t.client u).InSection ↔ (s.client u).InSection) : Token t k := by
  refine ⟨hw.trans h.worker, ?_, ?_, fun u => (hc u).trans (h.client u)⟩
  · rw [hp]
    exact h.pause
  · rw [hr]
    exact h.resume

omit [Semaphore σ] in
theorem goto_inSection {u : T} {pc : ClientPc A}
    (hpc : pc.InSection ↔ (s.client u).InSection) (v : T) :
    ((s.goto u pc).client v).InSection ↔ (s.client v).InSection := by
  simp only [State.goto, Function.update_apply]
  split
  · rename_i e
    rw [e, hpc]
  · exact Iff.rfl

omit [Semaphore σ] in
theorem goto_section_iff {u v : T} {pc : ClientPc A} :
    ((s.goto u pc).client v).InSection ↔
      if v = u then pc.InSection else (s.client v).InSection := by
  simp only [State.goto, Function.update_apply]
  split <;> rfl

theorem Token.of_inSection (h : Token s k) {u : T} (hu : (s.client u).InSection) :
    k = .client u := (h.client u).mp hu

variable [DecidableEq A] {mqControl : A} {x : Label A T H U}

/-- **A step keeps the turn, or passes it on.** -/
theorem Token.step (h : Token s k) (hs : Step mqControl s x t) : ∃ k', Token t k' := by
  have here : ∀ u, (s.client u).InSection ↔ (s.client u).InSection := fun _ => Iff.rfl
  cases hs with
  | begin hw | poll hw | take hw | again hw => exact ⟨k, h.keep (by simp [hw]) rfl rfl here⟩
  | pop hw | popNothing hw => exact ⟨k, h.keep (by simp [hw]) rfl rfl here⟩
  | controlAborts hw | handle hw | badCall hw => exact ⟨k, h.keep (by simp [hw]) rfl rfl here⟩
  | examine hw => exact ⟨k, h.keep (by simp [hw, examine_ne_parked]) rfl rfl here⟩
  | control hw => exact ⟨k, h.keep (by simp [hw, afterControl_ne_parked]) rfl rfl here⟩
  | returned o hw => exact ⟨k, h.keep (by simp [hw, afterHandler_ne_parked]) rfl rfl here⟩
  | pause hw =>
    obtain rfl : k = .worker := by
      by_contra hk
      rw [← ne_eq, ← h.worker, hw] at hk
      cases hk
    refine ⟨.pause, by simp, ?_, h.resume, ?_⟩
    · simpa using h.pause
    · intro u
      simpa using h.client u
  | @resume v hw hv =>
    have hval := Semaphore.value_wait _ _ hv
    have hres := h.resume
    obtain rfl : k = .resume := by
      by_contra hk
      rw [if_neg hk] at hres
      omega
    refine ⟨.worker, by simp, h.pause, ?_, ?_⟩
    · simp only [if_true] at hres
      show Semaphore.value v = 0
      omega
    · intro u
      simpa using h.client u
  | @paused u v hu hv =>
    have hval := Semaphore.value_wait _ _ hv
    have hpause := h.pause
    obtain rfl : k = .pause := by
      by_contra hk
      rw [if_neg hk] at hpause
      omega
    refine ⟨.client u, ?_, ?_, h.resume, ?_⟩
    · simpa [State.goto] using h.worker
    · simp only [if_true] at hpause
      show Semaphore.value v = 0
      omega
    · intro w
      have hw : ¬ (s.client w).InSection := by simpa using h.client w
      apply goto_section_iff.trans
      by_cases e : w = u
      · simp [e, ClientPc.InSection]
      · simpa [e, Ne.symm e] using hw
  | @answer u b hu =>
    obtain rfl : k = .client u := h.of_inSection (by rw [hu]; trivial)
    refine ⟨.resume, ?_, h.pause, ?_, ?_⟩
    · simpa [State.goto] using h.worker
    · simpa using h.resume
    · intro w
      apply goto_section_iff.trans
      by_cases e : w = u
      · simp [e, ClientPc.InSection]
      · have hw := h.client w
        simpa [e, Ne.symm e] using hw
  | refuse => exact ⟨k, h.keep Iff.rfl rfl rfl here⟩
  | allocate hu | overflow hu | allocated hu | delete hu | remove hu | removed hu | free hu =>
    exact ⟨k, h.keep Iff.rfl rfl rfl
      (goto_inSection (by rw [hu]; simp [ClientPc.InSection]))⟩
  | isPollIdle hu | beginClient hu | pollClient hu | polled hu =>
    exact ⟨k, h.keep Iff.rfl rfl rfl
      (goto_inSection (by rw [hu]; simp [ClientPc.InSection]))⟩
  | add hu | check hu =>
    refine ⟨k, h.keep Iff.rfl rfl rfl (goto_inSection ?_)⟩
    rw [hu]
    split <;> simp [ClientPc.InSection]
  | terminate | op => exact ⟨k, h.keep Iff.rfl rfl rfl here⟩

theorem token_initial (mqControl : A) (capacity : ℕ) :
    Token (.initial mqControl capacity : State A T H U σ) .worker where
  worker := by simp [State.initial]
  pause := by simp [State.initial]
  resume := by simp [State.initial]
  client := by simp [State.initial, ClientPc.InSection]

end Mqmx.Pool
