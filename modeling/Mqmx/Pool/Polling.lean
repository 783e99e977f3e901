import Mqmx.Pool.Slots
import Mqmx.Pool.Turn

/-!
# One poll at a time

Who is in a poll over `_mqs` has the turn, so there is at most one (`Token.poll_unique`).
`Step.pollMove` says what a step of the pool is to the polls: one begins, goes on or ends, or
they stay where they are.  The list of queues only changes while nobody polls.
-/

namespace Mqmx.Pool

open Transition (System Run)

variable {A T H U σ : Type}

/-- The queues that the poll has set its listener on, and not cleared. -/
def PollPc.attached : PollPc A → List A
  | .attach set _ => set
  | .wait range => range
  | .detach rest _ => rest

def PollPc.Over (mqs : List A) : PollPc A → Prop
  | .attach set rest => set ++ rest = mqs
  | .wait range => range = mqs
  | .detach rest _ => rest <:+ mqs

def PollPc.Open : PollPc A → Prop
  | .detach _ _ => False
  | _ => True

/-- What the poll returns. -/
def PollPc.result : PollPc A → List (NotificationRec A)
  | .detach _ result => result
  | _ => []

def WorkerPc.poll? : WorkerPc A T U → Option (PollPc A)
  | .poll p => some p
  | _ => none

def ClientPc.poll? : ClientPc A → Option (PollPc A)
  | .poll p => some p
  | _ => none

/-- The poll a party is in. -/
def State.poll? (s : State A T H U σ) : Party T → Option (PollPc A)
  | .worker => s.worker.poll?
  | .client t => (s.client t).poll?

/-- The records the worker has taken, and not done with. -/
def WorkerPc.records : WorkerPc A T U → List (NotificationRec A)
  | .poll p => p.result
  | .notes mqlist => mqlist
  | .handle rec mqlist => rec :: mqlist
  | .call rec _ mqlist => rec :: mqlist
  | .inHandler rec mqlist => rec :: mqlist
  | _ => []

@[simp] theorem examine_poll? (handler : List (Option (Handler H))) (rec : NotificationRec A)
    (mqlist : List (NotificationRec A)) :
    (examine handler rec mqlist : WorkerPc A T U).poll? = none := by
  rcases examine_cases handler rec mqlist with e | ⟨-, e⟩ | e <;> rw [e] <;> rfl

@[simp] theorem afterHandler_poll? (rec : NotificationRec A) (mqlist : List (NotificationRec A))
    (o : Outcome) : (afterHandler rec mqlist o : WorkerPc A T U).poll? = none := by
  rcases afterHandler_cases rec mqlist o with e | e <;> rw [e] <;> rfl

@[simp] theorem afterControl_poll? (rec : NotificationRec A) (mqlist : List (NotificationRec A))
    (st : ExitStatus) : (afterControl rec mqlist st : WorkerPc A T U).poll? = none := by
  cases st <;> rfl

/-! ### One poll at a time -/

section Places

variable {s : State A T H U σ} {l : Party T} {p : PollPc A}

theorem poll?_worker : s.poll? .worker = some p ↔ s.worker = .poll p := by
  show s.worker.poll? = some p ↔ _
  cases s.worker <;> simp [WorkerPc.poll?]

theorem poll?_client {t : T} : s.poll? (.client t) = some p ↔ s.client t = .poll p := by
  show (s.client t).poll? = some p ↔ _
  cases s.client t <;> simp [ClientPc.poll?]

variable [DecidableEq T] [Semaphore σ] {k : Turn T}

/-- Who polls has the turn. -/
def Party.turn : Party T → Turn T
  | .worker => .worker
  | .client t => .client t

omit [DecidableEq T] in
theorem Party.turn_injective {l l' : Party T} (h : l.turn = l'.turn) : l = l' := by
  cases l <;> cases l' <;> simp_all [Party.turn]

theorem Token.of_poll (h : Token s k) (hp : s.poll? l = some p) : k = l.turn := by
  cases l with
  | worker =>
    by_contra hk
    have hw := h.worker.mpr hk
    rw [poll?_worker.mp hp] at hw
    cases hw
  | client t =>
    apply h.of_inSection
    rw [poll?_client.mp hp]
    trivial

/-- **At most one party is in a poll.** -/
theorem Token.poll_unique (h : Token s k) {l' : Party T} {p' : PollPc A}
    (hp : s.poll? l = some p) (hp' : s.poll? l' = some p') : l = l' :=
  Party.turn_injective ((h.of_poll hp).symm.trans (h.of_poll hp'))

theorem Token.poll?_eq_none (h : Token s k) (hk : k = l.turn) (hl : s.poll? l = none)
    (l' : Party T) : s.poll? l' = none := by
  cases hp : s.poll? l' with
  | none => rfl
  | some p =>
    obtain rfl : l = l' := Party.turn_injective (hk.symm.trans (h.of_poll hp))
    rw [hl] at hp
    cases hp

theorem Token.poll?_of_hand (h : Token s k) (hw : s.worker.hand ≠ []) (l : Party T) :
    s.poll? l = none := by
  refine h.poll?_eq_none (l := .worker) ?_ ?_ l
  · by_contra hk
    rw [h.worker.mpr hk] at hw
    exact hw rfl
  · cases hp : s.poll? .worker with
    | none => rfl
    | some p =>
      rw [poll?_worker.mp hp] at hw
      exact absurd rfl hw

end Places

/-! ### What a step is to the polls -/

/-- A call that is nothing to a poll over the list. -/
def Calm (mqs : List A) : Op A (Body A T U) (Party T) → Prop
  | .construct _ _ => True
  | .push _ _ => True
  | .pop _ => True
  | .destroy a => a ∉ mqs
  | _ => False

section Moves

variable [DecidableEq T] {s t : State A T H U σ}

theorem poll?_of_client {pc : WorkerPc A T U} (hw : t.worker = pc) (hc : t.client = s.client) :
    t.poll? = Function.update s.poll? .worker pc.poll? := by
  funext l
  cases l with
  | worker => simp [State.poll?, hw]
  | client v => simp [State.poll?, hc]

theorem poll?_of_worker {u : T} (pc : ClientPc A) (hw : t.worker = s.worker)
    (hc : t.client = Function.update s.client u pc) :
    t.poll? = Function.update s.poll? (.client u) pc.poll? := by
  funext l
  cases l with
  | worker => simp [State.poll?, hw]
  | client v =>
    by_cases e : v = u
    · subst e
      simp [State.poll?, hc]
    · simp [State.poll?, hc, e]

theorem poll?_calm_worker {pc pc' : WorkerPc A T U} (hw : s.worker = pc) (hw' : t.worker = pc')
    (hc : t.client = s.client) (hp : pc.poll? = none) (hp' : pc'.poll? = none) :
    t.poll? = s.poll? := by
  rw [poll?_of_client hw' hc, hp', ← hp, ← hw]
  exact Function.update_eq_self ..

theorem poll?_calm_client {u : T} {pc pc' : ClientPc A} (hu : s.client u = pc)
    (hw : t.worker = s.worker) (hc : t.client = Function.update s.client u pc')
    (hp : pc.poll? = none) (hp' : pc'.poll? = none) : t.poll? = s.poll? := by
  rw [poll?_of_worker _ hw hc, hp', ← hp, ← hu]
  exact Function.update_eq_self ..

variable [DecidableEq A]

inductive PollMove (s t : State A T H U σ) : Prop
  | begin (l : Party T) : (∀ l', s.poll? l' = none) →
      t.poll? = Function.update s.poll? l (some (.attach [] s.mqs)) →
      t.memory = reset l s.memory → t.mqs = s.mqs → PollMove s t
  | step (l : Party T) (p p' : PollPc A) : s.poll? l = some p →
      t.poll? = Function.update s.poll? l (some p') →
      PollStep l s.memory p t.memory p' → t.mqs = s.mqs → PollMove s t
  | finish (l : Party T) (result : List (NotificationRec A)) :
      s.poll? l = some (.detach [] result) → t.poll? = Function.update s.poll? l none →
      t.memory = s.memory → t.mqs = s.mqs → PollMove s t
  | calm : t.poll? = s.poll? → t.mqs = s.mqs →
      (t.memory = s.memory ∨ ∃ o r, Calm s.mqs o ∧ Memory.Effect s.memory o r t.memory) →
      PollMove s t
  | control : t.poll? = s.poll? → s.worker.hand ≠ [] → t.memory = s.memory → PollMove s t

variable [Semaphore σ] {mqControl : A} {capacity : ℕ} {x : Label A T H U}

/-- **Every step is one of these to the polls.** -/
theorem Step.pollMove (h : Slots mqControl capacity s) {k : Turn T} (hk : Token s k)
    (hp : x.Pushes mqControl s) (hs : Step mqControl s x t) : PollMove s t := by
  cases hs with
  | begin hw =>
    refine .begin .worker (fun l => hk.poll?_eq_none (l := .worker) ?_ ?_ l)
      (poll?_of_client rfl rfl) rfl rfl
    · by_contra hne
      have hpark := hk.worker.mpr hne
      rw [hw] at hpark
      cases hpark
    · simp [State.poll?, hw, WorkerPc.poll?]
  | poll hw hpoll =>
    exact .step .worker _ _ (poll?_worker.mpr hw) (poll?_of_client rfl rfl) hpoll rfl
  | take hw =>
    exact .finish .worker _ (poll?_worker.mpr hw) (poll?_of_client rfl rfl) rfl rfl
  | examine hw | returned _ hw =>
    exact .calm (poll?_calm_worker hw rfl rfl rfl (by simp)) rfl (.inl rfl)
  | again hw | popNothing hw | controlAborts hw | handle hw | badCall hw | pause hw | resume hw =>
    exact .calm (poll?_calm_worker hw rfl rfl rfl rfl) rfl (.inl rfl)
  | pop hw ha hm =>
    exact .calm (poll?_calm_worker hw rfl rfl rfl rfl) rfl
      (.inr ⟨_, _, by trivial, pop_effect hm⟩)
  | control hw =>
    exact .control (poll?_calm_worker hw rfl rfl rfl (by simp)) (by simp [hw, WorkerPc.hand]) rfl
  | refuse => exact .calm rfl rfl (.inl rfl)
  | allocate hu _ hm =>
    exact .calm (poll?_calm_client hu rfl rfl rfl rfl) rfl
      (.inr ⟨_, _, by trivial, construct_effect hm⟩)
  | overflow hu | allocated hu | delete hu | removed hu | paused hu | answer hu =>
    exact .calm (poll?_calm_client hu rfl rfl rfl rfl) rfl (.inl rfl)
  | check hu =>
    refine .calm (poll?_calm_client hu rfl rfl rfl ?_) rfl (.inl rfl)
    split <;> rfl
  | add hu hm =>
    obtain ⟨left, e⟩ := Memory.enqueue_effect hm
    refine .calm (poll?_calm_client hu rfl rfl rfl ?_) rfl (.inr ⟨_, _, by trivial, e⟩)
    split <;> rfl
  | remove hu hm | isPollIdle hu hm =>
    obtain ⟨left, e⟩ := Memory.enqueue_effect hm
    exact .calm (poll?_calm_client hu rfl rfl rfl rfl) rfl (.inr ⟨_, _, by trivial, e⟩)
  | @free u mq hu =>
    refine .calm (poll?_calm_client hu rfl rfl rfl rfl) rfl ?_
    have hmq := h.registry.ledger.placed u
    simp only [State.ledger, hu] at hmq
    rcases Memory.touch_cases (.destroy mq) s.memory with ⟨-, e⟩ | ⟨r, e⟩
    · exact .inl e
    · exact .inr ⟨_, r, by exact hmq, e⟩
  | @beginClient u hu =>
    refine .begin (.client u) (fun l => hk.poll?_eq_none (l := .client u) ?_ ?_ l)
      (poll?_of_worker (.poll _) rfl rfl) rfl rfl
    · exact hk.of_inSection (by rw [hu]; trivial)
    · simp [State.poll?, hu, ClientPc.poll?]
  | @pollClient u _ _ _ hu hpoll =>
    exact .step (.client u) _ _ (poll?_client.mpr hu) (poll?_of_worker (.poll _) rfl rfl) hpoll rfl
  | @polled u _ hu =>
    exact .finish (.client u) _ (poll?_client.mpr hu) (poll?_of_worker (.polled _) rfl rfl) rfl rfl
  | terminate hm =>
    obtain ⟨left, e⟩ := Memory.enqueue_effect hm
    exact .calm rfl rfl (.inr ⟨_, _, by trivial, e⟩)
  | op o hm =>
    obtain ⟨a, msg, rfl, -⟩ := hp
    exact .calm rfl rfl (.inr ⟨_, _, by trivial, Memory.run_effect hm⟩)

end Moves

end Mqmx.Pool
