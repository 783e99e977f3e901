import Mathlib.Algebra.Order.BigOperators.Group.Finset
import Mathlib.Data.Finset.Option
import Mqmx.Pool.Defined

/-!
# What is left to do

How far the worker and the calls under way are from their ends: `State.work`.  A message counts
for more than a round of the worker, since the worker pops one in every round that it takes a
list in (`Filled`): so every step takes something off that is not the beginning of another call
(`Working.work_lt`).

A round goes over the queues of `_mqs` twice, so what it costs depends on how many there may
be: `Supports` has all that there may be something in, and all threads that are in a call.
-/

namespace Mqmx.Pool

open Transition (System Run)

variable {A T H U σ : Type}

def Label.Inner : Label A T H U → Prop
  | .refuse _ => False
  | .allocate _ _ _ _ => False
  | .overflow _ _ => False
  | .delete _ _ => False
  | .isPollIdle _ => False
  | .terminate => False
  | .op _ _ => False
  | _ => True

/-! ### The measure -/

instance (m : PoolMemory A T U) (r : NotificationRec A) : Decidable (Full m r) :=
  decidable_of_iff (r.mq.any fun a => !(m.messages a).isEmpty) (by simp [Full, Option.any_eq_true])

/-- A round of the worker, where there are `n` queues. -/
def round (n : ℕ) : ℕ := 2 * n + 7

def PollPc.left (n : ℕ) : PollPc A → ℕ
  | .attach _ rest => rest.length + n + 6
  | .wait _ => n + 5
  | .detach rest _ => rest.length + 4

def WorkerPc.left (m : PoolMemory A T U) (n : ℕ) : WorkerPc A T U → ℕ
  | .start => round n
  | .poll p => p.left n
  | .notes [] => round n + 1
  | .notes (_ :: _) => 3
  | .handle rec _ => if Full m rec then 2 else round n + 2
  | .call _ _ _ => round n + 4
  | .inHandler _ _ => round n + 3
  | .pausing => round n + 2
  | .parked => round n + 1
  | .exited => 0
  | .aborted => 0

/-- What a message counts for. -/
def share (n : ℕ) : ℕ := round n + 5

def ClientPc.left (n : ℕ) : ClientPc A → ℕ
  | .idle => 0
  | .adding _ => share n + 2
  | .added _ => 1
  | .checking _ => share n + 4
  | .removing _ => share n + 3
  | .removed _ => 2
  | .freeing _ => 1
  | .pausing => round n + 1
  | .start => round n
  | .poll p => p.left n
  | .polled _ => 1
  | .aborted => 0

/-- The messages in the queues. -/
def stored (as : Finset A) (m : PoolMemory A T U) : ℕ := ∑ a ∈ as, (m.messages a).length

def State.work (as : Finset A) (ts : Finset T) (s : State A T H U σ) : ℕ :=
  share as.card * stored as s.memory + s.worker.left s.memory as.card +
    ∑ u ∈ ts, (s.client u).left as.card

theorem PollPc.left_lt (n : ℕ) {mqs : List A} (hn : mqs.length ≤ n) :
    (PollPc.attach [] mqs).left n < round n := by
  simp only [PollPc.left, round]
  omega

theorem WorkerPc.left_handle_le (m : PoolMemory A T U) (n : ℕ) (rec : NotificationRec A)
    (mqlist : List (NotificationRec A)) :
    (WorkerPc.handle rec mqlist : WorkerPc A T U).left m n ≤ round n + 2 := by
  simp only [WorkerPc.left]
  split <;> simp [round]

theorem WorkerPc.left_notes_le (m : PoolMemory A T U) (n : ℕ)
    (mqlist : List (NotificationRec A)) :
    (WorkerPc.notes mqlist : WorkerPc A T U).left m n ≤ round n + 1 := by
  cases mqlist with
  | nil => exact Nat.le_refl _
  | cons => simp [WorkerPc.left, round]

theorem left_afterControl_le (m : PoolMemory A T U) (n : ℕ) (rec : NotificationRec A)
    (mqlist : List (NotificationRec A)) (st : ExitStatus) :
    (afterControl rec mqlist st).left m n ≤ round n + 2 := by
  have hmqlist := WorkerPc.left_notes_le (T := T) (U := U) m n mqlist
  cases st with
  | success => exact WorkerPc.left_handle_le m n rec mqlist
  | haltRequested => exact Nat.zero_le _
  | restartNeeded | pauseRequested => simp [afterControl, WorkerPc.left]
  | _ => exact hmqlist.trans (Nat.le_succ _)

theorem left_afterHandler_le (m : PoolMemory A T U) (n : ℕ) (rec : NotificationRec A)
    (mqlist : List (NotificationRec A)) (o : Outcome) :
    (afterHandler rec mqlist o).left m n ≤ round n + 2 := by
  rcases afterHandler_cases (A := A) (T := T) (U := U) rec mqlist o with e | e
  · rw [e]
    exact WorkerPc.left_handle_le m n rec mqlist
  · rw [e]
    exact (WorkerPc.left_notes_le m n mqlist).trans (Nat.le_succ _)

/-! ### Where there is something -/

structure Supports (mqControl : A) (as : Finset A) (ts : Finset T) (s : State A T H U σ) :
    Prop where
  control : mqControl ∈ as
  pooled : ∀ a, s.pooled a = true → a ∈ as
  messages : ∀ a, s.memory.messages a ≠ [] → a ∈ as
  client : ∀ u, s.client u ≠ .idle → u ∈ ts

def Label.queue? : Label A T H U → Option A
  | .allocate _ _ mq _ => some mq
  | .op (.push a _) _ => some a
  | _ => none

/-- The thread that begins a call. -/
def Label.thread? : Label A T H U → Option T
  | .allocate u _ _ _ => some u
  | .overflow u _ => some u
  | .delete u _ => some u
  | .isPollIdle u => some u
  | _ => none

theorem Label.Inner.queue? {x : Label A T H U} (h : x.Inner) : x.queue? = none := by
  cases x <;> first | exact h.elim | rfl

theorem Label.Inner.thread? {x : Label A T H U} (h : x.Inner) : x.thread? = none := by
  cases x <;> first | exact h.elim | rfl

variable [DecidableEq A] [DecidableEq T] [Semaphore σ] {mqControl : A} {capacity : ℕ}
  {s t : State A T H U σ} {x : Label A T H U}

theorem Step.messages_ne_nil (hp : x.Pushes mqControl s) (hs : Step mqControl s x t) {a : A}
    (ha : t.memory.messages a ≠ []) :
    s.memory.messages a ≠ [] ∨ a = mqControl ∨ x.queue? = some a := by
  obtain ⟨msg, hmsg⟩ := List.exists_mem_of_ne_nil _ ha
  rcases hs.memory with e | ⟨l, -, e⟩ | ⟨o, r, hc, e⟩
  · exact .inl (e ▸ ha)
  · rw [e] at ha
    exact .inl ha
  rcases e.mem_messages hmsg with rfl | ⟨c, hmem, rfl | ⟨hca, hcb⟩⟩
  · cases hc with
    | op => exact .inr (.inr rfl)
    | _ => exact .inr (.inl rfl)
  · exact .inl (List.ne_nil_of_mem hmem)
  · -- the call is on one queue only
    have hca : c = a := by
      cases hc with
      | op o r =>
        obtain ⟨b, msg, rfl, -, -⟩ := hp
        exact Eq.trans hca (Eq.symm hcb)
      | _ => exact Eq.trans hca (Eq.symm hcb)
    exact .inl (List.ne_nil_of_mem (hca ▸ hmem))

theorem Step.client_ne_idle (hs : Step mqControl s x t) {u : T} (hu : t.client u ≠ .idle) :
    s.client u ≠ .idle ∨ x.thread? = some u := by
  have move : ∀ {v : T} {pc pc' : ClientPc A}, s.client v = pc →
      t.client = Function.update s.client v pc' → pc ≠ .idle ∨ x.thread? = some v →
      s.client u ≠ .idle ∨ x.thread? = some u := by
    intro v pc pc' hv ht hor
    by_cases e : u = v
    · subst e
      rw [hv]
      exact hor
    · rw [ht, Function.update_of_ne e] at hu
      exact .inl hu
  cases hs with
  | allocate hv | overflow hv | delete hv | isPollIdle hv => exact move hv rfl (.inr rfl)
  | add hv | allocated hv | check hv | remove hv | removed hv => exact move hv rfl (.inl (by simp))
  | free hv | paused hv | beginClient hv | pollClient hv => exact move hv rfl (.inl (by simp))
  | polled hv | answer hv => exact move hv rfl (.inl (by simp))
  | _ => exact .inl hu

theorem Supports.step {as : Finset A} {ts : Finset T} (h : Supports mqControl as ts s)
    (hp : x.Pushes mqControl s) (hs : Step mqControl s x t) :
    Supports mqControl (as ∪ x.queue?.toFinset) (ts ∪ x.thread?.toFinset) t where
  control := Finset.mem_union_left _ h.control
  pooled a ha := by
    rw [Finset.mem_union]
    rcases hs.handler with ⟨-, e, -⟩ | ⟨u, hd, mq, rfl, -, -, -, e⟩
    · exact .inl (h.pooled a (e ▸ ha))
    · rw [e, Function.update_apply] at ha
      split at ha
      · rename_i e'
        exact .inr (by simp [Label.queue?, e'])
      · exact .inl (h.pooled a ha)
  messages a ha := by
    rw [Finset.mem_union]
    rcases hs.messages_ne_nil hp ha with ha | rfl | hx
    · exact .inl (h.messages a ha)
    · exact .inl h.control
    · exact .inr (by simp [hx])
  client u hu := by
    rw [Finset.mem_union]
    rcases hs.client_ne_idle hu with hu | hx
    · exact .inl (h.client u hu)
    · exact .inr (by simp [hx])

theorem Supports.inner {as : Finset A} {ts : Finset T} (h : Supports mqControl as ts s)
    (hp : x.Pushes mqControl s) (hx : x.Inner) (hs : Step mqControl s x t) :
    Supports mqControl as ts t := by
  simpa [hx.queue?, hx.thread?] using h.step hp hs

/-- **There is something in finitely many queues**, and finitely many threads are in a call. -/
theorem exists_supports {ls : List (Label A T H U)}
    (hr : Run (pushing mqControl capacity) (.initial mqControl capacity) ls s) :
    ∃ as ts, Supports mqControl as ts s := by
  refine hr.invariant (S := pushing mqControl capacity)
    (P := fun s => ∃ as ts, Supports mqControl as ts s) ?_ ⟨{mqControl}, ∅, ?_⟩
  · rintro s x t ⟨as, ts, h⟩ hs
    exact ⟨_, _, h.step hs.1 hs.2⟩
  · refine ⟨by simp, by simp [State.initial], ?_, by simp [State.initial]⟩
    intro a ha
    by_contra hne
    apply ha
    apply Memory.messages_of_unborn
    simpa [State.initial] using hne

/-! ### Every step takes something off -/

section Sums

variable {as : Finset A} {ts : Finset T}

theorem sum_update {ι : Type} [DecidableEq ι] {is : Finset ι} {i : ι} (hi : i ∈ is) {f g : ι → ℕ}
    (h : ∀ j, j ≠ i → g j = f j) : ∑ j ∈ is, g j + f i = ∑ j ∈ is, f j + g i := by
  have he : ∑ j ∈ is.erase i, g j = ∑ j ∈ is.erase i, f j :=
    Finset.sum_congr rfl fun j hj => h j (Finset.ne_of_mem_erase hj)
  rw [← Finset.sum_erase_add is g hi, ← Finset.sum_erase_add is f hi, he]
  omega

section Stored

variable {m m' : PoolMemory A T U}

omit [DecidableEq A] [DecidableEq T] in
theorem stored_congr (h : ∀ a, m'.messages a = m.messages a) : stored as m' = stored as m :=
  Finset.sum_congr rfl fun a _ => by rw [h a]

omit [DecidableEq T] in
theorem stored_update {a : A} (ha : a ∈ as)
    (h : ∀ b, b ≠ a → m'.messages b = m.messages b) :
    stored as m' + (m.messages a).length = stored as m + (m'.messages a).length :=
  sum_update (f := fun a => (m.messages a).length) (g := fun a => (m'.messages a).length) ha
    fun b hb => by rw [h b hb]

theorem stored_pop {a : A} {msg : Message (Body A T U)} (h : m.pop a = some (some msg, m'))
    (ha : a ∈ as) : stored as m = stored as m' + 1 := by
  have e := pop_effect h
  have hsum : stored as m' + _ = stored as m + _ := stored_update ha fun b hb =>
    Memory.messages_congr (e.object_of_not_concerns hb)
  rw [e.messages_pop, List.length_cons] at hsum
  omega

theorem stored_enqueue {a : A} {mid : ℕ} {body : Body A T U}
    (h : m.enqueue a mid body = some (.success, m')) (ha : a ∈ as) :
    stored as m' = stored as m + 1 := by
  obtain ⟨left, e⟩ := Memory.enqueue_effect h
  have hsum : stored as m' + _ = stored as m + _ := stored_update ha fun b hb =>
    Memory.messages_congr (e.object_of_not_concerns hb)
  rcases e.messages_push with ⟨hne, -⟩ | ⟨-, happ⟩
  · exact absurd rfl hne
  · rw [happ, List.length_append, List.length_singleton] at hsum
    omega

theorem stored_destroy (a : A) : stored as (m.touch (.destroy a)) ≤ stored as m := by
  apply Finset.sum_le_sum
  intro b _
  rcases Memory.touch_cases (.destroy a) m with ⟨-, e⟩ | ⟨r, e⟩
  · rw [e]
  · by_cases hb : b = a
    · subst hb
      generalize Memory.touch (.destroy b) m = m₁ at e
      cases e with
      | destroy => rw [Memory.messages_free, if_pos rfl]; exact Nat.zero_le _
    · rw [Memory.messages_congr (e.object_of_not_concerns hb)]

end Stored

omit [DecidableEq A] [DecidableEq T] [Semaphore σ] in
theorem work_of_worker {pc pc' : WorkerPc A T U} (hw : s.worker = pc) (hw' : t.worker = pc')
    (hc : t.client = s.client) (hm : ∀ a, t.memory.messages a = s.memory.messages a)
    (h : pc'.left t.memory as.card < pc.left s.memory as.card) : t.work as ts < s.work as ts := by
  simp only [State.work, hc, hw, hw', stored_congr hm]
  omega

omit [DecidableEq A] [Semaphore σ] in
theorem work_of_client {u : T} {pc pc' : ClientPc A} (hts : u ∈ ts) (hu : s.client u = pc)
    (hc : t.client = Function.update s.client u pc')
    (hw : t.worker.left t.memory as.card ≤ s.worker.left s.memory as.card)
    (h : share as.card * stored as t.memory + pc'.left as.card <
      share as.card * stored as s.memory + pc.left as.card) : t.work as ts < s.work as ts := by
  have hsum := sum_update (f := fun u => (s.client u).left as.card)
    (g := fun u => (t.client u).left as.card) hts fun v hv => by
      simp only [hc, Function.update_of_ne hv]
  simp only [hu, hc, Function.update_self] at hsum
  simp only [State.work, hc]
  omega

end Sums

section Decrease

variable {as : Finset A} {ts : Finset T}

omit [DecidableEq A] [DecidableEq T] [Semaphore σ] in
theorem Label.Inner.pushes (h : x.Inner) : x.Pushes mqControl s := by
  cases x <;> first | exact h.elim | trivial

omit [DecidableEq T] [Semaphore σ] in
theorem PollStep.left_lt {l : Party T} {m m' : PoolMemory A T U} {p p' : PollPc A} {n : ℕ}
    [DecidableEq T] (h : PollStep l m p m' p') {mqs : List A} (hover : p.Over mqs)
    (hn : mqs.length ≤ n) : p'.left n < p.left n := by
  cases h with
  | attach | ready => simp only [PollPc.left, List.length_cons, List.length_nil]; omega
  | wake | look =>
    have hover : _ = mqs := hover
    subst hover
    simp only [PollPc.left]
    omega
  | detach => simp only [PollPc.left, List.length_cons]; omega

theorem Supports.length_le (h : Supports mqControl as ts s) (hl : Listening mqControl capacity s) :
    s.mqs.length ≤ as.card := by
  rw [← List.toFinset_card_of_nodup hl.nodup]
  apply Finset.card_le_card
  intro a ha
  rw [List.mem_toFinset] at ha
  by_cases hc : a = mqControl
  · exact hc ▸ h.control
  · exact h.pooled a (hl.slots.registry.ledger.pooled a (.inl ⟨ha, hc⟩))

theorem Working.left_le (h : Working mqControl capacity s) (hp : x.Pushes mqControl s)
    (hs : Step mqControl s x t) (hw : t.worker = s.worker) (hx : ∀ rec, x ≠ .pop rec) (n : ℕ) :
    t.worker.left t.memory n ≤ s.worker.left s.memory n := by
  rw [hw]
  cases hpc : s.worker with
  | handle rec mqlist =>
    simp only [WorkerPc.left]
    by_cases hfull : Full s.memory rec
    · have hg := h.listening.records rec (by rw [hpc]; exact List.mem_cons_self)
      rw [if_pos hfull, if_pos (hs.full h.listening hp hfull hg fun r e => absurd e (hx r))]
    · rw [if_neg hfull]
      split <;> omega
  | notes mqlist => cases mqlist <;> exact Nat.le_refl _
  | _ => exact Nat.le_refl _

omit [DecidableEq T] [Semaphore σ] in
theorem work_of_pop [DecidableEq T] (hsup : Supports mqControl as ts s)
    {rec : NotificationRec A} {mqlist : List (NotificationRec A)} {a : A}
    {msg : Message (Body A T U)} (hw : s.worker = .handle rec mqlist)
    (hw' : t.worker = .call rec msg mqlist) (hc : t.client = s.client)
    (hm : s.memory.pop a = some (some msg, t.memory)) : t.work as ts < s.work as ts := by
  have hne : s.memory.messages a ≠ [] := by
    rw [(pop_effect hm).messages_pop]
    simp
  simp only [State.work, hc, hw, hw', stored_pop hm (hsup.messages a hne), Nat.mul_add]
  simp only [WorkerPc.left, share]
  split <;> omega

theorem Working.not_full (h : Working mqControl capacity s) {rec : NotificationRec A}
    {mqlist : List (NotificationRec A)} (hw : s.worker = .handle rec mqlist)
    (hnone : ∀ a, rec.mq = some a → ∀ msg m, s.memory.pop a ≠ some (some msg, m)) :
    ¬ Full s.memory rec := by
  rintro ⟨a, ha, hne⟩
  obtain ⟨b, hb, hrb, -⟩ := (h.listening.records rec (by rw [hw]; exact List.mem_cons_self)).mq
  obtain rfl : a = b := Option.some.inj (ha.symm.trans hrb)
  obtain ⟨r, m, hm⟩ := pop_of_alive (h.listening.alive hb)
  cases r with
  | none => exact hne ((h.filled.stamped.pop_eq_none hm).mp rfl)
  | some msg => exact hnone a ha msg m hm

/-- **Every step takes something off**, unless a call begins with it. -/
theorem Working.work_lt (h : Working mqControl capacity s) (hsup : Supports mqControl as ts s)
    (hx : x.Inner) (hs : Step mqControl s x t) : t.work as ts < s.work as ts := by
  have hn := hsup.length_le h.listening
  have hleft := h.left_le hx.pushes hs
  have hthread : ∀ {u : T} {pc : ClientPc A}, s.client u = pc → pc ≠ .idle → u ∈ ts := by
    intro u pc hu hpc
    exact hsup.client u (hu ▸ hpc)
  have hnotes := WorkerPc.left_notes_le (T := T) (U := U) s.memory as.card
  cases hs with
  -- the worker
  | begin hw => exact work_of_worker hw rfl rfl (fun _ => rfl) (PollPc.left_lt _ hn)
  | @poll p p' m hw hpoll =>
    have hover := h.listening.attached.through .worker p (poll?_worker.mpr hw)
    exact work_of_worker hw rfl rfl hpoll.messages (hpoll.left_lt hover hn)
  | @take mqlist hw =>
    refine work_of_worker hw rfl rfl (fun _ => rfl) ?_
    cases mqlist with
    | nil => exact absurd rfl (h.filled.found _ _ hw)
    | cons => simp [WorkerPc.left, PollPc.left]
  | @examine rec mqlist hw =>
    have hmem : rec ∈ s.worker.untouched := by
      rw [hw]
      exact List.mem_cons_self
    refine work_of_worker hw
      (h.listening.examine (s.worker.untouched_sublist.subset hmem) mqlist) rfl (fun _ => rfl) ?_
    simp [WorkerPc.left, h.filled.untouched rec hmem]
  | again hw => exact work_of_worker hw rfl rfl (fun _ => rfl) (Nat.lt_succ_self _)
  | @pop rec mqlist a msg m hw ha hm =>
    exact work_of_pop hsup hw rfl rfl hm
  | @popNothing rec mqlist hw hnone =>
    refine work_of_worker hw rfl rfl (fun _ => rfl) ?_
    refine (hnotes mqlist).trans_lt ?_
    simp [WorkerPc.left, h.not_full hw hnone]
  | @control rec msg mqlist status mqs sem hw =>
    exact work_of_worker hw rfl rfl (fun _ => rfl)
      ((left_afterControl_le _ _ rec mqlist status).trans_lt (Nat.add_lt_add_left (by omega) _))
  | controlAborts hw => exact work_of_worker hw rfl rfl (fun _ => rfl) (by simp [WorkerPc.left])
  | handle hw => exact work_of_worker hw rfl rfl (fun _ => rfl) (Nat.lt_succ_self _)
  | @badCall rec msg mqlist hw =>
    exact work_of_worker hw rfl rfl (fun _ => rfl)
      ((hnotes mqlist).trans_lt (by simp [WorkerPc.left]))
  | @returned rec mqlist o hw =>
    exact work_of_worker hw rfl rfl (fun _ => rfl)
      ((left_afterHandler_le _ _ rec mqlist o).trans_lt (Nat.lt_succ_self _))
  | pause hw => exact work_of_worker hw rfl rfl (fun _ => rfl) (Nat.lt_succ_self _)
  | resume hw => exact work_of_worker hw rfl rfl (fun _ => rfl) (Nat.lt_succ_self _)
  -- the threads
  | @add u mq st m hu hm =>
    obtain rfl := enqueue_success h.listening.slots.registry hm
    refine work_of_client (hthread hu (by simp)) hu rfl (hleft rfl (by simp) _) ?_
    rw [stored_enqueue hm hsup.control, Nat.mul_add]
    simp only [if_true, ClientPc.left]
    omega
  | @remove u mq st m hu hm =>
    obtain rfl := enqueue_success h.listening.slots.registry hm
    refine work_of_client (hthread hu (by simp)) hu rfl (hleft rfl (by simp) _) ?_
    rw [stored_enqueue hm hsup.control, Nat.mul_add]
    simp only [ClientPc.left]
    omega
  | @check u mq hu =>
    refine work_of_client (hthread hu (by simp)) hu rfl (hleft rfl (by simp) _)
      (Nat.add_lt_add_left ?_ _)
    split <;> simp [ClientPc.left]
  | @free u mq hu =>
    exact work_of_client (hthread hu (by simp)) hu rfl (hleft rfl (by simp) _)
      (Nat.add_lt_add_of_le_of_lt (Nat.mul_le_mul_left _ (stored_destroy mq)) Nat.one_pos)
  | allocated hu | removed hu | paused hu | answer hu =>
    exact work_of_client (hthread hu (by simp)) hu rfl (hleft rfl (by simp) _)
      (Nat.add_lt_add_left (Nat.lt_succ_self _) _)
  | beginClient hu =>
    exact work_of_client (hthread hu (by simp)) hu rfl (hleft rfl (by simp) _)
      (Nat.add_lt_add_left (PollPc.left_lt _ hn) _)
  | @pollClient u p p' m hu hpoll =>
    have hover := h.listening.attached.through (.client u) p (poll?_client.mpr hu)
    refine work_of_client (hthread hu (by simp)) hu rfl (hleft rfl (by simp) _) ?_
    rw [stored_congr hpoll.messages]
    exact Nat.add_lt_add_left (hpoll.left_lt hover hn) _
  | polled hu =>
    exact work_of_client (hthread hu (by simp)) hu rfl (hleft rfl (by simp) _)
      (Nat.add_lt_add_left (by simp [ClientPc.left, PollPc.left]) _)
  | refuse | allocate | overflow | delete | isPollIdle | terminate | op => exact hx.elim

end Decrease

end Mqmx.Pool
