import Mqmx.Pool.Delivery
import Mqmx.Queue.Conservation

/-!
# Records of queues that are not empty

A poll hears of a queue when there is something in it, and only the worker takes anything out
of a queue.  It does so when it is at a record, with the queue of that record, and nobody polls
then.  So a record that a poll has in its list, or that the worker has not come to yet, is about
a queue that is not empty: `Filled`.
-/

namespace Mqmx

variable {A β L : Type}

/-! ### One operation -/

section Effect

variable [DecidableEq A] [DecidableEq L] {m m' : Memory A β L} {op : Op A β L} {r : Op.Reply β}

/-- **Only a `pop` from it empties a queue** that stays where it is. -/
theorem Memory.Effect.messages_ne_nil (e : Memory.Effect m op r m') {a : A}
    (h : m.messages a ≠ []) (hpop : op ≠ .pop a) (hl : ¬ Memory.Leaves a op) :
    m'.messages a ≠ [] := by
  by_cases hc : Memory.Concerns a op
  · cases e with
    | construct hn =>
      obtain rfl : a = _ := hc
      exact absurd (Memory.messages_of_unborn hn) h
    | moveConstruct _ hn =>
      rcases hc with rfl | rfl
      · exact absurd (Memory.messages_of_unborn hn) h
      · exact absurd rfl hl
    | selfAssign | refuse | popNothing | alreadyExist => exact h
    | moveAssign hne => exact absurd ⟨hne, hc⟩ hl
    | destroy => exact absurd hc hl
    | push =>
      obtain rfl : a = _ := hc
      rw [Memory.messages_write, if_pos rfl]
      simp
    | pop =>
      obtain rfl : a = _ := hc
      exact absurd rfl hpop
    | setListener hq | clearListener hq =>
      obtain rfl : a = _ := hc
      rw [Memory.messages_of_alive hq] at h
      rwa [Memory.messages_write, if_pos rfl]
  · rwa [Memory.messages_congr (e.object_of_not_concerns hc)]

/-- **Who is told of data is told of a queue that has some.** -/
theorem Memory.Effect.messages_of_delivers (e : Memory.Effect m op r m') {l : L} {i : ℕ}
    {mq : Option A} (d : Memory.Delivers m op r l i mq Flag.data) :
    ∃ a, mq = some a ∧ m'.messages a ≠ [] := by
  generalize hf : Flag.data = flag at d
  cases d with
  | @setListener a _ q hq _ hne =>
    refine ⟨a, rfl, ?_⟩
    rw [e.messages_setListener, Memory.messages_of_alive hq]
    exact hne
  | @push a _ q x hq =>
    refine ⟨a, rfl, ?_⟩
    rcases e.messages_push with ⟨hst, -⟩ | ⟨-, hm⟩
    · exact absurd rfl hst
    · rw [hm]
      simp
  | moveConstruct | assignOver | assignFrom | destroy => exact absurd hf (by decide)

end Effect

namespace Pool

open Transition (System Run)

variable {A T H U σ : Type}

/-- The queue of the record is not empty. -/
def Full (m : PoolMemory A T U) (r : NotificationRec A) : Prop :=
  ∃ a, r.mq = some a ∧ m.messages a ≠ []

/-- The records the worker has not come to. -/
def WorkerPc.untouched : WorkerPc A T U → List (NotificationRec A)
  | .poll p => p.result
  | .notes mqlist => mqlist
  | .handle _ mqlist => mqlist
  | .call _ _ mqlist => mqlist
  | .inHandler _ mqlist => mqlist
  | _ => []

theorem WorkerPc.untouched_sublist (pc : WorkerPc A T U) : pc.untouched.Sublist pc.records := by
  cases pc with
  | handle | call | inHandler => exact List.sublist_cons_self _ _
  | _ => exact List.Sublist.refl _

section Places

variable {rec : NotificationRec A} {mqlist : List (NotificationRec A)}

theorem examine_untouched (handler : List (Option (Handler H))) :
    (examine handler rec mqlist : WorkerPc A T U).untouched.Sublist mqlist := by
  rcases examine_cases (A := A) (T := T) (U := U) handler rec mqlist with e | ⟨-, e⟩ | e
  · rw [e]
    exact List.Sublist.refl _
  · rw [e]
    exact List.Sublist.refl _
  · rw [e]
    exact List.nil_sublist _

theorem afterControl_untouched (st : ExitStatus) :
    (afterControl rec mqlist st : WorkerPc A T U).untouched.Sublist mqlist := by
  cases st <;> first | exact List.Sublist.refl _ | exact List.nil_sublist _

theorem afterHandler_untouched (o : Outcome) :
    (afterHandler rec mqlist o : WorkerPc A T U).untouched.Sublist mqlist := by
  rcases afterHandler_cases (A := A) (T := T) (U := U) rec mqlist o with e | e
  · rw [e]
    exact List.Sublist.refl _
  · rw [e]
    exact List.Sublist.refl _

end Places

variable [DecidableEq A] [DecidableEq T] [Semaphore σ] {mqControl : A} {capacity : ℕ}
  {s t : State A T H U σ} {x : Label A T H U}

/-! ### Where the records of the worker come from -/

structure Drops (s t : State A T H U σ) : Prop where
  records : t.worker.records.Sublist s.worker.records
  untouched : t.worker.untouched.Sublist s.worker.untouched
  result : ∀ rest result, t.worker = .poll (.detach rest result) →
    ∃ rest', s.worker = .poll (.detach rest' result)

/-- The worker takes its list. -/
structure Takes (s t : State A T H U σ) : Prop where
  before : ∃ range, s.worker = .poll (.wait range)
  after : ∃ range, t.worker = .poll (.detach range (s.memory.notifications .worker))
  told : s.memory.notifications .worker ≠ []
  memory : t.memory = s.memory

omit [DecidableEq A] [DecidableEq T] [Semaphore σ] in
theorem Drops.refl (hw : t.worker = s.worker) : Drops s t :=
  ⟨by rw [hw], by rw [hw], fun rest _ h => ⟨rest, hw ▸ h⟩⟩

omit [DecidableEq A] [DecidableEq T] [Semaphore σ] in
theorem Drops.of_worker {pc pc' : WorkerPc A T U} (hw : s.worker = pc) (hw' : t.worker = pc')
    (hr : pc'.records.Sublist pc.records) (hu : pc'.untouched.Sublist pc.untouched)
    (hp : pc'.poll? = none) : Drops s t := by
  refine ⟨by rw [hw, hw']; exact hr, by rw [hw, hw']; exact hu, ?_⟩
  intro rest result h
  rw [← hw', h] at hp
  cases hp

/-- **The worker takes its records from a poll**, one list at a time. -/
theorem Step.drops (hs : Step mqControl s x t) : Drops s t ∨ Takes s t := by
  cases hs with
  | begin hw =>
    refine .inl ⟨List.nil_sublist _, List.nil_sublist _, ?_⟩
    intro rest result h
    cases h
  | poll hw hpoll =>
    cases hpoll with
    | attach | ready =>
      refine .inl ⟨List.nil_sublist _, List.nil_sublist _, ?_⟩
      intro rest result h
      cases h
    | wake _ hne => exact .inr ⟨⟨_, hw⟩, ⟨_, rfl⟩, hne, rfl⟩
    | look hne => exact absurd rfl hne
    | detach =>
      refine .inl ⟨by rw [hw]; exact List.Sublist.refl _, by rw [hw]; exact List.Sublist.refl _, ?_⟩
      intro rest result h
      cases h
      exact ⟨_, hw⟩
  | take hw => exact .inl (.of_worker hw rfl (List.Sublist.refl _) (List.Sublist.refl _) rfl)
  | @examine rec mqlist hw =>
    refine .inl (.of_worker hw rfl ?_ ((examine_untouched _).trans (List.sublist_cons_self ..))
      (by simp))
    rcases examine_cases (A := A) (T := T) (U := U) s.handler rec mqlist with e | ⟨-, e⟩ | e
    · rw [e]
      exact List.sublist_cons_self _ _
    · rw [e]
      exact List.Sublist.refl _
    · rw [e]
      exact List.nil_sublist _
  | again hw | controlAborts hw | pause hw | resume hw =>
    exact .inl (.of_worker hw rfl (List.nil_sublist _) (List.nil_sublist _) rfl)
  | pop hw | handle hw =>
    exact .inl (.of_worker hw rfl (List.Sublist.refl _) (List.Sublist.refl _) rfl)
  | popNothing hw | badCall hw =>
    exact .inl (.of_worker hw rfl (List.sublist_cons_self _ _) (List.Sublist.refl _) rfl)
  | @control rec msg mqlist st mqs sem hw =>
    refine .inl (.of_worker hw rfl ?_ (afterControl_untouched st) (by simp))
    cases st <;>
      first | exact List.Sublist.refl _ | exact List.sublist_cons_self _ _ |
        exact List.nil_sublist _
  | @returned rec mqlist o hw =>
    refine .inl (.of_worker hw rfl ?_ (afterHandler_untouched o) (by simp))
    rcases afterHandler_cases (A := A) (T := T) (U := U) rec mqlist o with e | e
    · rw [e]
      exact List.Sublist.refl _
    · rw [e]
      exact List.sublist_cons_self _ _
  | _ => exact .inl (.refl rfl)

/-! ### What the polls are told -/

theorem Step.handles {rec : NotificationRec A} (hs : Step mqControl s (.pop rec) t) :
    ∃ mqlist, s.worker = .handle rec mqlist := by
  cases hs with
  | pop hw | popNothing hw => exact ⟨_, hw⟩

omit [DecidableEq A] in
theorem Token.poll?_of_worker {k : Turn T} (h : Token s k) (hw : s.worker ≠ .parked)
    (hp : s.worker.poll? = none) (l : Party T) : s.poll? l = none := by
  have hk : k = Party.turn .worker := by
    by_contra hne
    exact hw (h.worker.mpr hne)
  exact h.poll?_eq_none hk hp l

theorem Listening.poll?_of_pop (h : Listening mqControl capacity s) {rec : NotificationRec A}
    (hs : Step mqControl s (.pop rec) t) (l : Party T) : s.poll? l = none := by
  obtain ⟨k, hk⟩ := h.token
  obtain ⟨mqlist, hw⟩ := hs.handles
  exact hk.poll?_of_worker (by rw [hw]; simp) (by rw [hw]; rfl) l

theorem Slots.not_leaves (h : Slots mqControl capacity s) (hp : x.Pushes mqControl s)
    (hs : Step mqControl s x t) {o : Op A (Body A T U) (Party T)} (hc : Calls mqControl x o)
    {a : A} (ha : a ∈ s.mqs) : ¬ Memory.Leaves a o := by
  cases hc with
  | destroy u mq =>
    rintro rfl
    cases hs with
    | free hu =>
      have hmq := h.registry.ledger.placed u
      simp only [State.ledger, hu] at hmq
      exact hmq ha
  | op o r =>
    obtain ⟨b, msg, rfl, -, -⟩ := hp
    exact id
  | _ => exact id

theorem Listening.delivers (h : Listening mqControl capacity s) (hp : x.Pushes mqControl s)
    (hs : Step mqControl s x t) {o : Op A (Body A T U) (Party T)} {r : Op.Reply (Body A T U)}
    (hc : Calls mqControl x o) {l : Party T} {i : ℕ} {mq : Option A} {flag : Flags}
    (d : Memory.Delivers s.memory o r l i mq flag) : flag = Flag.data := by
  have hstay : ∀ a, Listens s.memory a l → ¬ Memory.Leaves a o := fun a hl =>
    h.slots.not_leaves hp hs hc (h.attached.mem a l hl)
  cases d with
  | setListener | push => rfl
  | destroy hq hl => exact absurd rfl (hstay _ ⟨_, hq, hl⟩)
  | moveConstruct hq hl => exact absurd rfl (hstay _ ⟨_, hq, hl⟩)
  | assignOver hne hq hl => exact absurd ⟨hne, .inl rfl⟩ (hstay _ ⟨_, hq, hl⟩)
  | assignFrom hne hq hl => exact absurd ⟨hne, .inr rfl⟩ (hstay _ ⟨_, hq, hl⟩)

omit [Semaphore σ] in
theorem PollMove.open (hm : PollMove s t) (hunique : ∀ l p, s.poll? l = some p →
    ∀ l' p', s.poll? l' = some p' → l' = l) {l : Party T} {p : PollPc A}
    (hp : t.poll? l = some p) (ho : p.Open) :
    t.memory.notifications l = [] ∨ ∃ p', s.poll? l = some p' ∧ p'.Open := by
  cases hm with
  | begin k hnone hpoll hmem =>
    rw [hpoll, Function.update_apply, hnone] at hp
    split at hp
    · rename_i e
      subst e
      left
      rw [hmem]
      simp [reset]
    · cases hp
  | step k q q' hk hpoll hstep =>
    rw [hpoll] at hp
    obtain ⟨rfl, rfl⟩ := update_eq_some (hunique k q hk) hp
    refine .inr ⟨q, hk, ?_⟩
    generalize t.memory = m at hstep
    cases hstep with
    | attach | ready => trivial
    | wake | look | detach => exact ho.elim
  | finish k result hk hpoll =>
    rw [hpoll, Function.update_apply] at hp
    split at hp
    · cases hp
    · exact .inr ⟨p, hp, ho⟩
  | calm hpoll | control hpoll =>
    rw [hpoll] at hp
    exact .inr ⟨p, hp, ho⟩

/-- A queue of the list that is not empty stays so until it is popped. -/
theorem Slots.messages_stay (h : Slots mqControl capacity s) (hp : x.Pushes mqControl s)
    (hs : Step mqControl s x t) {a : A} (ha : a ∈ s.mqs) (hne : s.memory.messages a ≠ [])
    (hpop : ∀ rec, x = .pop rec → rec.mq ≠ some a) : t.memory.messages a ≠ [] := by
  rcases hs.memory with e | ⟨l, -, e⟩ | ⟨o, r, hc, e⟩
  · rwa [e]
  · rw [e]
    exact hne
  · refine e.messages_ne_nil hne ?_ (h.not_leaves hp hs hc ha)
    rintro rfl
    cases hc with
    | pop hrec => exact hpop _ rfl hrec
    | op o r =>
      obtain ⟨c, msg, ho, -⟩ := hp
      cases ho

theorem Step.full (h : Listening mqControl capacity s) (hp : x.Pushes mqControl s)
    (hs : Step mqControl s x t) {r : NotificationRec A} (hr : Full s.memory r)
    (hg : Good s.memory s.mqs r) (hpop : ∀ rec, x = .pop rec → rec.mq ≠ r.mq) :
    Full t.memory r := by
  obtain ⟨a, hra, hne⟩ := hr
  obtain ⟨b, hb, hrb, -⟩ := hg.mq
  obtain rfl : a = b := Option.some.inj (hra.symm.trans hrb)
  exact ⟨a, hra, h.slots.messages_stay hp hs hb hne fun rec e => hra ▸ hpop rec e⟩

/-! ### The invariant -/

structure Filled (mqControl : A) (capacity : ℕ) (s : State A T H U σ) : Prop where
  listening : Listening mqControl capacity s
  /-- A poll was told of queues that are not empty, -/
  told : ∀ l p, s.poll? l = some p → p.Open →
    ∀ r ∈ s.memory.notifications l, Full s.memory r
  /-- and so are the queues that the worker has not come to. -/
  untouched : ∀ r ∈ s.worker.untouched, Full s.memory r
  ascending : Ascending s.worker.records
  found : ∀ rest result, s.worker = .poll (.detach rest result) → result ≠ []
  stamped : s.memory.Stamped

theorem Filled.told_step (h : Filled mqControl capacity s) (hp : x.Pushes mqControl s)
    (hs : Step mqControl s x t) (l : Party T) (p : PollPc A) (hl : t.poll? l = some p)
    (ho : p.Open) : ∀ r ∈ t.memory.notifications l, Full t.memory r := by
  have hlis := h.listening
  obtain ⟨k, hk⟩ := hlis.token
  intro r hr
  rcases (hs.pollMove hlis.slots hk hp).open (fun _ _ hp' => hlis.unique hp') hl ho with
    hnil | ⟨p', hp', ho'⟩
  · rw [hnil] at hr
    cases hr
  have hpop : ∀ rec, x ≠ .pop rec := by
    rintro rec rfl
    rw [hlis.poll?_of_pop hs] at hp'
    cases hp'
  -- what the list had is as full as it was
  have old : ∀ r₀ ∈ s.memory.notifications l, Full t.memory r₀ := fun r₀ h₀ =>
    hs.full hlis hp (h.told l p' hp' ho' r₀ h₀) (hlis.attached.good l p' hp' r₀ h₀)
      fun rec e => absurd e (hpop rec)
  rcases hs.memory with e | ⟨l', -, e⟩ | ⟨o, reply, hc, e⟩
  · exact old r (e ▸ hr)
  · rw [e] at hr
    simp only [reset, Function.update_apply] at hr
    split at hr
    · cases hr
    · exact old r hr
  · have hord := hlis.attached.reported.ordered
    have hr' := (mem_iff_record (e.ordered hord l)).mp hr
    rcases e.stems hord l r.qid r hr' with ⟨r₀, hr₀, hmq, -⟩ | ⟨⟨flag, hd, -⟩, -⟩
    · obtain ⟨a, ha, hne⟩ := old r₀ (record_qid hr₀).1
      exact ⟨a, hmq.trans ha, hne⟩
    · obtain rfl := hlis.delivers hp hs hc hd
      exact e.messages_of_delivers hd

omit [DecidableEq A] in
theorem Filled.other (h : Filled mqControl capacity s) {rec r : NotificationRec A}
    {mqlist : List (NotificationRec A)} (hw : s.worker.records = rec :: mqlist)
    (hr : r ∈ mqlist) : rec.mq ≠ r.mq := by
  intro e
  have hlt : rec.qid < r.qid := by
    have hasc := h.ascending
    rw [hw] at hasc
    exact (List.pairwise_cons.mp hasc).1 r hr
  obtain ⟨a, -, ha, hid⟩ := (h.listening.records rec (by rw [hw]; simp)).mq
  obtain ⟨b, -, hb, hid'⟩ := (h.listening.records r (by rw [hw]; simp [hr])).mq
  obtain rfl : a = b := Option.some.inj (ha.symm.trans (e.trans hb))
  omega

theorem Filled.untouched_step (h : Filled mqControl capacity s) (hp : x.Pushes mqControl s)
    (hs : Step mqControl s x t) : ∀ r ∈ t.worker.untouched, Full t.memory r := by
  intro r hr
  rcases hs.drops with hd | ⟨⟨range, hw⟩, ⟨range', hw'⟩, -, hm⟩
  · have hmem := hd.untouched.subset hr
    refine hs.full h.listening hp (h.untouched r hmem)
      (h.listening.records r (s.worker.untouched_sublist.subset hmem)) ?_
    rintro rec rfl
    obtain ⟨mqlist, hw⟩ := hs.handles
    rw [hw] at hmem
    exact h.other (by rw [hw]; rfl) hmem
  · rw [hw'] at hr
    rw [hm]
    exact h.told .worker _ (poll?_worker.mpr hw) trivial r hr

theorem Filled.step (h : Filled mqControl capacity s) (hp : x.Pushes mqControl s)
    (hs : Step mqControl s x t) : Filled mqControl capacity t where
  listening := h.listening.step hp hs
  told := h.told_step hp hs
  untouched := h.untouched_step hp hs
  ascending := by
    rcases hs.drops with hd | ⟨-, ⟨range, hw⟩, -, -⟩
    · exact h.ascending.sublist hd.records
    · rw [hw]
      exact h.listening.attached.reported.ordered .worker
  found := by
    intro rest result hw
    rcases hs.drops with hd | ⟨-, ⟨range, hw'⟩, hne, -⟩
    · obtain ⟨rest', hw'⟩ := hd.result rest result hw
      exact h.found rest' result hw'
    · rw [hw'] at hw
      cases hw
      exact hne
  stamped := by
    rcases hs.memory with e | ⟨l, -, e⟩ | ⟨o, r, -, e⟩
    · rw [e]
      exact h.stamped
    · exact h.stamped.congr (by rw [e]; rfl)
    · exact e.stamped h.stamped

theorem filled_initial (mqControl : A) (capacity : ℕ) :
    Filled mqControl capacity (.initial mqControl capacity : State A T H U σ) where
  listening := listening_initial mqControl capacity
  told := by
    intro l p hp
    cases l <;> cases hp
  untouched := by
    intro r hr
    cases hr
  ascending := ascending_nil
  found := by
    intro rest result hw
    cases hw
  stamped := by
    refine ⟨?_, ?_⟩ <;>
    · intro a q hq
      simp only [State.initial] at hq
      split at hq <;> cases hq
      simp

theorem filled_run {ls : List (Label A T H U)}
    (hr : Run (pushing mqControl capacity) (.initial mqControl capacity) ls s) :
    Filled mqControl capacity s :=
  hr.invariant (S := pushing mqControl capacity) (P := Filled mqControl capacity)
    (fun _ _ _ h hs => h.step hs.1 hs.2) (filled_initial mqControl capacity)

/-! ### The answer `false` -/

/-- There is something in a queue of `_mqs`. -/
def State.Busy (s : State A T H U σ) : Prop := ∃ a ∈ s.mqs, s.memory.messages a ≠ []

/-- In `is_poll_idle`, with `false` for an answer. -/
def ClientPc.Doubts : ClientPc A → Prop
  | .poll (.detach _ result) => result ≠ []
  | .polled idleStatus => idleStatus = false
  | _ => False

omit [DecidableEq A] in
theorem ClientPc.Doubts.inSection {pc : ClientPc A} (h : pc.Doubts) : pc.InSection := by
  cases pc with
  | poll | polled => trivial
  | _ => exact h.elim

theorem Listening.busy_step (h : Listening mqControl capacity s) (hp : x.Pushes mqControl s)
    (hs : Step mqControl s x t) (hw : s.worker = .parked) (hb : s.Busy) : t.Busy := by
  obtain ⟨a, ha, hne⟩ := hb
  have hmqs : t.mqs = s.mqs := by
    cases hs with
    | control hw' => rw [hw] at hw'; cases hw'
    | _ => rfl
  refine ⟨a, hmqs ▸ ha, h.slots.messages_stay hp hs ha hne ?_⟩
  rintro rec rfl
  obtain ⟨mqlist, hw'⟩ := hs.handles
  rw [hw] at hw'
  cases hw'

/-- A thread that gets `false` for an answer has looked, and was told of something. -/
theorem Step.doubts (hs : Step mqControl s x t) {u : T} (hu : (t.client u).Doubts) :
    (s.client u).Doubts ∨ ∃ range, s.client u = .poll (.wait range) ∧
      s.memory.notifications (.client u) ≠ [] ∧ t.memory = s.memory ∧ t.mqs = s.mqs := by
  have goes : ∀ {v : T} {pc : ClientPc A}, t.client = Function.update s.client v pc →
      (u = v → pc.Doubts → (s.client v).Doubts ∨ ∃ range, s.client v = .poll (.wait range) ∧
        s.memory.notifications (.client v) ≠ [] ∧ t.memory = s.memory ∧ t.mqs = s.mqs) →
      (s.client u).Doubts ∨ ∃ range, s.client u = .poll (.wait range) ∧
        s.memory.notifications (.client u) ≠ [] ∧ t.memory = s.memory ∧ t.mqs = s.mqs := by
    intro v pc e hpc
    by_cases huv : u = v
    · subst huv
      rw [e, Function.update_self] at hu
      exact hpc rfl hu
    · rw [e, Function.update_of_ne huv] at hu
      exact .inl hu
  cases hs with
  | allocate | overflow | allocated | delete => exact goes rfl fun _ h => h.elim
  | remove | removed | free | isPollIdle => exact goes rfl fun _ h => h.elim
  | paused | beginClient | answer => exact goes rfl fun _ h => h.elim
  | add | check => exact goes rfl fun _ h => by split at h <;> exact h.elim
  | @pollClient v p p' m hv hpoll =>
    refine goes rfl fun _ h => ?_
    cases hpoll with
    | attach | ready => exact h.elim
    | wake hl => cases hl
    | look => exact .inr ⟨_, hv, h, rfl, rfl⟩
    | detach => rw [hv]; exact .inl h
  | polled hv =>
    refine goes rfl fun _ h => .inl ?_
    rw [hv]
    intro hnil
    rw [hnil] at h
    cases h
  | _ => exact .inl hu

/-- **A thread that has `false` for an answer is right until it has given it.** -/
theorem busy_run {ls : List (Label A T H U)}
    (hr : Run (pushing mqControl capacity) (.initial mqControl capacity) ls s) :
    ∀ u, (s.client u).Doubts → s.Busy := by
  refine (hr.invariant (S := pushing mqControl capacity)
    (P := fun s => Filled mqControl capacity s ∧ ∀ u, (s.client u).Doubts → s.Busy) ?_
    ⟨filled_initial mqControl capacity, fun u hu => hu.elim⟩).2
  rintro s x t ⟨h, hb⟩ ⟨hp, hs⟩
  refine ⟨h.step hp hs, fun u hu => ?_⟩
  rcases hs.doubts hu with hu' | ⟨range, hpc, hne, hm, hmqs⟩
  · obtain ⟨k, hk⟩ := h.listening.token
    have hw : s.worker = .parked := by
      rw [hk.worker, hk.of_inSection hu'.inSection]
      simp
    exact h.listening.busy_step hp hs hw (hb u hu')
  · -- what it was told of is not empty
    obtain ⟨r, hr⟩ := List.exists_mem_of_ne_nil _ hne
    have hpoll := poll?_client.mpr hpc
    obtain ⟨a, ha, hfull⟩ := h.told _ _ hpoll trivial r hr
    obtain ⟨b, hb, hrb, -⟩ := (h.listening.attached.good _ _ hpoll r hr).mq
    obtain rfl : a = b := Option.some.inj (ha.symm.trans hrb)
    exact ⟨a, hmqs ▸ hb, by rwa [hm]⟩

/-- **Where `is_poll_idle` returns `false`** the worker is parked and there is something in a
queue of `_mqs`, until it returns. -/
theorem idle_false {ls : List (Label A T H U)} {u : T}
    (hr : Run (pushing mqControl capacity) (.initial mqControl capacity)
      (ls ++ [.answer u false]) t) :
    ∃ s, (pushing mqControl capacity).step s (.answer u false) t ∧ s.worker = .parked ∧
      s.Busy := by
  obtain ⟨s, hls, hlast⟩ := Transition.Run.append_iff.mp hr
  obtain ⟨t', hx, ht⟩ := Transition.Run.cons_iff.mp hlast
  obtain rfl := Transition.Run.nil_iff.mp ht
  have hu : s.client u = .polled false := by
    obtain ⟨-, hx⟩ := hx
    cases hx with
    | answer hu => exact hu
  have hd : (s.client u).Doubts := by
    rw [hu]
    rfl
  obtain ⟨k, hk⟩ := (filled_run hls).listening.token
  refine ⟨s, hx, ?_, busy_run hls u hd⟩
  rw [hk.worker, hk.of_inSection hd.inSection]
  simp

/-- The destructor has sent its message in the meantime. -/
theorem idle_false_one : ∃ s t : State ℕ Unit Unit Unit ℕ,
    (pushing 0 1).step s (.answer () false) t ∧ s.worker = .parked ∧ s.Busy := by
  have hpoll : Run (system 0 1) (onePaused 1).1
      [.terminate, .begin (.client ()), .poll (.client ()), .poll (.client ()),
        .poll (.client ()), .poll (.client ()), .polled (), .answer () false] _ :=
    .cons (.terminate rfl)
      (.cons (.beginClient rfl)
      (.cons (.pollClient rfl .attach)
      (.cons (.pollClient rfl .ready)
      (.cons (.pollClient rfl (.look (by decide)))
      (.cons (.pollClient rfl .detach)
      (.cons (.polled rfl)
      (.single (.answer rfl))))))))
  have hrun : Run (pushing 0 1) one ((pausing 1 ++ [.terminate, .begin (.client ()),
      .poll (.client ()), .poll (.client ()), .poll (.client ()), .poll (.client ()),
      .polled ()]) ++ [.answer () false]) _ :=
    ((onePaused 1).2.append hpoll).of_labels (by simp [pausing, taking, Label.Pushes])
  obtain ⟨s, hs, hw, hb⟩ := idle_false hrun
  exact ⟨s, _, hs, hw, hb⟩

end Pool

end Mqmx
