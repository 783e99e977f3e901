import Mqmx.Pool.Polling
import Mqmx.Queue.Listens

/-!
# Who listens to the queues of the pool

The queues that have a listener are those that the one poll has passed and not left again,
and the poll knows of those that are not empty: `Attached`.  A record in its list is about a
queue of `_mqs` with that id, says that there is data and nothing else (`Good`), and it stays
so while the worker goes through the list it has taken: `Listening`.
-/

namespace Mqmx.Pool

open Transition (System Run)

variable {A T H U σ : Type}

/-- The record is about a queue of `_mqs`, and says that there is data. -/
structure Good (m : PoolMemory A T U) (mqs : List A) (r : NotificationRec A) : Prop where
  mq : ∃ a ∈ mqs, r.mq = some a ∧ m.qid a = r.qid
  gone : r.flags.has (Flag.closed ||| Flag.detached) = false
  data : r.flags.has Flag.data = true

/-! ### Calls that do no harm -/

def Harmless (mqs : List A) : Op A (Body A T U) (Party T) → Prop
  | .setListener a _ => a ∈ mqs
  | .clearListener _ => True
  | o => Calm mqs o

section Effect

variable [DecidableEq A] [DecidableEq T] {m m' : PoolMemory A T U} {mqs : List A}
  {o : Op A (Body A T U) (Party T)} {r : Op.Reply (Body A T U)}

omit [DecidableEq A] [DecidableEq T] in
theorem Calm.harmless (h : Calm mqs o) : Harmless mqs o := by
  cases o <;> first | exact h | exact h.elim

omit [DecidableEq A] [DecidableEq T] in
theorem Calm.not_releases (h : Calm mqs o) {a : A} (ha : a ∈ mqs) : ¬ Releases a o := by
  cases o with
  | destroy b =>
    rintro rfl
    exact h ha
  | moveConstruct | moveAssign | setListener | clearListener => exact h.elim
  | _ => exact id

omit [DecidableEq A] [DecidableEq T] in
theorem Harmless.not_leaves (h : Harmless mqs o) {a : A} (ha : a ∈ mqs) :
    ¬ Memory.Leaves a o := by
  cases o with
  | destroy b =>
    rintro rfl
    exact h ha
  | moveConstruct | moveAssign => exact h.elim
  | _ => exact id

theorem Harmless.qid (h : Harmless mqs o) (e : Memory.Effect m o r m') {a : A} (ha : a ∈ mqs)
    (halive : ∃ q, m.object a = .alive q) : m'.qid a = m.qid a := by
  obtain ⟨q, hq⟩ := halive
  obtain ⟨p, hp, hid⟩ := e.id hq (h.not_leaves ha)
  rw [Memory.qid_of_alive hp, Memory.qid_of_alive hq, hid]

omit [DecidableEq A] [DecidableEq T] in
theorem Harmless.delivers (h : Harmless mqs o) (hl : ∀ a l, Listens m a l → a ∈ mqs)
    {l : Party T} {i : ℕ} {mq : Option A} {flag : Flags}
    (d : Memory.Delivers m o r l i mq flag) :
    flag = Flag.data ∧ ∃ a ∈ mqs, mq = some a ∧ m.qid a = i := by
  cases d with
  | setListener hq => exact ⟨rfl, _, h, rfl, Memory.qid_of_alive hq⟩
  | push hq hlis => exact ⟨rfl, _, hl _ _ ⟨_, hq, hlis⟩, rfl, Memory.qid_of_alive hq⟩
  | destroy hq hlis => exact absurd (hl _ _ ⟨_, hq, hlis⟩) h
  | moveConstruct | assignOver | assignFrom => exact h.elim

/-- **The records stay good.** -/
theorem Harmless.good (h : Harmless mqs o) (e : Memory.Effect m o r m') (hord : m.Ordered)
    (halive : ∀ a ∈ mqs, ∃ q, m.object a = .alive q) (hl : ∀ a l, Listens m a l → a ∈ mqs)
    {l : Party T} (hg : ∀ rec ∈ m.notifications l, Good m mqs rec) :
    ∀ rec ∈ m'.notifications l, Good m' mqs rec := by
  intro rec hrec
  have hrec' := (mem_iff_record (e.ordered hord l)).mp hrec
  have hdata : Flag.data.has (Flag.closed ||| Flag.detached) = false := by decide
  have moved : ∀ {a}, a ∈ mqs → m'.qid a = m.qid a := fun ha => h.qid e ha (halive _ ha)
  rcases e.stems hord l rec.qid rec hrec' with ⟨r₀, hr₀, hmq, hsub, hsup⟩ |
    ⟨⟨flag, hd, hsub⟩, hsup⟩
  · obtain ⟨hmem, hqid⟩ := record_qid hr₀
    have hr := hg r₀ hmem
    obtain ⟨a, ha, hra, hid⟩ := hr.mq
    refine ⟨⟨a, ha, by rw [hmq, hra], by rw [moved ha, hid, hqid]⟩, ?_, hsub _ hr.data⟩
    rw [← Bool.not_eq_true]
    intro hk
    rcases hsup _ hk with hk | ⟨mq, f, hd, hk⟩
    · rw [hr.gone] at hk
      cases hk
    · rw [(h.delivers hl hd).1, hdata] at hk
      cases hk
  · obtain ⟨rfl, a, ha, hra, hid⟩ := h.delivers hl hd
    refine ⟨⟨a, ha, hra, by rw [moved ha, hid]⟩, ?_, hsub _ (by decide)⟩
    rw [← Bool.not_eq_true]
    intro hk
    obtain ⟨mq, f, hd, hk⟩ := hsup _ hk
    rw [(h.delivers hl hd).1, hdata] at hk
    cases hk

end Effect

/-! ### The invariant -/

structure Attached (m : PoolMemory A T U) (mqs : List A) (poll? : Party T → Option (PollPc A)) :
    Prop where
  through : ∀ l p, poll? l = some p → p.Over mqs
  own : ∀ a l, Listens m a l → ∃ p, poll? l = some p ∧ a ∈ p.attached
  on : ∀ l p, poll? l = some p → ∀ a ∈ p.attached, Listens m a l
  reported : m.Reported
  good : ∀ l p, poll? l = some p → ∀ r ∈ m.notifications l, Good m mqs r

theorem PollPc.Over.attached {mqs : List A} {p : PollPc A} (h : p.Over mqs) :
    ∀ a ∈ p.attached, a ∈ mqs := by
  intro a ha
  cases p with
  | attach set rest => exact h ▸ List.mem_append_left _ ha
  | wait range => exact h ▸ ha
  | detach rest result => exact h.subset ha

theorem Attached.mem {m : PoolMemory A T U} {mqs : List A} {poll? : Party T → Option (PollPc A)}
    (h : Attached m mqs poll?) (a : A) (l : Party T) (hl : Listens m a l) : a ∈ mqs := by
  obtain ⟨p, hp, ha⟩ := h.own a l hl
  exact (h.through l p hp).attached a ha

/-- A poll that waits and was told nothing: there is nothing in the queues. -/
theorem Attached.empty {m : PoolMemory A T U} {mqs : List A}
    {poll? : Party T → Option (PollPc A)} (h : Attached m mqs poll?) {l : Party T}
    {range : List A} (hp : poll? l = some (.wait range)) (hn : m.notifications l = []) :
    ∀ a ∈ mqs, m.messages a = [] := by
  intro a ha
  have hover : range = mqs := h.through l _ hp
  obtain ⟨q, hq, hl⟩ := h.on l _ hp a (hover ▸ ha)
  rw [Memory.messages_of_alive hq]
  -- a message would have been reported
  by_contra hne
  exact (h.reported.told a q l hq hl hne).ne_nil hn

section Moves

variable [DecidableEq T] {m m' : PoolMemory A T U} {mqs : List A}
  {poll? : Party T → Option (PollPc A)} {l : Party T}

theorem ordered_reset (h : m.Ordered) (l : Party T) : (reset l m).Ordered := by
  intro k
  simp only [reset, Function.update_apply]
  split
  · exact ascending_nil
  · exact h k

theorem Attached.begin (h : Attached m mqs poll?) (hnone : ∀ l, poll? l = none) :
    Attached (reset l m) mqs (Function.update poll? l (some (.attach [] mqs))) := by
  have hun : ∀ a l, ¬ Listens m a l := fun a l hl => by
    obtain ⟨p, hp, -⟩ := h.own a l hl
    rw [hnone] at hp
    cases hp
  have honly : ∀ l' p, Function.update poll? l (some (.attach [] mqs)) l' = some p →
      l' = l ∧ p = .attach [] mqs := by
    intro l' p hp
    rw [Function.update_apply, hnone] at hp
    split at hp
    · rename_i e
      exact ⟨e, (Option.some.inj hp).symm⟩
    · cases hp
  refine ⟨?_, fun a l' hl => absurd hl (hun a l'), ?_,
    ⟨ordered_reset h.reported.ordered l, fun a q l' hq hl => absurd ⟨q, hq, hl⟩ (hun a l')⟩, ?_⟩
  · intro l' p hp
    obtain ⟨-, rfl⟩ := honly l' p hp
    rfl
  · intro l' p hp a ha
    obtain ⟨-, rfl⟩ := honly l' p hp
    cases ha
  · intro l' p hp r hr
    obtain ⟨rfl, -⟩ := honly l' p hp
    simp [reset] at hr

variable [DecidableEq A]

theorem Attached.calm (h : Attached m mqs poll?) (halive : ∀ a ∈ mqs, ∃ q, m.object a = .alive q)
    {o : Op A (Body A T U) (Party T)} {r : Op.Reply (Body A T U)} (ho : Calm mqs o)
    (e : Memory.Effect m o r m') : Attached m' mqs poll? := by
  refine ⟨h.through, ?_, ?_, e.reported h.reported,
    fun l p hp => ho.harmless.good e h.reported.ordered halive h.mem (h.good l p hp)⟩
  · intro a l hl
    obtain ⟨q, hq, hl⟩ := hl
    obtain ⟨p, hp, -, ⟨hlis, -⟩ | ⟨rfl, -⟩⟩ := listener_before e hq hl
    · exact h.own a l ⟨p, hp, hlis⟩
    · exact ho.elim
  · intro l p hp a ha
    exact (h.on l p hp a ha).effect e (ho.not_releases ((h.through l p hp).attached a ha))

variable {p p' : PollPc A}

omit [DecidableEq A] in
theorem update_eq_some (hunique : ∀ l' p', poll? l' = some p' → l' = l) {l' : Party T}
    {q : PollPc A} (h : Function.update poll? l (some p') l' = some q) : l' = l ∧ q = p' := by
  rw [Function.update_apply] at h
  split at h
  · rename_i e
    exact ⟨e, (Option.some.inj h).symm⟩
  · rename_i e
    exact absurd (hunique l' q h) e

/-- **A step within the poll.** -/
theorem Attached.step (h : Attached m mqs poll?) (halive : ∀ a ∈ mqs, ∃ q, m.object a = .alive q)
    (hnodup : mqs.Nodup) (hunique : ∀ l' p', poll? l' = some p' → l' = l)
    (hp : poll? l = some p) (hpoll : PollStep l m p m' p') :
    Attached m' mqs (Function.update poll? l (some p')) := by
  have hover := h.through l p hp
  -- what is known of the one poll is known of every poll
  have one : p'.Over mqs → (∀ a l', Listens m' a l' → l' = l ∧ a ∈ p'.attached) →
      (∀ a ∈ p'.attached, Listens m' a l) → m'.Reported →
      (∀ r ∈ m'.notifications l, Good m' mqs r) →
      Attached m' mqs (Function.update poll? l (some p')) := by
    intro hover hown hon hrep hgood
    refine ⟨?_, ?_, ?_, hrep, ?_⟩
    · intro l' q hq
      obtain ⟨-, rfl⟩ := update_eq_some hunique hq
      exact hover
    · intro a l' hl
      obtain ⟨rfl, ha⟩ := hown a l' hl
      exact ⟨p', Function.update_self .., ha⟩
    · intro l' q hq a ha
      obtain ⟨rfl, rfl⟩ := update_eq_some hunique hq
      exact hon a ha
    · intro l' q hq
      obtain ⟨rfl, -⟩ := update_eq_some hunique hq
      exact hgood
  -- before the step the listeners were those of the poll
  have hown : ∀ a l', Listens m a l' → l' = l ∧ a ∈ p.attached := by
    intro a l' hl
    obtain ⟨q, hq, ha⟩ := h.own a l' hl
    obtain rfl := hunique l' q hq
    obtain rfl := Option.some.inj (hq.symm.trans hp)
    exact ⟨rfl, ha⟩
  have hon := h.on l p hp
  have hgood := h.good l p hp
  cases hpoll with
  | @attach a set rest =>
    have hover : set ++ a :: rest = mqs := hover
    have ha : a ∈ mqs := hover ▸ by simp
    obtain ⟨q₀, hq₀⟩ := halive a ha
    have hnotin : a ∉ set := by
      rw [← hover, List.nodup_append] at hnodup
      exact fun hmem => hnodup.2.2 a hmem a (by simp) rfl
    rcases Memory.touch_cases (.setListener a l) m with ⟨hn, -⟩ | ⟨r, e⟩
    · exact absurd hq₀ (Memory.setListener_run_eq_none hn q₀)
    · have hharm : Harmless mqs (.setListener a l : Op A (Body A T U) (Party T)) := ha
      refine one ?_ (fun b l' hl => ?_) (fun b hb => ?_) (e.reported h.reported)
        (hharm.good e h.reported.ordered halive h.mem hgood)
      · show set ++ [a] ++ rest = mqs
        rw [← hover, List.append_assoc]
        rfl
      · obtain ⟨q, hq, hl⟩ := hl
        obtain ⟨p₀, hp₀, -, ⟨hlis, -⟩ | ⟨e', -⟩⟩ := listener_before e hq hl
        · obtain ⟨rfl, hb⟩ := hown b l' ⟨p₀, hp₀, hlis⟩
          exact ⟨rfl, List.mem_append_left _ hb⟩
        · injection e' with e₁ e₂
          subst e₁ e₂
          exact ⟨rfl, by simp [PollPc.attached]⟩
      · rcases List.mem_append.mp hb with hb | hb
        · exact (hon b hb).effect e (by simp [Releases])
        · obtain rfl := List.mem_singleton.mp hb
          generalize Memory.touch (.setListener b l) m = m₁ at e
          cases e with
          | alreadyExist hp₁ hl₁ =>
            obtain ⟨l', hl'⟩ := Option.ne_none_iff_exists'.mp hl₁
            exact absurd (hown b l' ⟨_, hp₁, hl'⟩).2 hnotin
          | setListener => exact ⟨_, Memory.object_write_self .., rfl⟩
  | ready =>
    refine one ?_ hown hon h.reported hgood
    have hover : _ ++ [] = mqs := hover
    rw [List.append_nil] at hover
    exact hover
  | wake =>
    have hover : _ = mqs := hover
    exact one (hover ▸ List.suffix_refl _) hown hon h.reported hgood
  | look =>
    have hover : _ = mqs := hover
    exact one (hover ▸ List.suffix_refl _) hown hon h.reported hgood
  | @detach a rest result =>
    have hover : a :: rest <:+ mqs := hover
    have ha : a ∈ mqs := hover.subset List.mem_cons_self
    obtain ⟨q₀, hq₀⟩ := halive a ha
    have hnotin : a ∉ rest := (List.nodup_cons.mp (hnodup.sublist hover.sublist)).1
    rcases Memory.touch_cases (.clearListener a) m with ⟨hn, -⟩ | ⟨r, e⟩
    · exact absurd hq₀ (Memory.clearListener_run_eq_none hn q₀)
    · have hharm : Harmless mqs (.clearListener a : Op A (Body A T U) (Party T)) := trivial
      refine one ((List.suffix_cons a rest).trans hover) (fun b l' hl => ?_) (fun b hb => ?_)
        (e.reported h.reported) (hharm.good e h.reported.ordered halive h.mem hgood)
      · obtain ⟨q, hq, hl⟩ := hl
        obtain ⟨p₀, hp₀, -, ⟨hlis, hrel⟩ | ⟨e', -⟩⟩ := listener_before e hq hl
        · obtain ⟨rfl, hb⟩ := hown b l' ⟨p₀, hp₀, hlis⟩
          exact ⟨rfl, List.mem_of_ne_of_mem hrel hb⟩
        · cases e'
      · apply (hon b (List.mem_cons_of_mem _ hb)).effect e
        rintro rfl
        exact hnotin hb

omit [DecidableEq A] in
theorem Attached.finish (h : Attached m mqs poll?) {result : List (NotificationRec A)}
    (hunique : ∀ l' p', poll? l' = some p' → l' = l) (hp : poll? l = some (.detach [] result)) :
    Attached m mqs (Function.update poll? l none) := by
  have hnone : ∀ l' q, Function.update poll? l none l' ≠ some q := by
    intro l' q hq
    rw [Function.update_apply] at hq
    split at hq
    · cases hq
    · rename_i e
      exact e (hunique l' q hq)
  refine ⟨fun l' q hq => absurd hq (hnone l' q), ?_, fun l' q hq => absurd hq (hnone l' q),
    h.reported, fun l' q hq => absurd hq (hnone l' q)⟩
  intro a l' hl
  obtain ⟨q, hq, ha⟩ := h.own a l' hl
  obtain rfl := hunique l' q hq
  obtain rfl := Option.some.inj (hq.symm.trans hp)
  cases ha

omit [DecidableEq T] [DecidableEq A] in
theorem Attached.idle (h : Attached m mqs poll?) (hnone : ∀ l, poll? l = none) (mqs' : List A) :
    Attached m mqs' poll? := by
  have hne : ∀ l p, poll? l ≠ some p := fun l p hp => by
    rw [hnone] at hp
    cases hp
  refine ⟨fun l p hp => absurd hp (hne l p), ?_, fun l p hp => absurd hp (hne l p), h.reported,
    fun l p hp => absurd hp (hne l p)⟩
  intro a l hl
  obtain ⟨p, hp, -⟩ := h.own a l hl
  exact absurd hp (hne l p)

end Moves

theorem examine_records {handler : List (Option (Handler H))} {rec r : NotificationRec A}
    {mqlist : List (NotificationRec A)}
    (h : r ∈ (examine handler rec mqlist : WorkerPc A T U).records) : r ∈ rec :: mqlist := by
  rcases examine_cases handler rec mqlist with e | ⟨-, e⟩ | e
  · rw [e] at h
    exact List.mem_cons_of_mem _ h
  · rw [e] at h
    exact h
  · rw [e] at h
    cases h

theorem afterControl_records {rec r : NotificationRec A} {mqlist : List (NotificationRec A)}
    {st : ExitStatus} (h : r ∈ (afterControl rec mqlist st : WorkerPc A T U).records) :
    r ∈ rec :: mqlist := by
  cases st <;> first | exact h | exact List.mem_cons_of_mem _ h | cases h

theorem afterHandler_records {rec r : NotificationRec A} {mqlist : List (NotificationRec A)}
    {o : Outcome} (h : r ∈ (afterHandler rec mqlist o : WorkerPc A T U).records) :
    r ∈ rec :: mqlist := by
  rcases afterHandler_cases rec mqlist o with e | e
  · rw [e] at h
    exact h
  · rw [e] at h
    exact List.mem_cons_of_mem _ h

section Invariant

variable [DecidableEq T] [Semaphore σ]

structure Listening (mqControl : A) (capacity : ℕ) (s : State A T H U σ) : Prop where
  slots : Slots mqControl capacity s
  token : ∃ k, Token s k
  attached : Attached s.memory s.mqs s.poll?
  records : ∀ r ∈ s.worker.records, Good s.memory s.mqs r

variable {mqControl : A} {capacity : ℕ} {s t : State A T H U σ} {x : Label A T H U}

theorem Listening.alive (h : Listening mqControl capacity s) {a : A} (ha : a ∈ s.mqs) :
    ∃ q, s.memory.object a = .alive q := h.slots.registry.alive a (.inl ha)

theorem Listening.nodup (h : Listening mqControl capacity s) : s.mqs.Nodup :=
  h.slots.registry.ledger.nodup

theorem Listening.unique (h : Listening mqControl capacity s) {l : Party T} {p : PollPc A}
    (hp : s.poll? l = some p) (l' : Party T) (p' : PollPc A) (hp' : s.poll? l' = some p') :
    l' = l := by
  obtain ⟨k, hk⟩ := h.token
  exact hk.poll_unique hp' hp

/-- **Where the worker waits and was told nothing, there is nothing.** -/
theorem Listening.blocked (h : Listening mqControl capacity s) {range : List A}
    (hw : s.worker = .poll (.wait range)) (hn : s.memory.notifications .worker = []) :
    ∀ a ∈ s.mqs, s.memory.messages a = [] :=
  h.attached.empty (poll?_worker.mpr hw) hn

/-- **`set_listener` finds no listener there.** -/
theorem Listening.unheard (h : Listening mqControl capacity s) {l : Party T} {set rest : List A}
    {a : A} (hp : s.poll? l = some (.attach set (a :: rest))) : Unheard s.memory a := by
  have hover : set ++ a :: rest = s.mqs := h.attached.through l _ hp
  obtain ⟨q, hq⟩ := h.alive (a := a) (hover ▸ by simp)
  refine ⟨q, hq, ?_⟩
  cases hl : q.listener with
  | none => rfl
  | some l' =>
    exfalso
    obtain ⟨p', hp', ha⟩ := h.attached.own a l' ⟨q, hq, hl⟩
    obtain rfl := h.unique hp l' p' hp'
    obtain rfl := Option.some.inj (hp.symm.trans hp')
    have hnodup := h.nodup
    rw [← hover, List.nodup_append] at hnodup
    exact hnodup.2.2 a ha a (by simp) rfl

variable [DecidableEq A]

theorem Slots.qid (h : Slots mqControl capacity s) (hp : x.Unmoved mqControl s)
    (hs : Step mqControl s x t) {a : A} (ha : a ∈ s.mqs) : t.memory.qid a = s.memory.qid a := by
  obtain ⟨q, hq⟩ := h.registry.alive a (.inl ha)
  rcases hs.memory with e | ⟨l, -, e⟩ | ⟨o, r, hc, e⟩
  · rw [e]
  · rw [e]
    rfl
  · have hl : ¬ Memory.Leaves a o := by
      cases hc with
      | destroy u mq =>
        rintro rfl
        cases hs with
        | free hu =>
          have hmq := h.registry.ledger.placed u
          simp only [State.ledger, hu] at hmq
          exact hmq ha
      | op o r =>
        obtain ⟨⟨hcontrol, hdestroy, -⟩, hmoves⟩ := hp
        by_cases hac : a = mqControl
        · subst hac
          exact fun hl => hcontrol hl.concerns
        · have hpool : s.pooled a = true := h.registry.ledger.pooled a (.inl ⟨ha, hac⟩)
          intro hl
          cases o with
          | moveConstruct | moveAssign => exact hmoves trivial a hpool hl.concerns
          | destroy b =>
            obtain rfl : a = b := hl
            rw [hdestroy a rfl] at hpool
            cases hpool
          | _ => exact hl
      | _ => exact id
    obtain ⟨p, hp, hid⟩ := e.id hq hl
    rw [Memory.qid_of_alive hp, Memory.qid_of_alive hq, hid]

/-- **The worker takes its records from a poll**, and drops them where a queue goes. -/
theorem Step.records (hs : Step mqControl s x t) {r : NotificationRec A}
    (hr : r ∈ t.worker.records) :
    (r ∈ s.worker.records ∨
      ((∃ p, s.poll? .worker = some p ∧ p.Open) ∧ r ∈ s.memory.notifications .worker ∧
        t.memory = s.memory)) ∧
    ∀ a ∈ s.mqs, a ∈ t.mqs := by
  have here : ∀ a ∈ s.mqs, a ∈ s.mqs := fun a ha => ha
  cases hs with
  | begin | again | controlAborts | pause | resume => cases hr
  | poll hw hpoll =>
    cases hpoll with
    | attach | ready => cases hr
    | wake | look =>
      exact ⟨.inr ⟨⟨_, poll?_worker.mpr hw, by trivial⟩, hr, rfl⟩, here⟩
    | detach => exact ⟨.inl (by rw [hw]; exact hr), here⟩
  | take hw | pop hw | handle hw => exact ⟨.inl (by rw [hw]; exact hr), here⟩
  | popNothing hw | badCall hw =>
    exact ⟨.inl (by rw [hw]; exact List.mem_cons_of_mem _ hr), here⟩
  | examine hw => exact ⟨.inl (by rw [hw]; exact examine_records hr), here⟩
  | returned o hw => exact ⟨.inl (by rw [hw]; exact afterHandler_records hr), here⟩
  | control hw _ hc =>
    refine ⟨.inl (by rw [hw]; exact afterControl_records hr), ?_⟩
    intro a ha
    rcases controlQueueHandler_cases hc with ⟨rfl, -⟩ | ⟨b, u, -, hins, -, -⟩ |
      ⟨b, u, -, -, -, rfl⟩
    · exact ha
    · exact (insertQueue_perm hins).mem_iff.mpr (List.mem_cons_of_mem _ ha)
    · cases hr
  | _ => exact ⟨.inl hr, here⟩

theorem Listening.step (h : Listening mqControl capacity s) (hp : x.Pushes mqControl s)
    (hs : Step mqControl s x t) : Listening mqControl capacity t where
  slots := h.slots.step hp hs
  token := by
    obtain ⟨k, hk⟩ := h.token
    exact hk.step hs
  attached := by
    obtain ⟨k, hk⟩ := h.token
    have halive : ∀ a ∈ s.mqs, ∃ q, s.memory.object a = .alive q := fun a ha => h.alive ha
    cases hs.pollMove h.slots hk hp with
    | begin l hnone hpoll hm hmqs =>
      rw [hpoll, hm, hmqs]
      exact h.attached.begin hnone
    | step l p p' hl hpoll hstep hmqs =>
      rw [hpoll, hmqs]
      exact h.attached.step halive h.nodup (h.unique hl) hl hstep
    | finish l result hl hpoll hm hmqs =>
      rw [hpoll, hm, hmqs]
      exact h.attached.finish (h.unique hl) hl
    | calm hpoll hmqs hm =>
      rw [hpoll, hmqs]
      rcases hm with hm | ⟨o, r, ho, e⟩
      · rw [hm]
        exact h.attached
      · exact h.attached.calm halive ho e
    | control hpoll hhand hm =>
      rw [hpoll, hm]
      exact h.attached.idle (hk.poll?_of_hand hhand) _
  records := by
    intro r hr
    obtain ⟨hr', hmqs⟩ := hs.records hr
    have hgood : Good s.memory s.mqs r := by
      rcases hr' with hr' | ⟨⟨p, hp, -⟩, hr', -⟩
      · exact h.records r hr'
      · exact h.attached.good .worker p hp r hr'
    obtain ⟨a, ha, hra, hid⟩ := hgood.mq
    exact ⟨⟨a, hmqs a ha, hra, by rw [h.slots.qid hp.unmoved hs ha, hid]⟩, hgood.gone, hgood.data⟩

theorem listening_initial (mqControl : A) (capacity : ℕ) :
    Listening mqControl capacity (.initial mqControl capacity : State A T H U σ) where
  slots := slots_initial mqControl capacity
  token := ⟨_, token_initial mqControl capacity⟩
  attached := by
    have hnone : ∀ l, (State.initial mqControl capacity : State A T H U σ).poll? l = none := by
      intro l
      cases l <;> rfl
    have hun : ∀ a l,
        ¬ Listens (State.initial mqControl capacity : State A T H U σ).memory a l := by
      rintro a l ⟨q, hq, hl⟩
      simp only [State.initial] at hq
      split at hq
      · cases hq
        cases hl
      · cases hq
    refine ⟨fun l p hp => ?_, fun a l hl => absurd hl (hun a l), fun l p hp => ?_,
      ⟨fun l => ascending_nil, fun a q l hq hl => absurd ⟨q, hq, hl⟩ (hun a l)⟩,
      fun l p hp => ?_⟩
    all_goals
      rw [hnone] at hp
      cases hp
  records := by
    intro r hr
    cases hr

theorem listening_run {ls : List (Label A T H U)}
    (hr : Run (pushing mqControl capacity) (.initial mqControl capacity) ls s) :
    Listening mqControl capacity s :=
  hr.invariant (S := pushing mqControl capacity) (P := Listening mqControl capacity)
    (fun _ _ _ h hs => h.step hs.1 hs.2) (listening_initial mqControl capacity)

end Invariant

end Mqmx.Pool
