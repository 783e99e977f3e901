import Mathlib.Tactic.Push
import Mqmx.Queue.Listener

/-!
# What the operations do to the memory

Every member function of a queue writes one or two objects and delivers what it has to
tell.  The lemmas `push_cases`, `pop_cases`, `setListener_cases`, `moveAssign_cases` and
so on say which, once for each function; nothing later unfolds one.  `Effect` has them
all, with the frame `Effect.object_of_not_concerns`.
-/

namespace Mqmx

variable {A β L : Type}

theorem Object.queue?_eq_some {x : Object β L} {q : MessageQueue β L} :
    x.queue? = some q ↔ x = .alive q := by
  cases x with
  | unborn | dead => simp [Object.queue?]
  | alive p => simp [Object.queue?]

namespace Memory

theorem queue?_eq_some {m : Memory A β L} {a : A} {q : MessageQueue β L} :
    m.queue? a = some q ↔ m.object a = .alive q := Object.queue?_eq_some

/-! ### Writing and notifying -/

section Write

variable [DecidableEq A] (m : Memory A β L) (a b : A) (q : MessageQueue β L)

@[simp] theorem object_write_self : (m.write a q).object a = .alive q := Function.update_self ..

@[simp] theorem object_write_of_ne {a b : A} (h : b ≠ a) : (m.write a q).object b = m.object b :=
  Function.update_of_ne h ..

@[simp] theorem object_free_self : (m.free a).object a = .dead := Function.update_self ..

@[simp] theorem object_free_of_ne {a b : A} (h : b ≠ a) : (m.free a).object b = m.object b :=
  Function.update_of_ne h ..

@[simp] theorem notifications_write : (m.write a q).notifications = m.notifications := rfl

@[simp] theorem notifications_free : (m.free a).notifications = m.notifications := rfl

theorem object_write : (m.write a q).object b = if b = a then .alive q else m.object b :=
  Function.update_apply ..

theorem object_free : (m.free a).object b = if b = a then .dead else m.object b :=
  Function.update_apply ..

theorem write_alive {m : Memory A β L} {a b : A} {p : MessageQueue β L}
    (h : ∃ q, m.object b = .alive q) : ∃ q, (m.write a p).object b = .alive q := by
  rw [object_write]
  split
  · exact ⟨p, rfl⟩
  · exact h

end Write

section Notify

variable [DecidableEq L] (m : Memory A β L) (listener : Option L) (qid : ℕ) (mq : Option A)
  (flag : Flags)

@[simp] theorem object_notify : (m.notify listener qid mq flag).object = m.object := by
  unfold notify
  split <;> rfl

@[simp] theorem object_notify_if {c : Prop} [Decidable c] :
    (if c then m.notify listener qid mq flag else m).object = m.object := by
  split
  · exact object_notify ..
  · rfl

@[simp] theorem object_notify_unless {c : Prop} [Decidable c] :
    (if c then m else m.notify listener qid mq flag).object = m.object := by
  split
  · rfl
  · exact object_notify ..

@[simp] theorem notify_none : m.notify none qid mq flag = m := rfl

theorem notifications_notify (l k : L) :
    (m.notify (some l) qid mq flag).notifications k =
      if k = l then Mqmx.notify qid mq flag (m.notifications l) else m.notifications k := by
  simp only [notify, Function.update_apply]

end Notify

variable [DecidableEq A] [DecidableEq L]

section Poll

variable (m : Memory A β L)

@[simp] theorem notifies_object : Notifies.object m = m.object := rfl

@[simp] theorem notifies_write (a : A) (q : MessageQueue β L) :
    Notifies.write a q m = m.write a q := rfl

@[simp] theorem notifies_notify (listener : Option L) (qid : ℕ) (mq : Option A) (flag : Flags) :
    Notifies.notify listener qid mq flag m = m.notify listener qid mq flag := rfl

end Poll

theorem notify_write (m : Memory A β L) (a : A) (q : MessageQueue β L) (listener : Option L)
    (qid : ℕ) (mq : Option A) (flag : Flags) :
    (m.write a q).notify listener qid mq flag = (m.notify listener qid mq flag).write a q := by
  unfold notify
  split <;> rfl

/-! ### Messages and ids -/

section Messages

variable {m : Memory A β L} {a b : A} {q : MessageQueue β L}

omit [DecidableEq A] [DecidableEq L] in
theorem messages_of_alive (h : m.object a = .alive q) : m.messages a = q.queue := by
  simp [messages, h]

omit [DecidableEq A] [DecidableEq L] in
theorem messages_of_unborn (h : m.object a = .unborn) : m.messages a = [] := by
  simp [messages, h]

omit [DecidableEq A] [DecidableEq L] in
theorem alive_of_mem_messages {x : Message β} (h : x ∈ m.messages a) :
    ∃ q, m.object a = .alive q := by
  unfold messages at h
  split at h
  · rename_i q hq
    exact ⟨q, hq⟩
  · cases h

omit [DecidableEq A] [DecidableEq L] in
theorem qid_of_alive (h : m.object a = .alive q) : m.qid a = q.id := by
  simp [qid, h]

omit [DecidableEq A] [DecidableEq L] in
theorem messages_congr {m' : Memory A β L} (h : m'.object a = m.object a) :
    m'.messages a = m.messages a := by
  simp [messages, h]

omit [DecidableEq L] in
theorem messages_write :
    (m.write a q).messages b = if b = a then q.queue else m.messages b := by
  unfold messages
  rw [object_write]
  by_cases h : b = a
  · rw [if_pos h, if_pos h]
  · rw [if_neg h, if_neg h]

omit [DecidableEq L] in
theorem messages_free : (m.free a).messages b = if b = a then [] else m.messages b := by
  unfold messages
  rw [object_free]
  by_cases h : b = a
  · rw [if_pos h, if_pos h]
  · rw [if_neg h, if_neg h]

end Messages

/-! ### One lemma for each member function -/

section Cases

variable {m m' : Memory A β L} {a o : A}

theorem construct_cases {id : ℕ} (h : m.construct a id = some m') :
    m.object a = .unborn ∧ m' = m.write a ⟨id, [], none⟩ := by
  unfold construct MessageQueue.construct at h
  split at h
  · rename_i ha
    exact ⟨ha, (Option.some.inj h).symm⟩
  · cases h

theorem moveConstruct_cases (h : m.moveConstruct a o = some m') :
    ∃ q, a ≠ o ∧ m.object a = .unborn ∧ m.object o = .alive q ∧
      m' = ((m.notify q.listener q.id (some o) Flag.detached).write a ⟨q.id, q.queue, none⟩).write
        o ⟨undefinedQid, [], none⟩ := by
  unfold moveConstruct MessageQueue.moveConstruct at h
  split at h
  · rename_i q ha ho
    refine ⟨q, ?_, ha, ho, ?_⟩
    · intro e
      rw [e, ho] at ha; cases ha
    · rw [← Option.some.inj h]
      simp only [notifies_write, notifies_notify, notify_write]
  · cases h

theorem moveAssign_cases (h : m.moveAssign a o = some m') :
    ∃ p q, m.object a = .alive p ∧ m.object o = .alive q ∧
      ((a = o ∧ m' = m) ∨
        (a ≠ o ∧ m' = (((m.notify p.listener p.id (some a) Flag.detached).notify q.listener q.id
          (some o) Flag.detached).write a ⟨q.id, q.queue, none⟩).write o
            ⟨undefinedQid, [], none⟩)) := by
  unfold moveAssign MessageQueue.moveAssign at h
  split at h
  · rename_i p q ha ho
    refine ⟨p, q, ha, ho, ?_⟩
    split at h
    · rename_i e
      exact .inl ⟨e, (Option.some.inj h).symm⟩
    · rename_i e
      refine .inr ⟨e, ?_⟩
      rw [← Option.some.inj h]
      simp only [notifies_write, notifies_notify, notify_write]
  · cases h

theorem destroy_cases (h : m.destroy a = some m') :
    ∃ q, m.object a = .alive q ∧ m' = (m.notify q.listener q.id none Flag.closed).free a := by
  obtain ⟨q, hq, rfl⟩ := Option.map_eq_some_iff.mp h
  exact ⟨q, queue?_eq_some.mp hq, rfl⟩

theorem push_cases {msg left : Option (Message β)} {st : ExitStatus}
    (h : m.push a msg = some (st, left, m')) :
    ∃ q, m.object a = .alive q ∧
      ((st ≠ .success ∧ left = msg ∧ m' = m) ∨
        (∃ x, msg = some x ∧ st = .success ∧ left = none ∧ q.id = x.qid ∧ q.id ≠ undefinedQid ∧
          m' = (if q.queue = [] then m.notify q.listener q.id (some a) Flag.data else m).write a
            { q with queue := q.queue ++ [x] })) := by
  obtain ⟨q, hq, h⟩ := Option.map_eq_some_iff.mp h
  refine ⟨q, queue?_eq_some.mp hq, ?_⟩
  cases msg with
  | none =>
    cases h
    exact .inl ⟨by simp, rfl, rfl⟩
  | some x =>
    simp only at h
    split at h
    · cases h
      exact .inl ⟨by simp, rfl, rfl⟩
    · rename_i hid
      push Not at hid
      cases h
      refine .inr ⟨x, rfl, rfl, rfl, hid.2, hid.1, ?_⟩
      cases hc : q.queue with
      | nil => simp [notify_write]
      | cons y v => simp

theorem pop_cases {r : Option (Message β)} (h : m.pop a = some (r, m')) :
    ∃ q, m.object a = .alive q ∧
      ((r = none ∧ m' = m ∧ (q.queue = [] ∨ q.id = undefinedQid)) ∨
        (∃ x rest, r = some x ∧ q.queue = x :: rest ∧ q.id ≠ undefinedQid ∧
          m' = m.write a { q with queue := rest })) := by
  obtain ⟨q, hq, h⟩ := Option.map_eq_some_iff.mp h
  refine ⟨q, queue?_eq_some.mp hq, ?_⟩
  cases hc : q.queue with
  | nil =>
    rw [hc] at h
    cases h
    exact .inl ⟨rfl, rfl, .inl rfl⟩
  | cons x rest =>
    rw [hc] at h
    simp only at h
    split at h
    · rename_i hid
      cases h
      exact .inl ⟨rfl, rfl, .inr hid⟩
    · rename_i hid
      cases h
      exact .inr ⟨x, rest, rfl, rfl, hid, rfl⟩

theorem setListener_cases {l : L} {st : ExitStatus} (h : m.setListener a l = some (st, m')) :
    ∃ q, m.object a = .alive q ∧
      ((q.listener ≠ none ∧ st = .alreadyExist ∧ m' = m) ∨
        (q.listener = none ∧ st = .success ∧
          m' = (if q.queue = [] then m else m.notify (some l) q.id (some a) Flag.data).write a
            { q with listener := some l })) := by
  obtain ⟨q, hq, h⟩ := Option.map_eq_some_iff.mp h
  refine ⟨q, queue?_eq_some.mp hq, ?_⟩
  cases hl : q.listener with
  | some k =>
    rw [hl] at h
    cases h
    exact .inl ⟨by simp, rfl, rfl⟩
  | none =>
    rw [hl] at h
    cases h
    refine .inr ⟨rfl, rfl, ?_⟩
    by_cases hc : q.queue = []
    · rw [if_pos hc, if_neg (not_not_intro hc), notifies_write]
    · rw [if_neg hc, if_pos hc, notifies_write, notifies_notify, notify_write]

theorem clearListener_cases (h : m.clearListener a = some m') :
    ∃ q, m.object a = .alive q ∧ m' = m.write a { q with listener := none } := by
  obtain ⟨q, hq, rfl⟩ := Option.map_eq_some_iff.mp h
  exact ⟨q, queue?_eq_some.mp hq, rfl⟩

end Cases

/-! ### All operations -/

/-- **What an operation does**, with what it returns. -/
inductive Effect (m : Memory A β L) : Op A β L → Op.Reply β → Memory A β L → Prop
  | construct {a : A} {id : ℕ} : m.object a = .unborn →
      Effect m (.construct a id) .done (m.write a ⟨id, [], none⟩)
  | moveConstruct {a o : A} {q : MessageQueue β L} : a ≠ o → m.object a = .unborn →
      m.object o = .alive q →
      Effect m (.moveConstruct a o) .done
        (((m.notify q.listener q.id (some o) Flag.detached).write a ⟨q.id, q.queue, none⟩).write
          o ⟨undefinedQid, [], none⟩)
  | selfAssign {a : A} {q : MessageQueue β L} : m.object a = .alive q →
      Effect m (.moveAssign a a) .done m
  | moveAssign {a o : A} {p q : MessageQueue β L} : a ≠ o → m.object a = .alive p →
      m.object o = .alive q →
      Effect m (.moveAssign a o) .done
        ((((m.notify p.listener p.id (some a) Flag.detached).notify q.listener q.id
          (some o) Flag.detached).write a ⟨q.id, q.queue, none⟩).write o ⟨undefinedQid, [], none⟩)
  | destroy {a : A} {q : MessageQueue β L} : m.object a = .alive q →
      Effect m (.destroy a) .done ((m.notify q.listener q.id none Flag.closed).free a)
  | refuse {a : A} {msg : Option (Message β)} {st : ExitStatus} : st ≠ .success →
      Effect m (.push a msg) (.pushed st msg) m
  | push {a : A} {q : MessageQueue β L} {x : Message β} : m.object a = .alive q → q.id = x.qid →
      q.id ≠ undefinedQid →
      Effect m (.push a (some x)) (.pushed .success none)
        ((if q.queue = [] then m.notify q.listener q.id (some a) Flag.data else m).write a
          { q with queue := q.queue ++ [x] })
  | popNothing {a : A} {q : MessageQueue β L} : m.object a = .alive q →
      q.queue = [] ∨ q.id = undefinedQid → Effect m (.pop a) (.message none) m
  | pop {a : A} {q : MessageQueue β L} {x : Message β} {rest : List (Message β)} :
      m.object a = .alive q → q.queue = x :: rest → q.id ≠ undefinedQid →
      Effect m (.pop a) (.message (some x)) (m.write a { q with queue := rest })
  | alreadyExist {a : A} {l : L} {q : MessageQueue β L} : m.object a = .alive q →
      q.listener ≠ none → Effect m (.setListener a l) (.status .alreadyExist) m
  | setListener {a : A} {l : L} {q : MessageQueue β L} : m.object a = .alive q →
      q.listener = none →
      Effect m (.setListener a l) (.status .success)
        ((if q.queue = [] then m else m.notify (some l) q.id (some a) Flag.data).write a
          { q with listener := some l })
  | clearListener {a : A} {q : MessageQueue β L} : m.object a = .alive q →
      Effect m (.clearListener a) .done (m.write a { q with listener := none })

theorem run_effect {m m' : Memory A β L} {op : Op A β L} {r : Op.Reply β}
    (h : op.run m = some (r, m')) : Effect m op r m' := by
  cases op with
  | construct a id =>
    obtain ⟨_, hm, e⟩ := Option.map_eq_some_iff.mp h
    cases e
    obtain ⟨ha, rfl⟩ := construct_cases hm
    exact .construct ha
  | moveConstruct a o =>
    obtain ⟨_, hm, e⟩ := Option.map_eq_some_iff.mp h
    cases e
    obtain ⟨q, hne, ha, ho, rfl⟩ := moveConstruct_cases hm
    exact .moveConstruct hne ha ho
  | moveAssign a o =>
    obtain ⟨_, hm, e⟩ := Option.map_eq_some_iff.mp h
    cases e
    obtain ⟨p, q, ha, ho, ⟨rfl, rfl⟩ | ⟨hne, rfl⟩⟩ := moveAssign_cases hm
    · exact .selfAssign ha
    · exact .moveAssign hne ha ho
  | destroy a =>
    obtain ⟨_, hm, e⟩ := Option.map_eq_some_iff.mp h
    cases e
    obtain ⟨q, ha, rfl⟩ := destroy_cases hm
    exact .destroy ha
  | push a msg =>
    obtain ⟨_, hm, e⟩ := Option.map_eq_some_iff.mp h
    cases e
    obtain ⟨q, ha, ⟨hst, hl, e⟩ | ⟨x, rfl, hst, hl, hid, hne, e⟩⟩ := push_cases hm
    · rw [hl, e]; exact .refuse hst
    · rw [hst, hl, e]; exact .push ha hid hne
  | pop a =>
    obtain ⟨_, hm, e⟩ := Option.map_eq_some_iff.mp h
    cases e
    obtain ⟨q, ha, ⟨hr, e, hq⟩ | ⟨x, rest, hr, hq, hid, e⟩⟩ := pop_cases hm
    · rw [hr, e]; exact .popNothing ha hq
    · rw [hr, e]; exact .pop ha hq hid
  | setListener a l =>
    obtain ⟨_, hm, e⟩ := Option.map_eq_some_iff.mp h
    cases e
    obtain ⟨q, ha, ⟨hl, hst, e⟩ | ⟨hl, hst, e⟩⟩ := setListener_cases hm
    · rw [hst, e]; exact .alreadyExist ha hl
    · rw [hst, e]; exact .setListener ha hl
  | clearListener a =>
    obtain ⟨_, hm, e⟩ := Option.map_eq_some_iff.mp h
    cases e
    obtain ⟨q, ha, rfl⟩ := clearListener_cases hm
    exact .clearListener ha

/-- The operation is on the queue. -/
def Concerns (a : A) : Op A β L → Prop
  | .construct b _ => a = b
  | .moveConstruct b o => a = b ∨ a = o
  | .moveAssign b o => a = b ∨ a = o
  | .destroy b => a = b
  | .push b _ => a = b
  | .pop b => a = b
  | .setListener b _ => a = b
  | .clearListener b => a = b

/-- **An operation leaves every other queue alone.** -/
theorem Effect.object_of_not_concerns {m m' : Memory A β L} {op : Op A β L} {r : Op.Reply β}
    {b : A} (e : Effect m op r m') (h : ¬ Concerns b op) : m'.object b = m.object b := by
  cases e with
  | construct => exact object_write_of_ne _ _ h
  | moveConstruct =>
    rw [object_write_of_ne _ _ (fun e => h (.inr e)), object_write_of_ne _ _ (fun e => h (.inl e)),
      object_notify]
  | moveAssign =>
    rw [object_write_of_ne _ _ (fun e => h (.inr e)), object_write_of_ne _ _ (fun e => h (.inl e)),
      object_notify, object_notify]
  | destroy => rw [object_free_of_ne _ h, object_notify]
  | push => rw [object_write_of_ne _ _ h, object_notify_if]
  | pop => exact object_write_of_ne _ _ h
  | setListener => rw [object_write_of_ne _ _ h, object_notify_unless]
  | clearListener => exact object_write_of_ne _ _ h
  | _ => rfl

theorem Effect.alive {m m' : Memory A β L} {op : Op A β L} {r : Op.Reply β} {b : A}
    (e : Effect m op r m') (hb : ∃ q, m.object b = .alive q) (hd : op ≠ .destroy b) :
    ∃ q, m'.object b = .alive q := by
  cases e with
  | construct => exact write_alive hb
  | moveConstruct => exact write_alive (write_alive (by simpa using hb))
  | moveAssign => exact write_alive (write_alive (by simpa using hb))
  | @destroy a q =>
    have hne : b ≠ a := fun e => hd (by rw [e])
    rw [object_free_of_ne _ hne]
    simpa using hb
  | push => exact write_alive (by simpa using hb)
  | pop => exact write_alive hb
  | setListener => exact write_alive (by simpa using hb)
  | clearListener => exact write_alive hb
  | _ => exact hb

theorem Effect.dead {m m' : Memory A β L} {op : Op A β L} {r : Op.Reply β} {b : A}
    (e : Effect m op r m') (hb : m.object b = .dead) : m'.object b = .dead := by
  -- no operation is on a queue that is dead, but for the calls that change nothing
  have hne : ∀ {a : A}, m.object a ≠ .dead → b ≠ a := by
    rintro a ha rfl
    exact ha hb
  cases e with
  | construct ha => rw [object_write_of_ne _ _ (hne (by simp [ha])), hb]
  | moveConstruct _ ha ho =>
    rw [object_write_of_ne _ _ (hne (by simp [ho])), object_write_of_ne _ _ (hne (by simp [ha])),
      object_notify, hb]
  | moveAssign _ ha ho =>
    rw [object_write_of_ne _ _ (hne (by simp [ho])), object_write_of_ne _ _ (hne (by simp [ha])),
      object_notify, object_notify, hb]
  | destroy ha => rw [object_free_of_ne _ (hne (by simp [ha])), object_notify, hb]
  | push ha => rw [object_write_of_ne _ _ (hne (by simp [ha])), object_notify_if, hb]
  | pop ha => rw [object_write_of_ne _ _ (hne (by simp [ha])), hb]
  | setListener ha => rw [object_write_of_ne _ _ (hne (by simp [ha])), object_notify_unless, hb]
  | clearListener ha => rw [object_write_of_ne _ _ (hne (by simp [ha])), hb]
  | _ => exact hb

theorem Effect.born {m m' : Memory A β L} {op : Op A β L} {r : Op.Reply β} {b : A}
    (e : Effect m op r m') (hb : m.object b ≠ .unborn) : m'.object b ≠ .unborn := by
  cases hob : m.object b with
  | unborn => exact absurd hob hb
  | dead =>
    rw [e.dead hob]
    simp
  | alive q =>
    by_cases hd : op = .destroy b
    · subst hd
      cases e with
      | destroy =>
        rw [object_free_self]
        simp
    · obtain ⟨p, hp⟩ := e.alive ⟨q, hob⟩ hd
      rw [hp]
      simp

/-- The operation takes the content of the queue away. -/
def Leaves (a : A) : Op A β L → Prop
  | .moveConstruct _ o => a = o
  | .moveAssign b o => b ≠ o ∧ (a = b ∨ a = o)
  | .destroy b => a = b
  | _ => False

omit [DecidableEq A] [DecidableEq L] in
theorem Leaves.concerns {a : A} {op : Op A β L} (h : Leaves a op) : Concerns a op := by
  cases op with
  | moveConstruct => exact .inr h
  | moveAssign => exact h.2
  | destroy => exact h
  | _ => exact h.elim

theorem Effect.id {m m' : Memory A β L} {op : Op A β L} {r : Op.Reply β} {a : A}
    {q : MessageQueue β L} (e : Effect m op r m') (hq : m.object a = .alive q)
    (hop : ¬ Leaves a op) : ∃ p, m'.object a = .alive p ∧ p.id = q.id := by
  rcases em (Concerns a op) with hc | hc
  case inr => exact ⟨q, by rw [e.object_of_not_concerns hc, hq], rfl⟩
  cases e with
  | construct hn =>
    obtain rfl := hc
    rw [hq] at hn
    cases hn
  | moveConstruct _ hn =>
    rcases hc with rfl | rfl
    · rw [hq] at hn
      cases hn
    · exact absurd rfl hop
  | moveAssign hne => exact absurd ⟨hne, hc⟩ hop
  | destroy => exact absurd hc hop
  | push hp | pop hp | setListener hp | clearListener hp =>
    obtain rfl := hc
    obtain rfl := Object.alive.inj (hp.symm.trans hq)
    exact ⟨_, object_write_self .., rfl⟩
  | _ => exact ⟨q, hq, rfl⟩

/-- An operation on two queues. -/
def Moves : Op A β L → Prop
  | .moveConstruct _ _ => True
  | .moveAssign _ _ => True
  | _ => False

/-- A queue that is there was there with its id, or is made now. -/
theorem Effect.id_before {m m' : Memory A β L} {op : Op A β L} {r : Op.Reply β} {a : A}
    {q : MessageQueue β L} (e : Effect m op r m') (hq : m'.object a = .alive q)
    (hop : ¬ Moves op) : (∃ p, m.object a = .alive p ∧ p.id = q.id) ∨ op = .construct a q.id := by
  rcases em (Concerns a op) with hc | hc
  case inr =>
    rw [e.object_of_not_concerns hc] at hq
    exact .inl ⟨q, hq, rfl⟩
  cases e with
  | construct =>
    obtain rfl := hc
    rw [object_write_self] at hq
    cases hq
    exact .inr rfl
  | moveConstruct | moveAssign | selfAssign => exact absurd trivial hop
  | destroy =>
    obtain rfl := hc
    rw [object_free_self] at hq
    cases hq
  | push hp | pop hp | setListener hp | clearListener hp =>
    obtain rfl := hc
    rw [object_write_self] at hq
    cases hq
    exact .inl ⟨_, hp, rfl⟩
  | _ => exact .inl ⟨q, hq, rfl⟩

/-- A message is where it was, was moved along, or is pushed now. -/
theorem Effect.mem_messages {m m' : Memory A β L} {op : Op A β L} {r : Op.Reply β} {b : A}
    {msg : Message β} (e : Effect m op r m') (h : msg ∈ m'.messages b) :
    op = .push b (some msg) ∨
      ∃ c, msg ∈ m.messages c ∧ (c = b ∨ (Concerns c op ∧ Concerns b op)) := by
  rcases em (Concerns b op) with hc | hc
  case inr =>
    rw [messages_congr (e.object_of_not_concerns hc)] at h
    exact .inr ⟨b, h, .inl rfl⟩
  cases e with
  | construct =>
    obtain rfl := hc
    simp [messages_write] at h
  | moveConstruct hne ha ho =>
    rw [messages_write, messages_write] at h
    split at h
    · cases h
    · split at h
      · exact .inr ⟨_, (messages_of_alive ho).symm ▸ h, .inr ⟨.inr rfl, hc⟩⟩
      · rcases hc with hc | hc <;> contradiction
  | moveAssign hne ha ho =>
    rw [messages_write, messages_write] at h
    split at h
    · cases h
    · split at h
      · exact .inr ⟨_, (messages_of_alive ho).symm ▸ h, .inr ⟨.inr rfl, hc⟩⟩
      · rcases hc with hc | hc <;> contradiction
  | destroy =>
    obtain rfl := hc
    simp [messages_free] at h
  | push hq =>
    obtain rfl := hc
    rw [messages_write, if_pos rfl] at h
    rcases List.mem_append.mp h with h | h
    · exact .inr ⟨_, (messages_of_alive hq).symm ▸ h, .inl rfl⟩
    · obtain rfl := List.mem_singleton.mp h
      exact .inl rfl
  | pop hq hx =>
    obtain rfl := hc
    rw [messages_write, if_pos rfl] at h
    refine .inr ⟨_, ?_, .inl rfl⟩
    rw [messages_of_alive hq, hx]
    exact List.mem_cons_of_mem _ h
  | setListener hq | clearListener hq =>
    obtain rfl := hc
    rw [messages_write, if_pos rfl] at h
    exact .inr ⟨_, (messages_of_alive hq).symm ▸ h, .inl rfl⟩
  | _ => exact .inr ⟨b, h, .inl rfl⟩

theorem Effect.messages_setListener {m m' : Memory A β L} {a : A} {l : L} {r : Op.Reply β}
    (e : Effect m (.setListener a l) r m') (b : A) : m'.messages b = m.messages b := by
  cases e with
  | alreadyExist => rfl
  | setListener hq =>
    rw [messages_write]
    split
    · rename_i h
      rw [h, messages_of_alive hq]
    · exact messages_congr (by simp)

theorem Effect.messages_clearListener {m m' : Memory A β L} {a : A} {r : Op.Reply β}
    (e : Effect m (.clearListener a) r m') (b : A) : m'.messages b = m.messages b := by
  cases e with
  | clearListener hq =>
    rw [messages_write]
    split
    · rename_i h
      rw [h, messages_of_alive hq]
    · rfl

theorem Effect.messages_push {m m' : Memory A β L} {a : A} {x : Message β} {st : ExitStatus}
    {left : Option (Message β)} (e : Effect m (.push a (some x)) (.pushed st left) m') :
    (st ≠ .success ∧ m' = m) ∨
      (st = .success ∧ m'.messages a = m.messages a ++ [x]) := by
  cases e with
  | refuse hst => exact .inl ⟨hst, rfl⟩
  | push hq =>
    refine .inr ⟨rfl, ?_⟩
    rw [messages_write, if_pos rfl, messages_of_alive hq]

theorem Effect.messages_pop {m m' : Memory A β L} {a : A} {x : Message β}
    (e : Effect m (.pop a) (.message (some x)) m') : m.messages a = x :: m'.messages a := by
  cases e with
  | pop hq hx => rw [messages_write, if_pos rfl, messages_of_alive hq, hx]

theorem enqueue_effect {m m' : Memory A β L} {a : A} {mid : ℕ} {body : β} {st : ExitStatus}
    (h : m.enqueue a mid body = some (st, m')) :
    ∃ left, Effect m (.push a (some ⟨m.qid a, mid, body⟩)) (.pushed st left) m' := by
  obtain ⟨msg, hnew, h⟩ := Option.bind_eq_some_iff.mp h
  obtain ⟨q, hq, rfl⟩ := Option.map_eq_some_iff.mp hnew
  obtain ⟨⟨st', left, m₁⟩, hp, e⟩ := Option.map_eq_some_iff.mp h
  cases e
  refine ⟨left, run_effect (Option.map_eq_some_iff.mpr ⟨_, ?_, rfl⟩)⟩
  rw [qid_of_alive (queue?_eq_some.mp hq)]
  exact hp

theorem enqueue_accepted {m : Memory A β L} {a : A} {q : MessageQueue β L}
    (hq : m.object a = .alive q) (hid : q.id ≠ undefinedQid) (mid : ℕ) (body : β) :
    ∃ m', m.enqueue a mid body = some (.success, m') := by
  simp [enqueue, MessageQueue.enqueue, MessageQueue.newMessage, MessageQueue.push, hq,
    Object.queue?, hid]

theorem setListener_run_eq_none {m : Memory A β L} {a : A} {l : L}
    (h : (Op.setListener a l).run m = none) : ∀ q, m.object a ≠ .alive q := by
  intro q hq
  simp [Op.run, Op.exec, MessageQueue.setListener, hq, Object.queue?] at h

theorem clearListener_run_eq_none {m : Memory A β L} {a : A}
    (h : (Op.clearListener a : Op A β L).run m = none) : ∀ q, m.object a ≠ .alive q := by
  intro q hq
  simp [Op.run, Op.exec, MessageQueue.clearListener, hq, Object.queue?] at h

/-- A call on a queue that need not be alive.  Where it is not the program has no meaning,
and the memory is left as it is. -/
def touch (op : Op A β L) (m : Memory A β L) : Memory A β L :=
  match op.run m with
  | some (_, m') => m'
  | none => m

theorem touch_cases (op : Op A β L) (m : Memory A β L) :
    (op.run m = none ∧ touch op m = m) ∨ ∃ r, Effect m op r (touch op m) := by
  unfold touch
  split
  · rename_i r m' h
    exact .inr ⟨r, run_effect h⟩
  · rename_i h
    exact .inl ⟨h, rfl⟩

end Memory

end Mqmx
