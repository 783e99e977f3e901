import Mqmx.Base.Transition
import Mqmx.Queue.Digest
import Mqmx.Queue.Memory

/-!
# Queues whose listeners are left open

The member functions for listeners of any kind.  All that a queue does to its listener is to
call `notify`: here the calls are written down in `told`, in their order, and what a listener
makes of them is left open.

A memory is this with poll listeners: `toMemory`, in which each has the digest of the
calls it got.  `exec_toMemory`: the member functions do the same in both.
-/

namespace Mqmx

open Transition (System Run)

variable {A β L : Type}

/-- All queues, and the calls of `notify` there have been. -/
structure Queues (A β L : Type) where
  object : A → Object β L
  told : List (L × Notification A)

namespace Queues

def notify (listener : Option L) (qid : ℕ) (mq : Option A) (flag : Flags) (s : Queues A β L) :
    Queues A β L :=
  match listener with
  | some l => { s with told := s.told ++ [(l, ⟨qid, mq, flag⟩)] }
  | none => s

variable [DecidableEq A]

def write (a : A) (q : MessageQueue β L) (s : Queues A β L) : Queues A β L :=
  { s with object := Function.update s.object a (.alive q) }

def free (a : A) (s : Queues A β L) : Queues A β L :=
  { s with object := Function.update s.object a .dead }

instance : Notifies (Queues A β L) A β L where
  object := object
  write := write
  free := free
  notify := notify

@[simp] theorem notifies_object (s : Queues A β L) : Notifies.object s = s.object := rfl

@[simp] theorem notifies_write (s : Queues A β L) (a : A) (q : MessageQueue β L) :
    Notifies.write a q s = s.write a q := rfl

@[simp] theorem notifies_free (s : Queues A β L) (a : A) : Notifies.free a s = s.free a := rfl

@[simp] theorem notifies_notify (s : Queues A β L) (listener : Option L) (qid : ℕ)
    (mq : Option A) (flag : Flags) :
    Notifies.notify listener qid mq flag s = s.notify listener qid mq flag := rfl

end Queues

/-- Any number of queues, and any sequence of operations on them. -/
def Queues.system (A β L : Type) [DecidableEq A] :
    System (Queues A β L) (Op A β L × Op.Reply β) where
  init s := (∀ a, s.object a = .unborn) ∧ s.told = []
  step s x t := x.1.exec s = some (x.2, t)

/-! ### Listeners of two kinds -/

/-- **A queue does not know what its listener does.**  Where `f` keeps the queues and what is done
to the listeners, the member functions do the same on both sides. -/
theorem Op.exec_map [DecidableEq A] {M N : Type} [Notifies M A β L] [Notifies N A β L]
    (f : M → N) (hobject : ∀ m a, Notifies.object (f m) a = Notifies.object m a)
    (hwrite : ∀ a q m, f (Notifies.write a q m) = Notifies.write a q (f m))
    (hfree : ∀ a m, f (Notifies.free a m) = Notifies.free a (f m))
    (hnotify : ∀ listener qid mq flag m, f (Notifies.notify listener qid mq flag m) =
      Notifies.notify listener qid mq flag (f m)) (op : Op A β L) (m : M) :
    op.exec (f m) = (op.exec m).map fun r => (r.1, f r.2) := by
  cases op with
  | construct a id =>
    simp only [exec, MessageQueue.construct, hobject]
    cases Notifies.object m a <;> simp [hwrite]
  | moveConstruct a o =>
    simp only [exec, MessageQueue.moveConstruct, hobject]
    cases Notifies.object m a <;> cases Notifies.object m o <;> simp [hnotify, hwrite]
  | moveAssign a o =>
    simp only [exec, MessageQueue.moveAssign, hobject]
    cases Notifies.object m a <;> cases Notifies.object m o <;> try rfl
    by_cases h : a = o
    · simp [h]
    · simp [h, hnotify, hwrite]
  | destroy a =>
    simp only [exec, MessageQueue.destroy, hobject]
    cases (Notifies.object m a).queue? <;> simp [hnotify, hfree]
  | push a msg =>
    simp only [exec, MessageQueue.push, hobject]
    cases (Notifies.object m a).queue? with
    | none => rfl
    | some q =>
      cases msg with
      | none => rfl
      | some x =>
        by_cases hid : q.id = undefinedQid ∨ q.id ≠ x.qid
        · simp [hid]
        · by_cases hc : q.queue = []
          · simp [hid, hc, hnotify, hwrite]
          · simp [hid, hc, hwrite]
  | pop a =>
    simp only [exec, MessageQueue.pop, hobject]
    cases (Notifies.object m a).queue? with
    | none => rfl
    | some q =>
      cases hc : q.queue with
      | nil => simp [hc]
      | cons msg rest =>
        by_cases hid : q.id = undefinedQid
        · simp [hc, hid]
        · simp [hc, hid, hwrite]
  | setListener a l =>
    simp only [exec, MessageQueue.setListener, hobject]
    cases (Notifies.object m a).queue? with
    | none => rfl
    | some q =>
      cases hl : q.listener with
      | some k => simp [hl]
      | none =>
        by_cases hc : q.queue = []
        · simp [hl, hc, hwrite]
        · simp [hl, hc, hnotify, hwrite]
  | clearListener a =>
    simp only [exec, MessageQueue.clearListener, hobject]
    cases (Notifies.object m a).queue? <;> simp [hwrite]

/-! ### Poll listeners -/

namespace Queues

section Poll

variable [DecidableEq L]

def heardBy (l : L) (told : List (L × Notification A)) : List (Notification A) :=
  (told.filter fun n => n.1 = l).map Prod.snd

/-- The same queues with poll listeners. -/
def toMemory (s : Queues A β L) : Memory A β L where
  object := s.object
  notifications l := digest (heardBy l s.told)

theorem heardBy_snoc (l k : L) (told : List (L × Notification A)) (n : Notification A) :
    heardBy l (told ++ [(k, n)]) = if l = k then heardBy l told ++ [n] else heardBy l told := by
  rw [heardBy, List.filter_append, List.map_append]
  by_cases h : l = k
  · rw [if_pos h]
    simp [heardBy, h]
  · rw [if_neg h]
    simp [heardBy, Ne.symm h]

theorem toMemory_notify (listener : Option L) (qid : ℕ) (mq : Option A) (flag : Flags)
    (s : Queues A β L) :
    (s.notify listener qid mq flag).toMemory = s.toMemory.notify listener qid mq flag := by
  cases listener with
  | none => rfl
  | some l =>
    have hlist : (fun k => digest (heardBy k (s.told ++ [(l, ⟨qid, mq, flag⟩)]))) =
        Function.update s.toMemory.notifications l
          (Mqmx.notify qid mq flag (s.toMemory.notifications l)) := by
      funext k
      rw [heardBy_snoc, Function.update_apply]
      split
      · rename_i h
        rw [digest_snoc, h]
        rfl
      · rfl
    simp only [toMemory, Queues.notify, Memory.notify] at hlist ⊢
    rw [hlist]

variable [DecidableEq A]

theorem toMemory_write (a : A) (q : MessageQueue β L) (s : Queues A β L) :
    (s.write a q).toMemory = s.toMemory.write a q := rfl

theorem toMemory_free (a : A) (s : Queues A β L) : (s.free a).toMemory = s.toMemory.free a := rfl

/-- **With poll listeners the member functions are those of a memory.** -/
theorem exec_toMemory (op : Op A β L) (s : Queues A β L) :
    op.run s.toMemory = (op.exec s).map fun r => (r.1, r.2.toMemory) :=
  op.exec_map toMemory (fun _ _ => rfl) toMemory_write toMemory_free toMemory_notify s

end Poll

end Queues

end Mqmx
