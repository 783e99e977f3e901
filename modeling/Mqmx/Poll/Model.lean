import Mqmx.Base.Transition
import Mqmx.Queue.Memory

/-!
# Polls at run time

`poll` of `message_queue_poll.h`: a listener of its own, which the constructor of
`set_listener_for_each_queue` sets for the queues of a range one after another, a wait
for notifications, and the destructor, which clears the listener of each queue again.

Any number of polls run at once, each named by its listener `l : L` with its range of
queues, and other threads call the member functions of any queue in between.  One step
is one call of a member function of one queue, under the mutex of that queue.

The constructor drops what `set_listener` returns, and neither it nor the destructor can
tell whether a queue is still there: their calls are `touch`es.
-/

namespace Mqmx.Poll

variable {A β L : Type}

/-- Where a call of `poll` is.  In the constructor the iterator has passed the queues
`set`, in the destructor it has `rest` before it. -/
inductive Pc (A : Type)
  | idle
  | attach (set rest : List A)
  | wait
  | detach (rest : List A)
  | done
  deriving DecidableEq

structure State (A β L : Type) where
  memory : Memory A β L
  pc : L → Pc A

inductive Label (A β L : Type)
  | begin (l : L)
  | attach (l : L) (a : A)
  | ready (l : L)
  | wake (l : L)
  | timeout (l : L)
  | detach (l : L) (a : A)
  | finish (l : L)
  | op (o : Op A β L) (reply : Op.Reply β)

section Goto

variable [DecidableEq L]

def State.goto (l : L) (pc : Pc A) (s : State A β L) : State A β L :=
  { s with pc := Function.update s.pc l pc }

@[simp] theorem goto_memory (l : L) (pc : Pc A) (s : State A β L) :
    (s.goto l pc).memory = s.memory := rfl

@[simp] theorem goto_pc_self (l : L) (pc : Pc A) (s : State A β L) : (s.goto l pc).pc l = pc :=
  Function.update_self ..

@[simp] theorem goto_pc_of_ne {k l : L} (h : k ≠ l) (pc : Pc A) (s : State A β L) :
    (s.goto l pc).pc k = s.pc k :=
  Function.update_of_ne h ..

end Goto

variable [DecidableEq A] [DecidableEq L]

/-- One step of one poll, or of another thread. -/
inductive Step (range : L → List A) : State A β L → Label A β L → State A β L → Prop
  | begin {s : State A β L} (l : L) : s.pc l = .idle →
      Step range s (.begin l) (s.goto l (.attach [] (range l)))
  /-- `mq->set_listener (listener)`. -/
  | attach {s : State A β L} {l : L} {a : A} {set rest : List A} :
      s.pc l = .attach set (a :: rest) →
      Step range s (.attach l a)
        { s.goto l (.attach (set ++ [a]) rest) with
          memory := Memory.touch (.setListener a l) s.memory }
  | ready {s : State A β L} {l : L} {set : List A} : s.pc l = .attach set [] →
      Step range s (.ready l) (s.goto l .wait)
  /-- `wait_for_notifications` returns: there is something in the list. -/
  | wake {s : State A β L} {l : L} : s.pc l = .wait → s.memory.notifications l ≠ [] →
      Step range s (.wake l) (s.goto l (.detach (range l)))
  /-- It returns for the time. -/
  | timeout {s : State A β L} {l : L} : s.pc l = .wait →
      Step range s (.timeout l) (s.goto l (.detach (range l)))
  /-- `mq->clear_listener ()`. -/
  | detach {s : State A β L} {l : L} {a : A} {rest : List A} : s.pc l = .detach (a :: rest) →
      Step range s (.detach l a)
        { s.goto l (.detach rest) with
          memory := Memory.touch (.clearListener a) s.memory }
  | finish {s : State A β L} {l : L} : s.pc l = .detach [] →
      Step range s (.finish l) (s.goto l .done)
  | op {s : State A β L} {m : Memory A β L} (o : Op A β L) {reply : Op.Reply β} :
      o.run s.memory = some (reply, m) → Step range s (.op o reply) { s with memory := m }

/-- Polls over the ranges `range`, from an empty memory on. -/
def system (range : L → List A) : Transition.System (State A β L) (Label A β L) where
  init s := (∀ a, s.memory.object a = .unborn) ∧ (∀ l, s.memory.notifications l = []) ∧
    ∀ l, s.pc l = .idle
  step := Step range

/-- The call a step makes, with what it returns. -/
inductive Label.Calls : Label A β L → Op A β L → Op.Reply β → Prop
  | attach (l : L) (a : A) (r : Op.Reply β) : Calls (.attach l a) (.setListener a l) r
  | detach (l : L) (a : A) (r : Op.Reply β) : Calls (.detach l a) (.clearListener a) r
  | op (o : Op A β L) (r : Op.Reply β) : Calls (.op o r) o r

theorem Step.memory {range : L → List A} {s t : State A β L} {x : Label A β L}
    (h : Step range s x t) :
    t.memory = s.memory ∨ ∃ o r, x.Calls o r ∧ Memory.Effect s.memory o r t.memory := by
  cases h with
  | @attach l a =>
    rcases Memory.touch_cases (.setListener a l) s.memory with ⟨-, e⟩ | ⟨r, e⟩
    · exact .inl e
    · exact .inr ⟨_, r, .attach l a r, e⟩
  | @detach l a =>
    rcases Memory.touch_cases (.clearListener a) s.memory with ⟨-, e⟩ | ⟨r, e⟩
    · exact .inl e
    · exact .inr ⟨_, r, .detach l a r, e⟩
  | op o h => exact .inr ⟨o, _, .op o _, Memory.run_effect h⟩
  | _ => exact .inl rfl

omit [DecidableEq A] in
/-- What holds of every poll when it gets to `pc` holds of all polls again. -/
theorem forall_goto {P : L → Pc A → Prop} {s : State A β L} (hs : ∀ l, P l (s.pc l)) {l : L}
    {pc : Pc A} (h : P l pc) : ∀ k, P k ((s.goto l pc).pc k) := by
  intro k
  by_cases hk : k = l
  · subst hk
    rw [goto_pc_self]
    exact h
  · rw [goto_pc_of_ne hk]
    exact hs k

/-- While a poll attaches its queues they are its range. -/
def Whole (range : L → List A) (s : State A β L) : Prop :=
  ∀ l set rest, s.pc l = .attach set rest → set ++ rest = range l

theorem Whole.step {range : L → List A} {s t : State A β L} {x : Label A β L}
    (hs : Whole range s) (hx : Step range s x t) : Whole range t := by
  have goto : ∀ {l : L} {pc : Pc A}, (∀ set rest, pc = .attach set rest → set ++ rest = range l) →
      Whole range (s.goto l pc) := fun h =>
    forall_goto (P := fun l pc => ∀ set rest, pc = .attach set rest → set ++ rest = range l) hs h
  cases hx with
  | begin l _ =>
    apply goto
    intro set rest h
    cases h
    rfl
  | @attach l a set rest hpc =>
    have hg : Whole range (s.goto l (.attach (set ++ [a]) rest)) := by
      apply goto
      intro set' rest' h
      cases h
      simpa using hs l _ _ hpc
    exact hg
  | ready _ => exact goto (by simp)
  | wake _ _ => exact goto (by simp)
  | timeout _ => exact goto (by simp)
  | @detach l a rest _ =>
    have hg : Whole range (s.goto l (.detach rest)) := goto (by simp)
    exact hg
  | finish _ => exact goto (by simp)
  | op => exact hs

theorem whole_initial {range : L → List A} {i : State A β L} (h : (system range).init i) :
    Whole range i := by
  intro l set rest hpc
  rw [h.2.2 l] at hpc
  cases hpc

end Mqmx.Poll
