import Mqmx.Pool.Listening

/-!
# What reaches the handlers

A slot of the table is given to one queue and to no other after it: `Assigned`.  So the
messages that are passed to the handler of a slot are those that were pushed to its queue, in
order, up to those that are still in the queue or in the hands of the worker: `Delivered`.
It does not matter how the worker comes to drop the rest of a list, since what it drops are
records and not messages.

* `delivered_run`: what is handled is a prefix of what was pushed, and all of it where the
  worker waits and was told nothing.
* `deleted_silent`: after a queue was deleted its handler is not called any more.
-/

namespace Mqmx.Pool

open Transition (System Run)

variable {A T H U σ : Type}

/-! ### Pushed, handled, and in the hands -/

/-- The message that a push of a client puts into the queue. -/
def Label.pushed? [DecidableEq A] (a : A) : Label A T H U → Option (Message (Body A T U))
  | .op (.push b (some msg)) (.pushed .success none) => if b = a then some msg else none
  | _ => none

/-- The message that the handler of the slot is called with. -/
def Label.handled? (k : ℕ) : Label A T H U → Option (Message (Body A T U))
  | .handle slot _ msg => if slot = k then some msg else none
  | _ => none

/-- All messages that clients have pushed into the queue, in order. -/
def pushed [DecidableEq A] (a : A) (ls : List (Label A T H U)) : List (Message (Body A T U)) :=
  ls.filterMap (Label.pushed? a)

/-- All messages that the handler of the slot was called with, in order. -/
def handled (k : ℕ) (ls : List (Label A T H U)) : List (Message (Body A T U)) :=
  ls.filterMap (Label.handled? k)

def WorkerPc.handOf (k : ℕ) : WorkerPc A T U → List (Message (Body A T U))
  | .call rec msg _ => if rec.qid = k then [msg] else []
  | _ => []

theorem WorkerPc.handOf_of_hand {pc : WorkerPc A T U} (h : pc.hand = []) (k : ℕ) :
    pc.handOf k = [] := by
  cases pc with
  | call => cases h
  | _ => rfl

theorem WorkerPc.handOf_call_of_ne {rec : NotificationRec A} {k : ℕ} (h : rec.qid ≠ k)
    (msg : Message (Body A T U)) (mqlist : List (NotificationRec A)) :
    (WorkerPc.call rec msg mqlist).handOf k = [] := if_neg h

/-- The message that a member function puts into the control queue. -/
def Label.command? : Label A T H U → Option (Message (Body A T U))
  | .add t mq => some ⟨controlMessageQueueId, addQueueMessageId, .add mq t⟩
  | .remove t mq => some ⟨controlMessageQueueId, removeQueueMessageId, .remove mq t⟩
  | .isPollIdle _ => some ⟨controlMessageQueueId, pollPauseMessageId, .base⟩
  | .terminate => some ⟨controlMessageQueueId, terminateMessageId, .base⟩
  | _ => none

theorem pushed_snoc [DecidableEq A] (a : A) (ls : List (Label A T H U)) (x : Label A T H U) :
    pushed a (ls ++ [x]) = pushed a ls ++ (x.pushed? a).toList := by
  cases h : x.pushed? a <;> simp [pushed, h]

theorem handled_snoc (k : ℕ) (ls : List (Label A T H U)) (x : Label A T H U) :
    handled k (ls ++ [x]) = handled k ls ++ (x.handled? k).toList := by
  cases h : x.handled? k <;> simp [handled, h]

variable [DecidableEq A] [DecidableEq T] [Semaphore σ] {mqControl : A} {capacity : ℕ}
  {s t : State A T H U σ} {x : Label A T H U} {a : A} {k : ℕ} {h : H}

/-! ### The slot of a queue -/

/-- The slot `k` has the handler `h`, and is that of the queue `a`, for good. -/
structure Assigned (a : A) (k : ℕ) (h : H) (s : State A T H U σ) : Prop where
  handler : s.handler[k]? = some (some (.client h))
  pooled : s.pooled a = true
  born : s.memory.object a ≠ .unborn
  id : ∀ q, s.memory.object a = .alive q → q.id = k
  only : ∀ b q, s.pooled b = true → s.memory.object b = .alive q → q.id = k → b = a

structure Allocates (a : A) (k : ℕ) (h : H) (s t : State A T H U σ) : Prop where
  slot : k = firstFree s.handler
  free : k < s.handler.length
  unborn : s.memory.object a = .unborn
  memory : t.memory = s.memory.write a ⟨k, [], none⟩
  handler : t.handler = s.handler.set k (some (.client h))
  pooled : t.pooled = Function.update s.pooled a true
  worker : t.worker = s.worker

theorem Step.allocates {u : T} (hs : Step mqControl s (.allocate u h a k) t) :
    Allocates a k h s t := by
  generalize hx : (Label.allocate u h a k : Label A T H U) = x at hs
  cases hs with
  | allocate hu hlt hm =>
    injection hx with e₁ e₂ e₃ e₄
    subst e₁ e₂ e₃ e₄
    obtain ⟨hborn, rfl⟩ := Memory.construct_cases hm
    exact ⟨rfl, hlt, hborn, rfl, rfl, rfl, rfl⟩
  | _ => cases hx

omit [DecidableEq T] [Semaphore σ] in
theorem Allocates.empty (h' : Allocates a k h s t) : s.handler[k]? = some none := by
  obtain ⟨rfl, hlt, -⟩ := h'
  exact firstFree_empty hlt

theorem not_allocate_of_taken (hs : Step mqControl s x t) {c : Handler H}
    (hk : s.handler[k]? = some (some c)) (u : T) (h' : H) (b : A) : x ≠ .allocate u h' b k := by
  rintro rfl
  rw [hs.allocates.empty] at hk
  cases hk

theorem Assigned.step (ha : Assigned a k h s) (hp : x.Pushes mqControl s)
    (hs : Step mqControl s x t) : Assigned a k h t := by
  have hno := not_allocate_of_taken hs ha.handler
  -- a queue that has the id had it before
  have back : ∀ {b q}, t.memory.object b = .alive q → q.id = k →
      ∃ p, s.memory.object b = .alive p ∧ p.id = k := by
    intro b q hq hid
    rcases id_before hp hs hq with ⟨p, hp', e⟩ | ⟨u, hd, e⟩
    · exact ⟨p, hp', e.trans hid⟩
    · rw [hid] at e
      exact absurd e (hno u hd b)
  have hid : ∀ q, t.memory.object a = .alive q → q.id = k := by
    intro q hq
    rcases id_before hp hs hq with ⟨p, hp', e⟩ | ⟨u, hd, rfl⟩
    · rw [← e]
      exact ha.id p hp'
    · exact absurd hs.allocates.unborn ha.born
  rcases hs.handler with ⟨hh, hpool, -⟩ | ⟨u, hd, mq, rfl, hborn, -, hh, hpool⟩
  · refine ⟨by rw [hh, ha.handler], by rw [hpool, ha.pooled], hs.born ha.born, hid, ?_⟩
    intro b q hb hq e
    obtain ⟨p, hp', e'⟩ := back hq e
    rw [hpool] at hb
    exact ha.only b p hb hp' e'
  · have hk : firstFree s.handler ≠ k := fun e' => hno u hd mq (by rw [e'])
    refine ⟨by rw [hh, List.getElem?_set_ne hk, ha.handler], ?_, hs.born ha.born, hid,
      fun b q hb hq e' => ?_⟩
    · rw [hpool, Function.update_apply, ha.pooled]
      simp
    · obtain ⟨p, hp', hpk⟩ := back hq e'
      rw [hpool, Function.update_apply] at hb
      split at hb
      · -- the queue that is made now was not alive
        rename_i hbm
        rw [← hbm, hp'] at hborn
        cases hborn
      · exact ha.only b p hb hp' hpk

omit [DecidableEq T] in
/-- **`allocate_queue` assigns the slot.** -/
theorem Allocates.assigned (h' : Allocates a k h s t) (hsl : Slots mqControl capacity s) :
    Assigned a k h t := by
  have hobj : ∀ b, t.memory.object b =
      if b = a then .alive ⟨k, [], none⟩ else s.memory.object b := by
    intro b
    rw [h'.memory, Memory.object_write]
  refine ⟨by rw [h'.handler, List.getElem?_set_self h'.free],
    by rw [h'.pooled, Function.update_self], by rw [hobj, if_pos rfl]; simp,
    fun q hq => ?_, fun b q hb hq hid => ?_⟩
  · rw [hobj, if_pos rfl] at hq
    cases hq
    rfl
  · by_contra hne
    rw [hobj, if_neg hne] at hq
    rw [h'.pooled, Function.update_of_ne hne] at hb
    -- the slot of a queue that is alive is taken
    obtain ⟨-, c, hc⟩ := hsl.taken b q hb hq
    rw [hid, h'.empty] at hc
    cases hc

/-! ### Records and slots -/

theorem Listening.source (h : Listening mqControl capacity s) {rec : NotificationRec A}
    (hr : rec ∈ s.worker.records) :
    ∃ a q, rec.mq = some a ∧ s.memory.object a = .alive q ∧ q.id = rec.qid ∧ a ∈ s.mqs ∧
      ((a = mqControl ∧ rec.qid = 0) ∨
        (a ≠ mqControl ∧ s.pooled a = true ∧
          ∃ h, s.handler[rec.qid]? = some (some (.client h)))) := by
  obtain ⟨a, ha, hra, hid⟩ := (h.records rec hr).mq
  obtain ⟨q, hq⟩ := h.alive ha
  rw [Memory.qid_of_alive hq] at hid
  refine ⟨a, q, hra, hq, hid, ha, ?_⟩
  by_cases hc : a = mqControl
  · obtain ⟨q', hq', hid'⟩ := h.slots.registry.control
    rw [hc, hq'] at hq
    cases hq
    exact .inl ⟨hc, hid.symm.trans hid'⟩
  · have hpool : s.pooled a = true := h.slots.registry.ledger.pooled a (.inl ⟨ha, hc⟩)
    obtain ⟨-, hd, hk⟩ := h.slots.taken a q hpool hq
    rw [hid] at hk
    exact .inr ⟨hc, hpool, hd, hk⟩

theorem Assigned.mq (ha : Assigned a k h s) (hl : Listening mqControl capacity s)
    {rec : NotificationRec A} (hr : rec ∈ s.worker.records) : rec.qid = k ↔ rec.mq = some a := by
  obtain ⟨b, q, hb, hq, hid, -, hcase⟩ := hl.source hr
  have h0 : k ≠ 0 := by
    rintro rfl
    have hc := ha.handler
    rw [hl.slots.control] at hc
    cases hc
  constructor
  · rintro rfl
    rcases hcase with ⟨-, e⟩ | ⟨-, hpool, -⟩
    · exact absurd e h0
    · rw [hb, ha.only b q hpool hq hid]
  · intro e
    rw [e] at hb
    cases hb
    rw [← hid]
    exact ha.id q hq

omit [DecidableEq A] in
theorem Assigned.ne_control (ha : Assigned a k h s) (hl : Listening mqControl capacity s) :
    a ≠ mqControl := by
  rintro rfl
  have hc := ha.pooled
  have hc' : s.pooled a = false := hl.slots.registry.ledger.control
  rw [hc'] at hc
  cases hc

theorem Step.messages (hp : x.Pushes mqControl s) (hs : Step mqControl s x t)
    (hborn : s.memory.object a ≠ .unborn) (hc : a = mqControl → x.command? = none)
    (hpop : ∀ rec, x = .pop rec → rec.mq ≠ some a) (hfree : ∀ u, x ≠ .free u a)
    (hop : ∀ msg r, x ≠ .op (.push a msg) r) : t.memory.messages a = s.memory.messages a := by
  rcases hs.memory with e | ⟨l, -, e⟩ | ⟨o, r, hcall, e⟩
  · rw [e]
  · rw [e]
    rfl
  · cases hcall with
    | attach => exact e.messages_setListener a
    | detach => exact e.messages_clearListener a
    | pop hm =>
      refine Memory.messages_congr (e.object_of_not_concerns fun hca => ?_)
      have hca : a = _ := hca
      rw [← hca] at hm
      exact hpop _ rfl hm
    | construct u hd mq slot =>
      refine Memory.messages_congr (e.object_of_not_concerns fun hca => ?_)
      obtain rfl : a = mq := hca
      generalize t.memory = m at e
      cases e with
      | construct hn => exact hborn hn
    | add | remove | isPollIdle | terminate =>
      refine Memory.messages_congr (e.object_of_not_concerns fun hca => ?_)
      have hca : a = mqControl := hca
      cases hc hca
    | destroy u mq =>
      refine Memory.messages_congr (e.object_of_not_concerns fun hca => ?_)
      obtain rfl : a = mq := hca
      exact hfree u rfl
    | op o r =>
      obtain ⟨b, msg, rfl, -⟩ := hp
      refine Memory.messages_congr (e.object_of_not_concerns fun hca => ?_)
      obtain rfl : a = b := hca
      exact hop _ _ rfl

/-! ### One queue -/

/-- What a step is to a queue and its slot: a message is pushed, popped or handled, or nothing
happens to it.  Or the queue is gone. -/
inductive Passes (a : A) (k : ℕ) (h : H) (s : State A T H U σ) (x : Label A T H U)
    (t : State A T H U σ) : Prop
  | push (msg : Message (Body A T U)) : x.pushed? a = some msg → x.handled? k = none →
      t.worker.handOf k = s.worker.handOf k →
      t.memory.messages a = s.memory.messages a ++ [msg] → Passes a k h s x t
  | pop (msg : Message (Body A T U)) : x.pushed? a = none → x.handled? k = none →
      s.worker.handOf k = [] → t.worker.handOf k = [msg] →
      s.memory.messages a = msg :: t.memory.messages a → Passes a k h s x t
  | handle (msg : Message (Body A T U)) : x.pushed? a = none → x = .handle k h msg →
      s.worker.handOf k = [msg] → t.worker.handOf k = [] →
      t.memory.messages a = s.memory.messages a → Passes a k h s x t
  | quiet : x.pushed? a = none → x.handled? k = none →
      t.worker.handOf k = s.worker.handOf k →
      ((∃ q, t.memory.object a = .alive q) → t.memory.messages a = s.memory.messages a) →
      Passes a k h s x t

theorem Assigned.passes (ha : Assigned a k h s) (hl : Listening mqControl capacity s)
    (hp : x.Pushes mqControl s) (hs : Step mqControl s x t) : Passes a k h s x t := by
  have hc := ha.ne_control hl
  have hmsg := hs.messages hp ha.born fun e => absurd e hc
  -- the slot is not that of the control queue
  have hctl : ∀ {i : ℕ}, s.handler[i]? = some (some .control) → i ≠ k := by
    rintro i hi rfl
    rw [ha.handler] at hi
    cases hi
  cases hs with
  | pop hw hm hpop =>
    rename_i rec mqlist b msg m
    have e := pop_effect hpop
    have hiff := ha.mq hl (by rw [hw]; exact List.mem_cons_self)
    by_cases hk : rec.qid = k
    · obtain rfl : b = a := Option.some.inj (hm.symm.trans (hiff.mp hk))
      exact .pop msg rfl rfl (by rw [hw]; rfl) (if_pos hk) e.messages_pop
    · refine .quiet rfl rfl ?_ fun _ => hmsg ?_ (by simp) (by simp)
      · rw [hw]
        exact WorkerPc.handOf_call_of_ne hk ..
      · rintro _ ⟨rfl⟩ hra
        exact hk (hiff.mpr hra)
  | popNothing hw =>
    exact .quiet rfl rfl (by rw [hw]; rfl) fun _ => rfl
  | handle hw hhd =>
    rename_i rec msg mqlist hd
    by_cases hk : rec.qid = k
    · subst hk
      rw [ha.handler] at hhd
      cases hhd
      exact .handle msg rfl rfl (by rw [hw]; exact if_pos rfl) rfl rfl
    · refine .quiet rfl (if_neg hk) ?_ fun _ => rfl
      rw [hw]
      exact (WorkerPc.handOf_call_of_ne hk ..).symm
  | control hw hhd =>
    refine .quiet rfl rfl ?_ fun _ => rfl
    rw [hw, WorkerPc.handOf_call_of_ne (hctl hhd)]
    exact WorkerPc.handOf_of_hand (afterControl_hand ..) k
  | controlAborts hw hhd =>
    refine .quiet rfl rfl ?_ fun _ => rfl
    rw [hw, WorkerPc.handOf_call_of_ne (hctl hhd)]
    rfl
  | badCall hw hhd =>
    refine .quiet rfl rfl ?_ fun _ => rfl
    rw [hw, WorkerPc.handOf_call_of_ne]
    · rfl
    · rintro rfl
      rw [ha.handler] at hhd
      cases hhd
  | begin hw | take hw | again hw | pause hw | resume hw =>
    exact .quiet rfl rfl (by rw [hw]; rfl) fun _ => rfl
  | poll hw hpoll =>
    exact .quiet rfl rfl (by rw [hw]; rfl) fun _ => hpoll.messages a
  | examine hw | returned _ hw =>
    refine .quiet rfl rfl ?_ fun _ => rfl
    rw [hw]
    exact WorkerPc.handOf_of_hand (by simp) k
  | free hu =>
    rename_i u mq
    refine .quiet rfl rfl rfl fun halive => ?_
    by_cases hm : mq = a
    · subst hm
      obtain ⟨q, hq⟩ := halive
      have hd := dead_of_free hl.slots.registry (.free hu) (u := u) (.inr rfl)
      rw [hd] at hq
      cases hq
    · refine hmsg (by simp) (fun v hv => ?_) (by simp)
      injection hv with _ e
      exact hm e
  | op o hrun =>
    obtain ⟨b, msg, rfl, -, -⟩ := hp
    have e := Memory.run_effect hrun
    by_cases hb : b = a
    · subst hb
      cases e with
      | refuse hst =>
        refine .quiet ?_ rfl rfl fun _ => rfl
        unfold Label.pushed?
        split
        · rename_i hx
          injection hx with _ hx
          injection hx with hx
          exact absurd hx hst
        · rfl
      | push hq hid hne =>
        have e := Memory.Effect.push hq hid hne
        rcases e.messages_push with ⟨hst, -⟩ | ⟨-, hmsg⟩
        · exact absurd rfl hst
        · exact .push _ (if_pos rfl) rfl rfl hmsg
    · refine .quiet ?_ rfl rfl fun _ => hmsg (by simp) (by simp) ?_
      · unfold Label.pushed?
        split
        · rename_i hx
          injection hx with hx
          injection hx with hx
          rw [if_neg (by rw [← hx]; exact hb)]
        · rfl
      · intro msg' r hx
        injection hx with hx
        injection hx with hx
        exact hb hx
  | _ => exact .quiet rfl rfl rfl fun _ => hmsg (by simp) (by simp) (by simp)

theorem Step.handled {msg : Message (Body A T U)} (hs : Step mqControl s (.handle k h msg) t) :
    s.handler[k]? = some (some (.client h)) := by
  generalize hx : (Label.handle k h msg : Label A T H U) = x at hs
  cases hs with
  | handle _ hhd =>
    injection hx with e₁ e₂
    rw [e₁, e₂]
    exact hhd
  | _ => cases hx

/-- What has become of the messages for a queue since it was made. -/
structure Delivered (a : A) (k : ℕ) (h : H) (ls : List (Label A T H U)) (s : State A T H U σ) :
    Prop where
  assigned : Assigned a k h s
  own : ∀ h' msg, Label.handle k h' msg ∈ ls → h' = h
  before : handled k ls ++ s.worker.handOf k <+: pushed a ls
  rest : (∃ q, s.memory.object a = .alive q) →
    pushed a ls = handled k ls ++ s.worker.handOf k ++ s.memory.messages a

theorem Delivered.step {ls : List (Label A T H U)} (hd : Delivered a k h ls s)
    (hl : Listening mqControl capacity s) (hp : x.Pushes mqControl s)
    (hs : Step mqControl s x t) : Delivered a k h (ls ++ [x]) t := by
  -- who is alive was alive, since a name is used once
  have halive : (∃ q, t.memory.object a = .alive q) → ∃ q, s.memory.object a = .alive q := by
    rintro ⟨q, hq⟩
    cases ho : s.memory.object a with
    | alive p => exact ⟨p, rfl⟩
    | unborn => exact absurd ho hd.assigned.born
    | dead =>
      rw [hs.dead ho] at hq
      cases hq
  have hown : ∀ h' msg, Label.handle k h' msg ∈ ls ++ [x] → h' = h := by
    intro h' msg hmem
    rcases List.mem_append.mp hmem with hmem | hmem
    · exact hd.own h' msg hmem
    · obtain rfl := List.mem_singleton.mp hmem
      have hh := hs.handled
      rw [hd.assigned.handler] at hh
      cases hh
      rfl
  have hbefore := hd.before
  have hrest := hd.rest
  refine ⟨hd.assigned.step hp hs, hown, ?_, ?_⟩
  · rw [pushed_snoc, handled_snoc]
    cases hd.assigned.passes hl hp hs with
    | push msg h1 h2 h3 h4 =>
      rw [h1, h2, h3]
      simpa using hbefore.trans (List.prefix_append ..)
    | pop msg h1 h2 h3 h4 h5 =>
      -- the message was the first in the queue
      have hs := hrest (Memory.alive_of_mem_messages (h5 ▸ List.mem_cons_self))
      rw [h3, h5] at hs
      exact ⟨t.memory.messages a, by simp [h1, h2, h4, hs]⟩
    | handle msg h1 h2 h3 h4 h5 =>
      subst h2
      rw [h1, h4]
      rw [h3] at hbefore
      simpa [Label.handled?] using hbefore
    | quiet h1 h2 h3 =>
      rw [h1, h2, h3]
      simpa using hbefore
  · intro ht
    have hrest := hrest (halive ht)
    rw [pushed_snoc, handled_snoc]
    cases hd.assigned.passes hl hp hs with
    | push msg h1 h2 h3 h4 => simp [h1, h2, h3, h4, hrest]
    | pop msg h1 h2 h3 h4 h5 => simp [h1, h2, h3, h4, h5, hrest]
    | handle msg h1 h2 h3 h4 h5 =>
      subst h2
      simp [h1, h3, h4, h5, hrest, Label.handled?]
    | quiet h1 h2 h3 h4 => simp [h1, h2, h3, h4 ht, hrest]

/-! ### All queues -/

/-- What has become of all messages. -/
structure Deliveries (mqControl : A) (capacity : ℕ) (ls : List (Label A T H U))
    (s : State A T H U σ) : Prop where
  listening : Listening mqControl capacity s
  made : ∀ u h a k, Label.allocate u h a k ∈ ls → Delivered a k h ls s
  unborn : ∀ a, s.memory.object a = .unborn → pushed a ls = []
  empty : ∀ k, s.handler[k]? = some none → ∀ h msg, Label.handle k h msg ∉ ls

omit [DecidableEq A] [DecidableEq T] [Semaphore σ] in
theorem handled_eq_nil {ls : List (Label A T H U)} (h : ∀ h' msg, Label.handle k h' msg ∉ ls) :
    handled k ls = [] := by
  apply List.filterMap_eq_nil_iff.mpr
  intro x hx
  unfold Label.handled?
  split
  · rename_i slot h' msg
    apply if_neg
    rintro rfl
    exact h h' msg hx
  · rfl

theorem Step.pushed? (hs : Step mqControl s x t) {msg : Message (Body A T U)}
    (hx : x.pushed? a = some msg) : ∃ q, s.memory.object a = .alive q := by
  unfold Label.pushed? at hx
  split at hx
  · split at hx
    · rename_i b m hb
      subst hb
      generalize hx :
        (Label.op (.push b (some m)) (.pushed .success none) : Label A T H U) = x at hs
      cases hs with
      | op o hrun =>
        injection hx with h1 h2
        subst h1 h2
        have e := Memory.run_effect hrun
        cases e with
        | push hq => exact ⟨_, hq⟩
      | _ => cases hx
    · cases hx
  · cases hx

theorem Listening.handOf (h : Listening mqControl capacity s) (hk : s.handler[k]? = some none) :
    s.worker.handOf k = [] := by
  cases hw : s.worker with
  | call rec msg mqlist =>
    refine WorkerPc.handOf_call_of_ne ?_ msg mqlist
    rintro rfl
    obtain ⟨b, q, -, -, -, -, hcase⟩ := h.source (by rw [hw]; exact List.mem_cons_self)
    rcases hcase with ⟨-, e⟩ | ⟨-, -, hd, hh⟩
    · rw [e, h.slots.control] at hk
      cases hk
    · rw [hh] at hk
      cases hk
  | _ => rfl

/-- **A queue that is made now** has no messages, and its slot has handled none. -/
theorem Deliveries.allocate {ls : List (Label A T H U)} (hd : Deliveries mqControl capacity ls s)
    {u : T} (hs : Step mqControl s (.allocate u h a k) t) :
    Delivered a k h (ls ++ [.allocate u h a k]) t := by
  have ha := hs.allocates
  have hpushed : pushed a (ls ++ [.allocate u h a k]) = [] := by
    rw [pushed_snoc, hd.unborn a ha.unborn]
    rfl
  have hno : ∀ h' msg, Label.handle k h' msg ∉ ls ++ [.allocate u h a k] := by
    intro h' msg hmem
    rcases List.mem_append.mp hmem with hmem | hmem
    · exact hd.empty k ha.empty h' msg hmem
    · cases List.mem_singleton.mp hmem
  have hhandled : handled k (ls ++ [.allocate u h a k]) = [] := handled_eq_nil hno
  have hhand : t.worker.handOf k = [] := by
    rw [ha.worker]
    exact hd.listening.handOf ha.empty
  refine ⟨ha.assigned hd.listening.slots, fun h' msg hmem => absurd hmem (hno h' msg), ?_, ?_⟩
  · rw [hhandled, hhand]
    exact List.nil_prefix
  · intro _
    rw [hpushed, hhandled, hhand, ha.memory, Memory.messages_write, if_pos rfl]
    rfl

theorem Deliveries.step {ls : List (Label A T H U)} (hd : Deliveries mqControl capacity ls s)
    (hp : x.Pushes mqControl s) (hs : Step mqControl s x t) :
    Deliveries mqControl capacity (ls ++ [x]) t := by
  refine ⟨hd.listening.step hp hs, ?_, ?_, ?_⟩
  · intro u h a k hmem
    rcases List.mem_append.mp hmem with hmem | hmem
    · exact (hd.made u h a k hmem).step hd.listening hp hs
    · obtain rfl := List.mem_singleton.mp hmem
      exact hd.allocate hs
  · intro a ha
    have hborn : s.memory.object a = .unborn := by
      by_contra hne
      exact hs.born hne ha
    rw [pushed_snoc, hd.unborn a hborn]
    cases hx : x.pushed? a with
    | none => rfl
    | some msg =>
      obtain ⟨q, hq⟩ := hs.pushed? hx
      rw [hq] at hborn
      cases hborn
  · intro k hk h msg hmem
    have hempty : s.handler[k]? = some none := by
      rcases hs.handler with ⟨hh, -⟩ | ⟨u, hd, mq, -, -, hlt, hh, -⟩
      · rw [← hh, hk]
      · rw [hh, List.getElem?_set] at hk
        split at hk
        · cases hk
        · exact hk
    rcases List.mem_append.mp hmem with hmem | hmem
    · exact hd.empty k hempty h msg hmem
    · obtain rfl := List.mem_singleton.mp hmem
      rw [hs.handled] at hempty
      cases hempty

theorem deliveries_run {ls : List (Label A T H U)}
    (hr : Run (pushing mqControl capacity) (.initial mqControl capacity) ls s) :
    Deliveries mqControl capacity ls s :=
  hr.history_invariant (S := pushing mqControl capacity) (P := Deliveries mqControl capacity)
    (fun _ _ _ _ h hx => h.step hx.1 hx.2)
    ⟨listening_initial mqControl capacity, by simp, fun _ _ => rfl, by simp⟩

/-- **Delivery is exactly once, in order and complete.**  The handler of a queue was called
with a prefix of what was pushed into the queue; and with all of it where the queue is in
`_mqs` and the worker waits with an empty list. -/
theorem delivered_run {ls : List (Label A T H U)}
    (hr : Run (pushing mqControl capacity) (.initial mqControl capacity) ls s) {u : T}
    (hmade : Label.allocate u h a k ∈ ls) :
    handled k ls <+: pushed a ls ∧ (∀ h' msg, Label.handle k h' msg ∈ ls → h' = h) ∧
      ∀ range, s.worker = .poll (.wait range) → s.memory.notifications .worker = [] →
        a ∈ s.mqs → handled k ls = pushed a ls := by
  have hd := deliveries_run hr
  have ha := hd.made u h a k hmade
  refine ⟨(List.prefix_append ..).trans ha.before, ha.own, ?_⟩
  intro range hw hn hmem
  rw [ha.rest (hd.listening.alive hmem), hd.listening.blocked hw hn a hmem, hw]
  simp [WorkerPc.handOf]

/-- A message is pushed into the one queue there is, and handled. -/
theorem delivered_run_one : ∃ ls, ∃ s : State ℕ Unit Unit Unit ℕ,
    Run (pushing 0 1) one ls s ∧ handled 1 ls = [⟨1, 7, .user ()⟩] ∧
      handled 1 ls <+: pushed 1 ls := by
  have hround : Run (system 0 1) (oneAdded 0).1
      (.op (.push 1 (some ⟨1, 7, .user ()⟩)) (.pushed .success none) ::
        (taking 2 ⟨1, some 1, Flag.data⟩ ++ [.handle 1 () ⟨1, 7, .user ()⟩])) _ :=
    .cons (.op _ rfl)
      (run_taking rfl rfl (List.nodup_range (n := 2)) (by decide) rfl (by decide) ⟨_, rfl⟩
        (by exact List.forall_mem_singleton.mpr ⟨_, rfl⟩)
      (.single (.handle_call rfl rfl rfl)))
  have hrun : Run (pushing 0 1) one _ _ := ((oneAdded 0).2.append hround).of_labels
    (by simp [allocating, taking, Label.Pushes, request?])
  exact ⟨_, _, hrun, rfl, (delivered_run hrun (u := ()) (h := ()) (by simp [allocating])).1⟩

/-! ### Deleted queues -/

theorem dead_run {ls : List (Label A T H U)}
    (hr : Run (pushing mqControl capacity) (.initial mqControl capacity) ls s) :
    ∀ u a, Label.free u a ∈ ls → s.memory.object a = .dead := by
  refine (hr.history_invariant (P := fun ls s => Slots mqControl capacity s ∧
    ∀ u a, Label.free u a ∈ ls → s.memory.object a = .dead) (fun ls s x t h hx => ?_)
    ⟨slots_initial mqControl capacity, by simp⟩).2
  refine ⟨h.1.step hx.1 hx.2, fun u a hu => dead_of_free (u := u) h.1.registry hx.2 ?_⟩
  rcases List.mem_append.mp hu with hu | hu
  · exact .inl (h.2 u a hu)
  · exact .inr (List.mem_singleton.mp hu).symm

theorem Step.pop_mem {rec : NotificationRec A} (hs : Step mqControl s (.pop rec) t) :
    rec ∈ s.worker.records := by
  generalize hx : (Label.pop rec : Label A T H U) = x at hs
  cases hs with
  | pop hw | popNothing hw =>
    cases hx
    rw [hw]
    exact List.mem_cons_self
  | _ => cases hx

theorem Step.handle_mem {msg : Message (Body A T U)} (hs : Step mqControl s (.handle k h msg) t) :
    ∃ rec ∈ s.worker.records, rec.qid = k := by
  generalize hx : (Label.handle k h msg : Label A T H U) = x at hs
  cases hs with
  | handle hw =>
    injection hx with e
    exact ⟨_, by rw [hw]; exact List.mem_cons_self, e.symm⟩
  | _ => cases hx

/-- The worker does not pop from the queue, nor call the handler of its slot. -/
def Silent (a : A) (k : ℕ) (ls : List (Label A T H U)) : Prop :=
  ∀ x ∈ ls, (∀ rec, x = .pop rec → rec.mq ≠ some a) ∧ ∀ h msg, x ≠ .handle k h msg

/-- **The handler of a queue that was deleted is not called again**, nor is the queue touched:
no record of it was left with the worker when it went out of `_mqs`. -/
theorem deleted_silent {ls₁ ls₂ : List (Label A T H U)} {u v : T}
    (hr : Run (pushing mqControl capacity) (.initial mqControl capacity)
      (ls₁ ++ .free u a :: ls₂) s) (hmade : Label.allocate v h a k ∈ ls₁) :
    Silent a k ls₂ := by
  intro x hx
  obtain ⟨l, r, rfl⟩ := List.append_of_mem hx
  have e : ls₁ ++ .free u a :: (l ++ x :: r) = (ls₁ ++ .free u a :: l) ++ x :: r := by simp
  rw [e] at hr
  obtain ⟨w, hw, hrest⟩ := Transition.Run.append_iff.mp hr
  obtain ⟨w', hstep, -⟩ := Transition.Run.cons_iff.mp hrest
  have hd := deliveries_run hw
  have hdead := dead_run hw u a (by simp)
  have hass := (hd.made v h a k (by simp [hmade])).assigned
  -- what the worker still has records of is alive
  have hmq : ∀ rec ∈ w.worker.records, rec.mq ≠ some a := by
    intro rec hrec hra
    obtain ⟨b, q, hb, hq, -⟩ := hd.listening.source hrec
    obtain rfl := Option.some.inj (hra.symm.trans hb)
    rw [hdead] at hq
    cases hq
  refine ⟨?_, ?_⟩
  · rintro rec rfl
    exact hmq rec hstep.2.pop_mem
  · rintro h' msg rfl
    obtain ⟨rec, hrec, hk⟩ := hstep.2.handle_mem
    exact hmq rec hrec ((hass.mq hd.listening hrec).mp hk)

/-- One of two queues is deleted, and the handler of the other one is called. -/
theorem deleted_silent_two :
    (∃ ls, ∃ s : State ℕ Unit Unit Unit ℕ, Run (pushing 0 2) (pool 2) (ls ++ .free () 1 ::
      .op (.push 2 (some ⟨2, 7, .user ()⟩)) (.pushed .success none) ::
        (taking 2 ⟨2, some 2, Flag.data⟩ ++ [.handle 2 () ⟨2, 7, .user ()⟩])) s) ∧
    Silent (A := ℕ) (T := Unit) (H := Unit) (U := Unit) 1 1
      (.op (.push 2 (some ⟨2, 7, .user ()⟩)) (.pushed .success none) ::
        (taking 2 ⟨2, some 2, Flag.data⟩ ++ [.handle 2 () ⟨2, 7, .user ()⟩])) := by
  have hround : Run (system 0 2) twoDeleted.1
      (.op (.push 2 (some ⟨2, 7, .user ()⟩)) (.pushed .success none) ::
        (taking 2 ⟨2, some 2, Flag.data⟩ ++ [.handle 2 () ⟨2, 7, .user ()⟩])) _ :=
    .cons (.op _ rfl)
      (run_taking rfl rfl (by decide) (by decide) rfl (by decide) ⟨_, rfl⟩
        (by exact List.forall_mem_singleton.mpr ⟨_, rfl⟩)
      (.single (.handle_call rfl rfl rfl)))
  have hpushing : Run (pushing 0 2) (pool 2) _ _ :=
    ((oneAdded 1).2.append (twoAdded.2.append (twoDeleted.2.append hround))).of_labels
      (by simp [allocating, deleting, taking, Label.Pushes, request?])
  have hrun : Run (pushing 0 2) (pool 2) ((allocating 1 1 ++ (allocating 2 2 ++
      (deleting 1 3).dropLast)) ++ .free () 1 :: _) _ := hpushing
  exact ⟨⟨_, _, hrun⟩, deleted_silent hrun (v := ()) (h := ()) (by simp [allocating])⟩

end Mqmx.Pool
