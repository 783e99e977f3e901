import Mqmx.Queue.Told

/-!
# What listeners are told, exactly

Who sees the operations on queues and what they return can say what every listener is
told, without a look at a queue.  He keeps a `View` of each queue (`observe`): its id, how
many messages it has, and its listener.  `notices` says from the views what an operation
is to tell, by which queue.

`exact_notifications`: in every run that is what the queues tell their listeners.
-/

namespace Mqmx

open Transition (System Run)

variable {A β L : Type}

/-- What is known of a queue. -/
structure View (L : Type) where
  id : ℕ
  count : ℕ
  listener : Option L

/-- A call of `notify`, with the queue it is from. -/
structure Notice (A L : Type) where
  sender : A
  listener : L
  call : Notification A

/-- The call that a notice stands for. -/
def Notice.told (n : Notice A L) : L × Notification A := (n.listener, n.call)

section Spec

variable [DecidableEq A]

/-- The queue at `a` has its content and its id from `o`, which has neither any more. -/
def handOver (a o : A) (k : A → Option (View L)) : A → Option (View L) :=
  Function.update (Function.update k a ((k o).map fun v => { v with listener := none })) o
    ((k o).map fun _ => ⟨undefinedQid, 0, none⟩)

/-- What is known after an operation, from what it returned. -/
def observe (k : A → Option (View L)) : Op A β L × Op.Reply β → A → Option (View L)
  | (.construct a id, _) => Function.update k a (some ⟨id, 0, none⟩)
  | (.moveConstruct a o, _) => handOver a o k
  | (.moveAssign a o, _) => if a = o then k else handOver a o k
  | (.destroy a, _) => Function.update k a none
  | (.push a _, .pushed .success _) =>
    Function.update k a ((k a).map fun v => { v with count := v.count + 1 })
  | (.pop a, .message (some _)) =>
    Function.update k a ((k a).map fun v => { v with count := v.count - 1 })
  | (.setListener a l, .status .success) =>
    Function.update k a ((k a).map fun v => { v with listener := some l })
  | (.clearListener a, _) =>
    Function.update k a ((k a).map fun v => { v with listener := none })
  | _ => k

/-- The listener of a queue, where it has one, is told `flag`. -/
def tell (k : A → Option (View L)) (a : A) (mq : Option A) (flag : Flags) : List (Notice A L) :=
  match k a with
  | some ⟨id, _, some l⟩ => [⟨a, l, ⟨id, mq, flag⟩⟩]
  | _ => []

/-- **What an operation tells**: data when a listener is set for a queue with messages, and
when one is pushed into an empty queue; detached by the queues that a move takes the
content of; closed by a queue that is destroyed. -/
def notices (k : A → Option (View L)) : Op A β L × Op.Reply β → List (Notice A L)
  | (.setListener a l, .status .success) =>
    match k a with
    | some v => if v.count ≠ 0 then [⟨a, l, ⟨v.id, some a, Flag.data⟩⟩] else []
    | none => []
  | (.push a _, .pushed .success _) =>
    match k a with
    | some v => if v.count = 0 then tell k a (some a) Flag.data else []
    | none => []
  | (.moveConstruct _ o, _) => tell k o (some o) Flag.detached
  | (.moveAssign a o, _) =>
    if a = o then [] else tell k a (some a) Flag.detached ++ tell k o (some o) Flag.detached
  | (.destroy a, _) => tell k a none Flag.closed
  | _ => []

/-- What is known after these operations, from the first queue on. -/
def known (ls : List (Op A β L × Op.Reply β)) : A → Option (View L) :=
  ls.foldl observe fun _ => none

def noticesFrom (k : A → Option (View L)) : List (Op A β L × Op.Reply β) → List (Notice A L)
  | [] => []
  | x :: ls => notices k x ++ noticesFrom (observe k x) ls

@[simp] theorem known_snoc (ls : List (Op A β L × Op.Reply β)) (x : Op A β L × Op.Reply β) :
    known (ls ++ [x]) = observe (known ls) x := by
  rw [known, List.foldl_append]
  rfl

theorem noticesFrom_snoc (k : A → Option (View L)) (ls : List (Op A β L × Op.Reply β))
    (x : Op A β L × Op.Reply β) :
    noticesFrom k (ls ++ [x]) = noticesFrom k ls ++ notices (ls.foldl observe k) x := by
  induction ls generalizing k with
  | nil => simp [noticesFrom]
  | cons y ls ih => simp [noticesFrom, ih]

end Spec

/-! ### One operation -/

/-- What there is to know of an object. -/
def Object.view : Object β L → Option (View L)
  | .alive q => some ⟨q.id, q.queue.length, q.listener⟩
  | _ => none

/-- The views are those of the queues. -/
def Knows (k : A → Option (View L)) (s : Queues A β L) : Prop := ∀ a, k a = (s.object a).view

section Step

variable {k : A → Option (View L)} {s t : Queues A β L}

theorem Knows.notify (h : Knows k s) (listener : Option L) (qid : ℕ) (mq : Option A)
    (flag : Flags) : Knows k (s.notify listener qid mq flag) := by
  cases listener <;> exact h

@[simp] theorem object_notify (listener : Option L) (qid : ℕ) (mq : Option A) (flag : Flags)
    (s : Queues A β L) : (s.notify listener qid mq flag).object = s.object := by
  cases listener <;> rfl

theorem Knows.view (h : Knows k s) {a : A} {q : MessageQueue β L} (ha : s.object a = .alive q) :
    k a = some ⟨q.id, q.queue.length, q.listener⟩ := by
  rw [h a, ha]
  rfl

@[simp] theorem told_notify (listener : Option L) (qid : ℕ) (mq : Option A) (flag : Flags)
    (s : Queues A β L) :
    (s.notify listener qid mq flag).told =
      s.told ++ listener.toList.map fun l => (l, ⟨qid, mq, flag⟩) := by
  cases listener <;> simp [Queues.notify]

theorem Knows.tell (h : Knows k s) {a : A} {q : MessageQueue β L} (ha : s.object a = .alive q)
    (mq : Option A) (flag : Flags) :
    (Mqmx.tell k a mq flag).map Notice.told =
      q.listener.toList.map fun l => (l, ⟨q.id, mq, flag⟩) := by
  rw [Mqmx.tell, h.view ha]
  cases q.listener <;> rfl

variable [DecidableEq A]

theorem Knows.write (h : Knows k s) (a : A) (q : MessageQueue β L) :
    Knows (Function.update k a (some ⟨q.id, q.queue.length, q.listener⟩)) (s.write a q) := by
  intro b
  simp only [Queues.write, Function.update_apply]
  split
  · rfl
  · exact h b

theorem Knows.free (h : Knows k s) (a : A) : Knows (Function.update k a none) (s.free a) := by
  intro b
  simp only [Queues.free, Function.update_apply]
  split
  · rfl
  · exact h b

@[simp] theorem told_write (a : A) (q : MessageQueue β L) (s : Queues A β L) :
    (s.write a q).told = s.told := rfl

theorem Knows.handOver (h : Knows k s) {a o : A} {q : MessageQueue β L}
    (ho : s.object o = .alive q) :
    Knows (Mqmx.handOver a o k)
      ((s.write a ⟨q.id, q.queue, none⟩).write o ⟨undefinedQid, [], none⟩) := by
  have hw := (h.write a ⟨q.id, q.queue, none⟩).write o ⟨undefinedQid, [], none⟩
  rw [Mqmx.handOver, h.view ho]
  exact hw

/-- After an operation the views are still those of the queues, and what it has told is what
they said. -/
structure Observed (k : A → Option (View L)) (s : Queues A β L) (x : Op A β L × Op.Reply β)
    (t : Queues A β L) : Prop where
  knows : Knows (observe k x) t
  told : t.told = s.told ++ (notices k x).map Notice.told

theorem Knows.construct (h : Knows k s) {a : A} {id : ℕ}
    (hm : MessageQueue.construct a id s = some t) :
    Observed k s (.construct a id, .done) t := by
  unfold MessageQueue.construct at hm
  split at hm
  · cases hm
    exact ⟨h.write a ⟨id, [], none⟩, by simp [notices]⟩
  · cases hm

theorem Knows.moveConstruct (h : Knows k s) {a o : A}
    (hm : MessageQueue.moveConstruct a o s = some t) :
    Observed k s (.moveConstruct a o, .done) t := by
  unfold MessageQueue.moveConstruct at hm
  split at hm
  · rename_i q _ ho
    cases hm
    exact ⟨(h.handOver ho).notify _ _ _ _, by simp [notices, h.tell ho]⟩
  · cases hm

theorem Knows.moveAssign (h : Knows k s) {a o : A}
    (hm : MessageQueue.moveAssign a o s = some t) :
    Observed k s (.moveAssign a o, .done) t := by
  unfold MessageQueue.moveAssign at hm
  split at hm
  · rename_i p q ha ho
    split at hm
    · rename_i hao
      cases hm
      exact ⟨by rw [observe, if_pos hao]; exact h, by simp [notices, hao]⟩
    · rename_i hao
      cases hm
      refine ⟨?_, by simp [notices, hao, h.tell ha, h.tell ho]⟩
      rw [observe, if_neg hao]
      exact ((h.notify _ _ _ _).handOver ((congrFun (object_notify ..) o).trans ho)).notify _ _ _ _
  · cases hm

theorem Knows.destroy (h : Knows k s) {a : A} (hm : MessageQueue.destroy a s = some t) :
    Observed k s (.destroy a, .done) t := by
  obtain ⟨q, hq, rfl⟩ := Option.map_eq_some_iff.mp hm
  refine ⟨(h.notify _ _ _ _).free a, ?_⟩
  simp [Queues.free, notices, h.tell (Object.queue?_eq_some.mp hq)]

theorem Knows.push (h : Knows k s) {a : A} {msg left : Option (Message β)} {st : ExitStatus}
    (hm : MessageQueue.push a msg s = some (st, left, t)) :
    Observed k s (.push a msg, .pushed st left) t := by
  obtain ⟨q, hq, e⟩ := Option.map_eq_some_iff.mp hm
  have ha := Object.queue?_eq_some.mp hq
  cases msg with
  | none =>
    cases e
    exact ⟨h, by simp [notices]⟩
  | some msg =>
    by_cases hid : q.id = undefinedQid ∨ q.id ≠ msg.qid
    · simp only [if_pos hid] at e
      cases e
      exact ⟨h, by simp [notices]⟩
    simp only [if_neg hid] at e
    cases e
    have hw : Knows (observe k (.push a (some msg), .pushed .success none))
        (s.write a { q with queue := q.queue ++ [msg] }) := by
      simp only [observe, h.view ha]
      simpa using h.write a { q with queue := q.queue ++ [msg] }
    by_cases hc : q.queue = []
    · have hone : (q.queue ++ [msg]).length = 1 := by simp [hc]
      rw [if_pos hone]
      exact ⟨hw.notify _ _ _ _, by simp [notices, h.view ha, hc, h.tell ha]⟩
    · have hone : (q.queue ++ [msg]).length ≠ 1 := by simpa using hc
      rw [if_neg hone]
      exact ⟨hw, by simp [notices, h.view ha, hc]⟩

theorem Knows.pop (h : Knows k s) {a : A} {msg : Option (Message β)}
    (hm : MessageQueue.pop a s = some (msg, t)) : Observed k s (.pop a, .message msg) t := by
  obtain ⟨q, hq, e⟩ := Option.map_eq_some_iff.mp hm
  cases hc : q.queue with
  | nil =>
    simp only [hc] at e
    cases e
    exact ⟨h, by simp [notices]⟩
  | cons x rest =>
    simp only [hc] at e
    by_cases hid : q.id = undefinedQid
    · rw [if_pos hid] at e
      cases e
      exact ⟨h, by simp [notices]⟩
    · rw [if_neg hid] at e
      cases e
      refine ⟨?_, by simp [notices]⟩
      simp only [observe, h.view (Object.queue?_eq_some.mp hq), hc]
      simpa using h.write a { q with queue := rest }

/-- **`set_listener` on a queue that has a listener is refused**, and otherwise accepted. -/
theorem Knows.setListener_cases (h : Knows k s) {a : A} {l : L} {r : Op.Reply β}
    (e : (Op.setListener a l).exec s = some (r, t)) {v : View L} (ha : k a = some v) :
    (v.listener ≠ none ∧ r = .status .alreadyExist ∧ t = s) ∨
      (v.listener = none ∧ r = .status .success) := by
  obtain ⟨_, hm, e⟩ := Option.map_eq_some_iff.mp e
  cases e
  obtain ⟨q, hq, rfl⟩ := Option.map_eq_some_iff.mp hm
  rw [h.view (Object.queue?_eq_some.mp hq)] at ha
  cases ha
  cases hl : q.listener with
  | some j => exact .inl ⟨by simp, rfl, rfl⟩
  | none => exact .inr ⟨rfl, rfl⟩

theorem Knows.setListener (h : Knows k s) {a : A} {l : L} {st : ExitStatus}
    (hm : MessageQueue.setListener a l s = some (st, t)) :
    Observed k s (.setListener a l, .status st) t := by
  obtain ⟨q, hq, e⟩ := Option.map_eq_some_iff.mp hm
  have ha := Object.queue?_eq_some.mp hq
  cases hl : q.listener with
  | some j =>
    simp only [hl] at e
    cases e
    exact ⟨h, by simp [notices]⟩
  | none =>
    simp only [hl] at e
    cases e
    have hw : Knows (observe k ((.setListener a l : Op A β L), .status .success))
        (s.write a { q with listener := some l }) := by
      simp only [observe, h.view ha]
      simpa using h.write a { q with listener := some l }
    by_cases hc : q.queue = []
    · rw [if_neg (not_not_intro hc)]
      exact ⟨hw, by simp [notices, h.view ha, hc]⟩
    · rw [if_pos hc]
      exact ⟨hw.notify _ _ _ _, by simp [notices, h.view ha, hc, Notice.told]⟩

theorem Knows.clearListener (h : Knows k s) {a : A}
    (hm : MessageQueue.clearListener a s = some t) :
    Observed k s (.clearListener a, .done) t := by
  obtain ⟨q, hq, rfl⟩ := Option.map_eq_some_iff.mp hm
  refine ⟨?_, by simp [notices]⟩
  simp only [observe, h.view (Object.queue?_eq_some.mp hq)]
  exact h.write a { q with listener := none }

theorem Knows.exec (h : Knows k s) {op : Op A β L} {r : Op.Reply β} (e : op.exec s = some (r, t)) :
    Observed k s (op, r) t := by
  cases op with
  | construct =>
    obtain ⟨_, hm, ⟨⟩⟩ := Option.map_eq_some_iff.mp e
    exact h.construct hm
  | moveConstruct =>
    obtain ⟨_, hm, ⟨⟩⟩ := Option.map_eq_some_iff.mp e
    exact h.moveConstruct hm
  | moveAssign =>
    obtain ⟨_, hm, ⟨⟩⟩ := Option.map_eq_some_iff.mp e
    exact h.moveAssign hm
  | destroy =>
    obtain ⟨_, hm, ⟨⟩⟩ := Option.map_eq_some_iff.mp e
    exact h.destroy hm
  | push =>
    obtain ⟨_, hm, ⟨⟩⟩ := Option.map_eq_some_iff.mp e
    exact h.push hm
  | pop =>
    obtain ⟨_, hm, ⟨⟩⟩ := Option.map_eq_some_iff.mp e
    exact h.pop hm
  | setListener =>
    obtain ⟨_, hm, ⟨⟩⟩ := Option.map_eq_some_iff.mp e
    exact h.setListener hm
  | clearListener =>
    obtain ⟨_, hm, ⟨⟩⟩ := Option.map_eq_some_iff.mp e
    exact h.clearListener hm

end Step

/-! ### After the listener is gone -/

section History

variable [DecidableEq A] {k : A → Option (View L)} {x : Op A β L × Op.Reply β} {a : A}

def Deaf (k : A → Option (View L)) (a : A) : Prop := ∀ v, k a = some v → v.listener = none

/-- A listener is set for the queue. -/
def Sets (x : Op A β L × Op.Reply β) (a : A) : Prop :=
  ∃ l, x = (.setListener a l, .status .success)

/-- The queue is done with its listener: detached, closed, or the listener is cleared. -/
def Drops (k : A → Option (View L)) (x : Op A β L × Op.Reply β) (a : A) : Prop :=
  x.1 = .clearListener a ∨
    ∃ n ∈ notices k x, n.sender = a ∧ (n.call.flag = Flag.detached ∨ n.call.flag = Flag.closed)

omit [DecidableEq A] in
theorem mem_tell {mq : Option A} {flag : Flags} {n : Notice A L} (h : n ∈ tell k a mq flag) :
    ∃ v, k a = some v ∧ v.listener = some n.listener ∧ n = ⟨a, n.listener, ⟨v.id, mq, flag⟩⟩ := by
  unfold tell at h
  split at h
  · rename_i id c l hk
    obtain rfl := List.mem_singleton.mp h
    exact ⟨_, hk, rfl, rfl⟩
  · cases h

theorem deaf_handOver {b o : A} (h : Deaf k a ∨ a = b ∨ a = o) : Deaf (handOver b o k) a := by
  intro v hv
  simp only [handOver, Function.update_apply] at hv
  split at hv
  · obtain ⟨w, -, rfl⟩ := Option.map_eq_some_iff.mp hv
    rfl
  split at hv
  · obtain ⟨w, -, rfl⟩ := Option.map_eq_some_iff.mp hv
    rfl
  · rename_i ho hb
    rcases h with h | h | h
    · exact h v hv
    · exact absurd h hb
    · exact absurd h ho

/-- **Every notice is from a queue that gets a listener, or has one**, and where it is not one
of data the queue has none any more. -/
theorem mem_notices {n : Notice A L} (h : n ∈ notices k x) :
    (Sets x n.sender ∧ n.call.flag = Flag.data) ∨
      ((∃ v, k n.sender = some v ∧ v.listener = some n.listener) ∧
        (n.call.flag = Flag.data ∨ Deaf (Mqmx.observe k x) n.sender)) := by
  have told : ∀ {b mq flag}, n ∈ tell k b mq flag →
      (n.sender = b → flag = Flag.data ∨ Deaf (Mqmx.observe k x) n.sender) →
      (∃ v, k n.sender = some v ∧ v.listener = some n.listener) ∧
        (n.call.flag = Flag.data ∨ Deaf (Mqmx.observe k x) n.sender) := by
    intro b mq flag h hflag
    obtain ⟨v, hk, hl, e⟩ := mem_tell h
    rw [e] at hflag ⊢
    exact ⟨⟨v, hk, hl⟩, hflag rfl⟩
  obtain ⟨op, r⟩ := x
  generalize hx : notices k (op, r) = v at h
  unfold notices at hx
  split at hx <;> subst hx
  · rename_i a l he
    cases he
    split at h
    · split at h
      · obtain rfl := List.mem_singleton.mp h
        exact .inl ⟨⟨l, rfl⟩, rfl⟩
      · cases h
    · cases h
  · split at h
    · split at h
      · exact .inr (told h fun _ => .inl rfl)
      · cases h
    · cases h
  · rename_i b o _ he
    cases he
    exact .inr (told h fun hs => .inr (deaf_handOver (.inr (.inr hs))))
  · rename_i b o _ he
    cases he
    split at h
    · cases h
    · rename_i hbo
      have hdeaf : n.sender = b ∨ n.sender = o →
          Deaf (Mqmx.observe k (.moveAssign b o, r)) n.sender := by
        rw [Mqmx.observe, if_neg hbo]
        exact fun hs => deaf_handOver (.inr hs)
      rcases List.mem_append.mp h with h | h
      · exact .inr (told h fun hs => .inr (hdeaf (.inl hs)))
      · exact .inr (told h fun hs => .inr (hdeaf (.inr hs)))
  · rename_i b _ he
    cases he
    refine .inr (told h fun hs => .inr ?_)
    intro w hw
    rw [Mqmx.observe, hs, Function.update_self] at hw
    cases hw
  · cases h

theorem Deaf.observe (h : Deaf k a) (hx : ¬ Sets x a) : Deaf (Mqmx.observe k x) a := by
  -- of a queue that is changed alone
  have one : ∀ {b : A} {w : Option (View L)}, (b = a → ∀ v, w = some v → v.listener = none) →
      Deaf (Function.update k b w) a := by
    intro b w hw v hv
    rw [Function.update_apply] at hv
    split at hv
    · rename_i e
      exact hw e.symm v hv
    · exact h v hv
  have same : ∀ {b : A} {f : View L → View L}, (∀ v, (f v).listener = v.listener) →
      Deaf (Function.update k b ((k b).map f)) a := by
    intro b f hf
    apply one
    rintro rfl v hv
    obtain ⟨w, hw, rfl⟩ := Option.map_eq_some_iff.mp hv
    rw [hf, h w hw]
  obtain ⟨op, r⟩ := x
  unfold Mqmx.observe
  split
  · exact one (by rintro - v ⟨⟩; rfl)
  · exact deaf_handOver (.inl h)
  · split
    · exact h
    · exact deaf_handOver (.inl h)
  · exact one (by rintro - v ⟨⟩)
  · exact same fun _ => rfl
  · exact same fun _ => rfl
  · rename_i b l he
    cases he
    apply one
    rintro rfl
    exact absurd ⟨l, rfl⟩ hx
  · apply one
    rintro - v hv
    obtain ⟨w, -, rfl⟩ := Option.map_eq_some_iff.mp hv
    rfl
  · exact h

/-- **After detached, closed or `clear_listener` a queue has no listener.** -/
theorem Drops.deaf (h : Drops k x a) : Deaf (Mqmx.observe k x) a := by
  obtain ⟨op, r⟩ := x
  rcases h with rfl | ⟨n, hn, rfl, hf⟩
  · intro v hv
    simp only [Mqmx.observe, Function.update_self] at hv
    obtain ⟨w, -, rfl⟩ := Option.map_eq_some_iff.mp hv
    rfl
  · have data : n.call.flag ≠ Flag.data := by
      intro e
      rw [e] at hf
      exact absurd hf (by decide)
    rcases mem_notices hn with ⟨-, e⟩ | ⟨-, e | hdeaf⟩
    · exact absurd e data
    · exact absurd e data
    · exact hdeaf

theorem Deaf.silent (ls : List (Op A β L × Op.Reply β)) :
    ∀ {k : A → Option (View L)}, Deaf k a → (∀ x ∈ ls, ¬ Sets x a) →
      ∀ n ∈ noticesFrom k ls, n.sender ≠ a := by
  induction ls with
  | nil => simp [noticesFrom]
  | cons x ls ih =>
    intro k h hls n hn
    have hx : ¬ Sets x a := hls x List.mem_cons_self
    rcases List.mem_append.mp hn with hn | hn
    · rintro rfl
      rcases mem_notices hn with ⟨hs, -⟩ | ⟨⟨v, hk, hl⟩, -⟩
      · exact hx hs
      · rw [h v hk] at hl
        cases hl
    · exact ih (h.observe hx) (fun y hy => hls y (List.mem_cons_of_mem _ hy)) n hn

/-! ### While a queue with a listener has messages -/

/-- The queue has messages, the id `i`, and the listener `l`. -/
def Busy (k : A → Option (View L)) (a : A) (l : L) (i : ℕ) : Prop :=
  ∃ n, k a = some ⟨i, n, some l⟩ ∧ n ≠ 0

omit [DecidableEq A] in
theorem Busy.not_deaf {l : L} {i : ℕ} (h : Busy k a l i) : ¬ Deaf k a := by
  obtain ⟨n, hk, -⟩ := h
  intro hd
  cases hd _ hk

theorem Busy.update {l : L} {i : ℕ} {b : A} {w : Option (View L)}
    (h : Busy (Function.update k b w) a l i) :
    Busy k a l i ∨ (a = b ∧ ∃ n, w = some ⟨i, n, some l⟩ ∧ n ≠ 0) := by
  obtain ⟨n, hk, hn⟩ := h
  rw [Function.update_apply] at hk
  split at hk
  · rename_i hab
    exact .inr ⟨hab, n, hk, hn⟩
  · exact .inl ⟨n, hk, hn⟩

theorem Busy.map {l : L} {i : ℕ} {b : A} {f : View L → View L}
    (h : Busy (Function.update k b ((k b).map f)) a l i) :
    Busy k a l i ∨ (a = b ∧ ∃ w n, k a = some w ∧ f w = ⟨i, n, some l⟩ ∧ n ≠ 0) := by
  rcases h.update with hold | ⟨rfl, n, hw, hn⟩
  · exact .inl hold
  · obtain ⟨w, hk, e⟩ := Option.map_eq_some_iff.mp hw
    exact .inr ⟨rfl, w, n, hk, e, hn⟩

theorem Busy.handOver {l : L} {i : ℕ} {b o : A} (h : Busy (Mqmx.handOver b o k) a l i) :
    Busy k a l i := by
  by_cases hao : a = b ∨ a = o
  · exact absurd (deaf_handOver (.inr hao)) h.not_deaf
  · push Not at hao
    rcases h.update with h | ⟨e, -⟩
    · rcases h.update with h | ⟨e, -⟩
      · exact h
      · exact absurd e hao.1
    · exact absurd e hao.2

/-- **A queue gets to be attached and not empty with a notice of data.** -/
theorem Busy.before {l : L} {i : ℕ} (h : Busy (Mqmx.observe k x) a l i)
    (hx : Sets x a → Deaf k a) :
    Busy k a l i ∨ ((∀ l' j, ¬ Busy k a l' j) ∧
      ⟨a, l, ⟨i, some a, Flag.data⟩⟩ ∈ notices k x) := by
  obtain ⟨op, r⟩ := x
  generalize he : Mqmx.observe k (op, r) = k' at h
  unfold Mqmx.observe at he
  split at he <;> subst he
  · rcases h.update with hold | ⟨-, n, hw, -⟩
    · exact .inl hold
    · cases hw
  · exact .inl h.handOver
  · split at h
    · exact .inl h
    · exact .inl h.handOver
  · rcases h.update with hold | ⟨-, n, hw, -⟩
    · exact .inl hold
    · cases hw
  · rename_i b msg hop
    cases hop
    rcases h.map with hold | ⟨rfl, ⟨j, m, o⟩, n, hw, e, -⟩
    · exact .inl hold
    cases e
    by_cases hm : m = 0
    · -- the first message
      subst hm
      refine .inr ⟨?_, by simp [notices, hw, tell]⟩
      rintro l' j' ⟨m', hw', hm'⟩
      rw [hw] at hw'
      cases hw'
      exact hm' rfl
    · exact .inl ⟨m, hw, hm⟩
  · rcases h.map with hold | ⟨rfl, ⟨j, m, o⟩, n, hw, e, hn⟩
    · exact .inl hold
    cases e
    refine .inl ⟨m, hw, ?_⟩
    rintro rfl
    exact hn rfl
  · rename_i b l' hop
    cases hop
    rcases h.map with hold | ⟨rfl, ⟨j, m, o⟩, n, hw, e, hn⟩
    · exact .inl hold
    cases e
    have hd := hx ⟨l, rfl⟩
    exact .inr ⟨fun l' j hb => hb.not_deaf hd, by simp [notices, hw, hn]⟩
  · rcases h.map with hold | ⟨rfl, w, n, hw, e, -⟩
    · exact .inl hold
    · cases e
  · exact .inl h

end History

/-! ### Runs -/

variable [DecidableEq A]

/-- **What listeners are told.**  `exact` says it all; the rest is what follows from it for
one queue: it is silent once it has dropped its listener, it refuses a second one, and while
it has one and messages there was a notice of data at the moment this came to be so. -/
structure Notified (ls : List (Op A β L × Op.Reply β)) (s : Queues A β L) : Prop where
  views : Knows (known ls) s
  exact : s.told = (noticesFrom (fun _ => none) ls).map Notice.told
  silent : ∀ ls₁ x ls₂ a, ls = ls₁ ++ x :: ls₂ → Drops (known ls₁) x a →
    (∀ y ∈ ls₂, ¬ Sets y a) → ∀ n ∈ noticesFrom (known (ls₁ ++ [x])) ls₂, n.sender ≠ a
  refused : ∀ a v l r t, known ls a = some v → v.listener ≠ none →
    (Queues.system A β L).step s (.setListener a l, r) t → r = .status .alreadyExist ∧ t = s
  reported : ∀ a l i, Busy (known ls) a l i → ∃ ls₁ x ls₂, ls = ls₁ ++ x :: ls₂ ∧
    (∀ l' j, ¬ Busy (known ls₁) a l' j) ∧
    ⟨a, l, ⟨i, some a, Flag.data⟩⟩ ∈ notices (known ls₁) x ∧
    ∀ p, p <+: ls₂ → Busy (known (ls₁ ++ x :: p)) a l i

theorem known_run {i s : Queues A β L} {ls : List (Op A β L × Op.Reply β)}
    (hi : (Queues.system A β L).init i) (hr : Run (Queues.system A β L) i ls s) :
    Knows (known ls) s ∧ s.told = (noticesFrom (fun _ => none) ls).map Notice.told := by
  refine hr.history_invariant (P := fun ls s => Knows (known ls) s ∧
    s.told = (noticesFrom (fun _ => none) ls).map Notice.told) (fun ls s x t h hx => ?_) ⟨?_, ?_⟩
  · obtain ⟨hk, ht⟩ := h.1.exec hx
    rw [known_snoc, noticesFrom_snoc, List.map_append, ← h.2]
    exact ⟨hk, ht⟩
  · intro a
    rw [hi.1 a]
    rfl
  · exact hi.2

theorem Knows.deaf_of_sets {k : A → Option (View L)} {s t : Queues A β L}
    {x : Op A β L × Op.Reply β} {a : A} (h : Knows k s) (hx : (Queues.system A β L).step s x t)
    (hs : Sets x a) : Deaf k a := by
  obtain ⟨l, rfl⟩ := hs
  intro v hv
  rcases h.setListener_cases hx hv with ⟨-, e, -⟩ | ⟨hn, -⟩
  · cases e
  · exact hn

/-- **The notifications of queues, exactly.** -/
theorem exact_notifications {i s : Queues A β L} {ls : List (Op A β L × Op.Reply β)}
    (hi : (Queues.system A β L).init i) (hr : Run (Queues.system A β L) i ls s) :
    Notified ls s := by
  obtain ⟨hk, ht⟩ := known_run hi hr
  refine ⟨hk, ht, ?_, ?_, ?_⟩
  · rintro ls₁ x ls₂ a - hx hls
    rw [known_snoc]
    exact hx.deaf.silent ls₂ hls
  · intro a v l r t hv hl hs
    rcases hk.setListener_cases hs hv with ⟨-, h⟩ | ⟨hn, -⟩
    · exact h
    · exact absurd hn hl
  · refine (hr.history_invariant (P := fun ls s => Run (Queues.system A β L) i ls s ∧
      ∀ a l j, Busy (known ls) a l j → ∃ ls₁ x ls₂, ls = ls₁ ++ x :: ls₂ ∧
        (∀ l' j', ¬ Busy (known ls₁) a l' j') ∧
        ⟨a, l, ⟨j, some a, Flag.data⟩⟩ ∈ notices (known ls₁) x ∧
        ∀ p, p <+: ls₂ → Busy (known (ls₁ ++ x :: p)) a l j)
      (fun ls s x t h hx => ?_) ⟨.nil i, ?_⟩).2
    · refine ⟨h.1.snoc hx, ?_⟩
      intro a l j hb
      have hb' := hb
      rw [known_snoc] at hb'
      rcases hb'.before ((known_run hi h.1).1.deaf_of_sets hx) with hold | ⟨hnot, hn⟩
      · obtain ⟨ls₁, y, ls₂, rfl, h1, h2, h3⟩ := h.2 a l j hold
        refine ⟨ls₁, y, ls₂ ++ [x], by simp, h1, h2, ?_⟩
        intro p hp
        rcases List.prefix_concat_iff.mp hp with rfl | hp
        · simpa using hb
        · exact h3 p hp
      · refine ⟨ls, x, [], rfl, hnot, hn, ?_⟩
        intro p hp
        rw [List.prefix_nil.mp hp]
        exact hb
    · rintro a l j ⟨n, hn, -⟩
      cases hn

/-- A queue with one message gets a listener, which is told at once and not of the second
message, and is destroyed. -/
def listened : List (Op Unit Unit Unit × Op.Reply Unit) :=
  [(.construct () 7, .done), (.push () (some ⟨7, 1, ()⟩), .pushed .success none),
    (.setListener () (), .status .success), (.push () (some ⟨7, 2, ()⟩), .pushed .success none),
    (.destroy (), .done)]

theorem exact_notifications_listened :
    ∃ s, Run (Queues.system Unit Unit Unit) ⟨fun _ => .unborn, []⟩ listened s ∧
      s.told = [((), ⟨7, some (), Flag.data⟩), ((), ⟨7, none, Flag.closed⟩)] := by
  have hrun : Run (Queues.system Unit Unit Unit) ⟨fun _ => .unborn, []⟩ listened _ :=
    .cons rfl (.cons rfl (.cons rfl (.cons rfl (.single rfl))))
  exact ⟨_, hrun, (exact_notifications ⟨fun _ => rfl, rfl⟩ hrun).exact⟩

/-! ### Poll listeners -/

/-- Queues with poll listeners. -/
def memories (A β L : Type) [DecidableEq A] [DecidableEq L] :
    System (Memory A β L) (Op A β L × Op.Reply β) where
  init m := (∀ a, m.object a = .unborn) ∧ ∀ l, m.notifications l = []
  step m x m' := x.1.run m = some (x.2, m')

variable [DecidableEq L]

/-- **Every run of a memory is one of queues with listeners of any kind**, so what is said of those
is true of it. -/
theorem run_memories {s : Queues A β L} {m : Memory A β L}
    {ls : List (Op A β L × Op.Reply β)} (hr : Run (memories A β L) s.toMemory ls m) :
    ∃ t, Run (Queues.system A β L) s ls t ∧ t.toMemory = m := by
  generalize hm : s.toMemory = m₀ at hr
  induction hr generalizing s with
  | nil => exact ⟨s, .nil s, hm⟩
  | cons hx _ ih =>
    subst hm
    have hx' : _ = _ := hx
    rw [Queues.exec_toMemory] at hx'
    obtain ⟨⟨r, t⟩, ht, e⟩ := Option.map_eq_some_iff.mp hx'
    obtain ⟨rfl, htm⟩ := Prod.mk.inj e
    obtain ⟨u, hu, hum⟩ := ih htm
    exact ⟨u, .cons ht hu, hum⟩

end Mqmx
