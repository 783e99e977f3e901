import Mqmx.Base.Custody
import Mqmx.Base.Transition
import Mqmx.Queue.Notified

/-!
# Where messages go

A message that `push` has accepted is in a queue until it is popped, or its queue is deleted
or assigned over; a move carries the messages of a queue along.  `custody` follows each message
by the calls alone, as an item in boxes, and the queues hold what it says (`Kept`).  A message
that `push` refuses stays with the caller.

What is stored in a queue has its id, and a queue without an id is empty: `Memory.Stamped`.
-/

namespace Mqmx

open Transition (System Run)
open Custody (Boxes Sound Place)

variable {A β L : Type}

/-- The messages of a queue have its id, and a queue without an id has none. -/
structure Memory.Stamped (m : Memory A β L) : Prop where
  stamped : ∀ a q, m.object a = .alive q → ∀ msg ∈ q.queue, msg.qid = q.id
  undefined : ∀ a q, m.object a = .alive q → q.id = undefinedQid → q.queue = []

section Memory

variable [DecidableEq A] [DecidableEq L] {m m' : Memory A β L} {op : Op A β L} {r : Op.Reply β}

omit [DecidableEq L] in
theorem Memory.Stamped.write (h : m.Stamped) {a : A} {q : MessageQueue β L}
    (hs : ∀ msg ∈ q.queue, msg.qid = q.id) (hu : q.id = undefinedQid → q.queue = []) :
    (m.write a q).Stamped := by
  refine ⟨fun b p hp => ?_, fun b p hp => ?_⟩
  all_goals
    rw [Memory.object_write] at hp
    split at hp
    · cases hp
      assumption
    · first | exact h.stamped b p hp | exact h.undefined b p hp

omit [DecidableEq A] [DecidableEq L] in
theorem Memory.Stamped.congr (h : m.Stamped) (he : m'.object = m.object) : m'.Stamped :=
  ⟨fun a q hq => h.stamped a q (he ▸ hq), fun a q hq => h.undefined a q (he ▸ hq)⟩

/-- **Every operation keeps the ids of messages and queues together.** -/
theorem Memory.Effect.stamped (e : Memory.Effect m op r m') (h : m.Stamped) : m'.Stamped := by
  have hnone : ∀ msg ∈ ([] : List (Message β)), msg.qid = undefinedQid := by simp
  cases e with
  | construct => exact h.write (by simp) fun _ => rfl
  | moveConstruct _ _ ho =>
    have hs := h.stamped _ _ ho
    have hu := h.undefined _ _ ho
    refine Memory.Stamped.write (Memory.Stamped.write (Memory.Stamped.congr h ?_) ?_ ?_) hnone
      fun _ => rfl
    · simp
    · exact hs
    · exact hu
  | moveAssign _ _ ho =>
    have hs := h.stamped _ _ ho
    have hu := h.undefined _ _ ho
    refine Memory.Stamped.write (Memory.Stamped.write (Memory.Stamped.congr h ?_) ?_ ?_) hnone
      fun _ => rfl
    · simp
    · exact hs
    · exact hu
  | destroy =>
    refine ⟨fun b p hp => ?_, fun b p hp => ?_⟩
    all_goals
      rw [Memory.object_free, Memory.object_notify] at hp
      split at hp
      · cases hp
      · first | exact h.stamped b p hp | exact h.undefined b p hp
  | push hq hid hne =>
    refine Memory.Stamped.write (h.congr (by simp)) (fun msg hmsg => ?_) fun hu => absurd hu hne
    rcases List.mem_append.mp hmsg with hmsg | hmsg
    · exact h.stamped _ _ hq msg hmsg
    · rw [List.mem_singleton.mp hmsg]
      exact hid.symm
  | pop hq hx hne =>
    refine h.write (fun msg hmsg => ?_) fun hu => absurd hu hne
    exact h.stamped _ _ hq msg (hx ▸ List.mem_cons_of_mem _ hmsg)
  | setListener hq =>
    have hs := h.stamped _ _ hq
    have hu := h.undefined _ _ hq
    exact Memory.Stamped.write (h.congr (by simp)) hs hu
  | clearListener hq =>
    have hs := h.stamped _ _ hq
    have hu := h.undefined _ _ hq
    exact h.write hs hu
  | _ => exact h

/-- **`pop` returns nothing exactly where there is nothing.** -/
theorem Memory.Stamped.pop_eq_none (h : m.Stamped) {a : A} {msg : Option (Message β)}
    (hp : m.pop a = some (msg, m')) : msg = none ↔ m.messages a = [] := by
  obtain ⟨q, hq, ⟨rfl, -, hnone⟩ | ⟨x, rest, rfl, hx, -⟩⟩ := Memory.pop_cases hp
  · rw [Memory.messages_of_alive hq]
    exact ⟨fun _ => hnone.elim id (h.undefined a q hq), fun _ => rfl⟩
  · rw [Memory.messages_of_alive hq, hx]
    simp

end Memory

/-! ### The custody of messages -/

/-- Queues, and calls on them with what they return. -/
def queues [DecidableEq A] [DecidableEq L] : System (Memory A β L) (Op A β L × Op.Reply β) where
  init m := ∀ a, m.object a = .unborn
  step m x m' := x.1.run m = some (x.2, m')

/-- The message that a call has put into a queue. -/
def accepted? : Op A β L × Op.Reply β → Option (Message β)
  | (.push _ (some msg), .pushed .success _) => some msg
  | _ => none

/-- The message that a call has taken out of a queue. -/
def popped? : Op A β L × Op.Reply β → Option (Message β)
  | (.pop _, .message msg) => msg
  | _ => none

/-- Where a call leaves the messages. -/
def after [DecidableEq A] (c : Boxes A (Message β)) :
    Op A β L × Op.Reply β → Boxes A (Message β)
  | (.push a (some msg), .pushed .success _) => c.put a msg
  | (.pop a, .message (some _)) => c.take a
  | (.moveConstruct a o, _) => c.carry a o
  | (.moveAssign a o, _) => if a = o then c else (c.discard a).carry a o
  | (.destroy a, _) => c.discard a
  | _ => c

def custody [DecidableEq A] (ls : List (Op A β L × Op.Reply β)) : Boxes A (Message β) :=
  ls.foldl after .empty

theorem custody_snoc [DecidableEq A] (ls : List (Op A β L × Op.Reply β))
    (x : Op A β L × Op.Reply β) : custody (ls ++ [x]) = after (custody ls) x := by
  simp [custody]

/-- The boxes hold these messages. -/
structure Holds [DecidableEq A] (c : Boxes A (Message β)) (f : A → List (Message β)) : Prop where
  sound : Sound c
  contents : ∀ a, (c.stored a).map (c.accepted[·]?) = (f a).map some

structure Kept [DecidableEq A] (c : Boxes A (Message β)) (ls : List (Op A β L × Op.Reply β))
    (m : Memory A β L) : Prop where
  stamped : m.Stamped
  holds : Holds c m.messages
  accepted : c.accepted = ls.filterMap accepted?
  popped : c.taken.map (c.accepted[·]?) = (ls.filterMap popped?).map some

section Holds

variable [DecidableEq A] {c : Boxes A (Message β)} {f : A → List (Message β)}

omit [DecidableEq A] in
theorem map_accepted (x : Message β) {l : List ℕ} (hl : ∀ i ∈ l, i < c.accepted.length) :
    l.map ((c.accepted ++ [x])[·]?) = l.map (c.accepted[·]?) :=
  List.map_congr_left fun i hi => List.getElem?_append_left (hl i hi)

theorem Holds.put (h : Holds c f) (a : A) (x : Message β) :
    Holds (c.put a x) (Function.update f a (f a ++ [x])) := by
  refine ⟨h.sound.put a x, ?_⟩
  intro b
  have hmap := map_accepted x (c := c) (l := c.stored b) fun i hi => h.sound.stored_lt hi
  simp only [Boxes.put, Function.update_apply]
  split
  · rename_i e
    subst e
    rw [List.map_append, hmap, h.contents b]
    simp
  · rw [hmap, h.contents b]

theorem Holds.take (h : Holds c f) {a : A} {x : Message β} {rest : List (Message β)}
    (hf : f a = x :: rest) :
    Holds (c.take a) (Function.update f a rest) ∧
      (c.take a).taken.map (c.accepted[·]?) = c.taken.map (c.accepted[·]?) ++ [some x] := by
  have hc := h.contents a
  rw [hf, List.map_cons] at hc
  obtain ⟨k, v, hs, hk, hv⟩ := List.map_eq_cons_iff.mp hc
  refine ⟨⟨h.sound.take a, fun b => ?_⟩, ?_⟩
  · simp only [Boxes.take, Function.update_apply]
    split
    · rw [hs, List.tail_cons, hv]
    · exact h.contents b
  · simp [Boxes.take, hs, hk]

theorem Holds.discard (h : Holds c f) (a : A) : Holds (c.discard a) (Function.update f a []) := by
  refine ⟨h.sound.discard a, ?_⟩
  intro b
  simp only [Boxes.discard, Function.update_apply]
  split
  · rfl
  · exact h.contents b

theorem Holds.carry (h : Holds c f) {a o : A} (hne : a ≠ o) (hf : f a = []) :
    Holds (c.carry a o) (Function.update (Function.update f a (f o)) o []) := by
  have hc := h.contents a
  rw [hf] at hc
  refine ⟨h.sound.carry hne (List.map_eq_nil_iff.mp hc), ?_⟩
  intro b
  simp only [Boxes.carry, Function.update_apply]
  split
  · rfl
  · split
    · exact h.contents o
    · exact h.contents b

end Holds

section Kept

variable [DecidableEq A] [DecidableEq L] {c : Boxes A (Message β)}
  {ls : List (Op A β L × Op.Reply β)} {m m' : Memory A β L} {op : Op A β L} {r : Op.Reply β}

omit [DecidableEq L] in
theorem Kept.quiet (h : Kept c ls m) {x : Op A β L × Op.Reply β} {c' : Boxes A (Message β)}
    (ha : accepted? x = none) (hp : popped? x = none) (hs : m'.Stamped)
    (hacc : c'.accepted = c.accepted) (htak : c'.taken = c.taken) (hold : Holds c' m'.messages) :
    Kept c' (ls ++ [x]) m' := by
  refine ⟨hs, hold, ?_, ?_⟩
  · rw [hacc, h.accepted]
    simp [ha]
  · rw [hacc, htak, h.popped]
    simp [hp]

omit [DecidableEq L] in
theorem messages_write_eq (m : Memory A β L) (a : A) (q : MessageQueue β L) :
    (m.write a q).messages = Function.update m.messages a q.queue := by
  funext b
  rw [Memory.messages_write, Function.update_apply]

omit [DecidableEq L] in
theorem messages_free_eq (m : Memory A β L) (a : A) :
    (m.free a).messages = Function.update m.messages a [] := by
  funext b
  rw [Memory.messages_free, Function.update_apply]

/-- **The queues keep what they are given.** -/
theorem Kept.step (h : Kept c ls m) (e : Memory.Effect m op r m') :
    Kept (after c (op, r)) (ls ++ [(op, r)]) m' := by
  have hs := e.stamped h.stamped
  have hnot : ∀ {m₁ : Memory A β L}, m₁.object = m.object → m₁.messages = m.messages := by
    intro m₁ he
    funext b
    exact Memory.messages_congr (by rw [he])
  cases e with
  | construct ha =>
    refine h.quiet rfl rfl hs rfl rfl ?_
    have hnil : m.messages _ = [] := Memory.messages_of_unborn ha
    rw [messages_write_eq, ← hnil, Function.update_eq_self]
    exact h.holds
  | moveConstruct hne ha ho =>
    refine h.quiet rfl rfl hs rfl rfl ?_
    rw [messages_write_eq, messages_write_eq, hnot (by simp), ← Memory.messages_of_alive ho]
    exact h.holds.carry hne (Memory.messages_of_unborn ha)
  | selfAssign =>
    refine h.quiet rfl rfl hs ?_ ?_ ?_
    all_goals
      simp only [after, if_true]
    exact h.holds
  | @moveAssign a o p q hne ha ho =>
    refine h.quiet rfl rfl hs ?_ ?_ ?_
    all_goals
      simp only [after, if_neg hne]
    · rfl
    · rfl
    · rw [messages_write_eq, messages_write_eq, hnot (by simp), ← Memory.messages_of_alive ho]
      have hd := (h.holds.discard a).carry hne (Function.update_self ..)
      rw [Function.update_of_ne (Ne.symm hne), Function.update_idem] at hd
      exact hd
  | destroy hq =>
    refine h.quiet rfl rfl hs rfl rfl ?_
    rw [messages_free_eq, hnot (by simp)]
    exact h.holds.discard _
  | @refuse a msg st hst =>
    cases msg with
    | none => exact h.quiet rfl rfl hs rfl rfl h.holds
    | some x =>
      cases st with
      | success => exact absurd rfl hst
      | _ => exact h.quiet rfl rfl hs rfl rfl h.holds
  | @push a q x hq hid hne =>
    refine ⟨hs, ?_, ?_, ?_⟩
    · rw [messages_write_eq, hnot (by simp)]
      have hput := h.holds.put a x
      rw [Memory.messages_of_alive hq] at hput
      exact hput
    · show c.accepted ++ [x] = _
      rw [h.accepted]
      simp [accepted?]
    · show c.taken.map ((c.accepted ++ [x])[·]?) = _
      rw [map_accepted x (l := c.taken) fun i hi => h.holds.sound.lt .taken i hi, h.popped]
      simp [popped?]
  | popNothing => exact h.quiet rfl rfl hs rfl rfl h.holds
  | @pop a q x rest hq hx hne =>
    obtain ⟨htake, htaken⟩ := h.holds.take (a := a) ((Memory.messages_of_alive hq).trans hx)
    refine ⟨hs, ?_, ?_, ?_⟩
    · rw [messages_write_eq]
      exact htake
    · show c.accepted = _
      rw [h.accepted]
      simp [accepted?]
    · show (c.take a).taken.map (c.accepted[·]?) = _
      rw [htaken, h.popped]
      simp [popped?]
  | alreadyExist => exact h.quiet rfl rfl hs rfl rfl h.holds
  | setListener hq =>
    refine h.quiet rfl rfl hs rfl rfl ?_
    rw [messages_write_eq, hnot (by simp), ← Memory.messages_of_alive hq, Function.update_eq_self]
    exact h.holds
  | clearListener hq =>
    refine h.quiet rfl rfl hs rfl rfl ?_
    rw [messages_write_eq, ← Memory.messages_of_alive hq, Function.update_eq_self]
    exact h.holds

end Kept

/-! ### Runs -/

section Runs

variable [DecidableEq A] [DecidableEq L] {ls : List (Op A β L × Op.Reply β)}
  {i m : Memory A β L}

theorem kept_run (hi : queues.init i) (hr : Run queues i ls m) : Kept (custody ls) ls m := by
  refine hr.history_invariant (P := fun ls m => Kept (custody ls) ls m) (fun ls m x m' h hx => ?_)
    ⟨⟨fun a q hq => ?_, fun a q hq => ?_⟩, ⟨.empty, fun a => ?_⟩, rfl, rfl⟩
  · rw [custody_snoc]
    exact h.step (Memory.run_effect hx)
  · rw [hi a] at hq
    cases hq
  · rw [hi a] at hq
    cases hq
  · rw [Memory.messages_of_unborn (hi a)]
    rfl

/-- What becomes of messages. -/
structure Conserved (ls : List (Op A β L × Op.Reply β)) (m : Memory A β L) : Prop where
  stamped : m.Stamped
  /-- What came in, what is there and what came out is what the custody says. -/
  accepted : (custody ls).accepted = ls.filterMap accepted?
  contents : ∀ a, ((custody ls).stored a).map ((custody ls).accepted[·]?) =
    (m.messages a).map some
  popped : (custody ls).taken.map ((custody ls).accepted[·]?) = (ls.filterMap popped?).map some
  place : ∀ i < (custody ls).accepted.length,
    ∃ p, i ∈ (custody ls).at p ∧ ∀ p', i ∈ (custody ls).at p' → p' = p
  once : ∀ p, ((custody ls).at p).Nodup
  /-- Of two that went the same way the earlier one is popped first. -/
  order : (custody ls).taken.Pairwise fun i j =>
    (custody ls).path i = (custody ls).path j → i < j
  pop : ∀ a msg m', m.pop a = some (msg, m') → (msg = none ↔ m.messages a = [])
  /-- What is accepted the caller has no more. -/
  accept : ∀ a msg left m', m.push a msg = some (.success, left, m') → left = none
  /-- Where a push is refused the caller still has the message, and nobody is told anything. -/
  refuse : ∀ a msg st left m', m.push a msg = some (st, left, m') → st = .invalidArgument ∨
    st = .notSupported → left = msg ∧ m' = m ∧ (Op.push a msg : Op A β L).told m = [] ∧
      custody (ls ++ [(.push a msg, .pushed st left)]) = custody ls

/-- **No message is lost or doubled, and none overtakes another**, whatever is done to the
queues. -/
theorem conserved_run (hi : queues.init i) (hr : Run queues i ls m) : Conserved ls m := by
  have h := kept_run hi hr
  refine ⟨h.stamped, h.accepted, h.holds.contents, h.popped, fun i hi => h.holds.sound.one_place hi,
    h.holds.sound.nodup, h.holds.sound.order, fun a msg m' hp => h.stamped.pop_eq_none hp, ?_, ?_⟩
  · intro a msg left m' hp
    obtain ⟨q, -, ⟨hne, -⟩ | ⟨x, -, -, hleft, -⟩⟩ := Memory.push_cases hp
    · exact absurd rfl hne
    · exact hleft
  · intro a msg st left m' hp hst
    have hne : st ≠ .success := by
      rcases hst with rfl | rfl <;> simp
    obtain ⟨q, hq, ⟨-, rfl, rfl⟩ | ⟨x, -, hst', -⟩⟩ := Memory.push_cases hp
    · refine ⟨rfl, rfl, Op.told_refused hp hne, ?_⟩
      rw [custody_snoc]
      rcases hst with rfl | rfl <;> cases left <;> rfl
    · exact absurd hst' hne

/-- No queues yet. -/
abbrev noQueues : Memory ℕ Unit ℕ := ⟨fun _ => .unborn, fun _ => []⟩

theorem conserved_run_two : ∃ m, Run queues noQueues
    [(.construct 0 5, .done), (.push 0 (some ⟨5, 1, ()⟩), .pushed .success none),
      (.push 0 (some ⟨5, 2, ()⟩), .pushed .success none), (.construct 1 6, .done),
      (.push 1 (some ⟨6, 3, ()⟩), .pushed .success none), (.moveAssign 1 0, .done),
      (.push 1 (some ⟨6, 4, ()⟩), .pushed .notSupported (some ⟨6, 4, ()⟩)),
      (.pop 1, .message (some ⟨5, 1, ()⟩))] m ∧
    Conserved [(.construct 0 5, .done), (.push 0 (some ⟨5, 1, ()⟩), .pushed .success none),
      (.push 0 (some ⟨5, 2, ()⟩), .pushed .success none), (.construct 1 6, .done),
      (.push 1 (some ⟨6, 3, ()⟩), .pushed .success none), (.moveAssign 1 0, .done),
      (.push 1 (some ⟨6, 4, ()⟩), .pushed .notSupported (some ⟨6, 4, ()⟩)),
      (.pop 1, .message (some ⟨5, 1, ()⟩))] m := by
  have hrun : Run queues noQueues
      [(.construct 0 5, .done), (.push 0 (some ⟨5, 1, ()⟩), .pushed .success none),
        (.push 0 (some ⟨5, 2, ()⟩), .pushed .success none), (.construct 1 6, .done),
        (.push 1 (some ⟨6, 3, ()⟩), .pushed .success none), (.moveAssign 1 0, .done),
        (.push 1 (some ⟨6, 4, ()⟩), .pushed .notSupported (some ⟨6, 4, ()⟩)),
        (.pop 1, .message (some ⟨5, 1, ()⟩))] _ :=
    .cons rfl (.cons rfl (.cons rfl (.cons rfl (.cons rfl (.cons rfl (.cons rfl
      (.single rfl)))))))
  exact ⟨_, hrun, conserved_run (fun _ => rfl) hrun⟩

end Runs

end Mqmx
