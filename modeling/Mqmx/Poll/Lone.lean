import Mathlib.Data.List.Nodup
import Mqmx.Poll.Overlap

/-!
# What one poll sees

One poll over queues with distinct ids, where nobody else sets or clears listeners.  The
other threads push and pop as they like; what the poll has attached they may also destroy,
move from or assign over, from and to queues outside its range.

`reports_exactly`: a queue that is attached and not empty is in the list with its address
and `data`; one that was taken away while attached is there with `detached` or `closed`;
and nothing is in the list without such an event.  Whether a queue is attached is read off
the steps so far, `Attached`.
-/

namespace Mqmx.Poll

open Transition (System Run Reachable)

variable {A β L : Type}

/-- The queues the constructor has still before it. -/
def pending : Pc A → List A
  | .attach _ rest => rest
  | _ => []

/-- The queues that have the listener, before the destructor runs. -/
def passed (range : List A) : Pc A → List A
  | .attach set _ => set
  | .wait => range
  | _ => []

/-- The poll begins: its queues are there, with distinct ids, and there is no listener. -/
structure Begins (range : L → List A) (l : L) (i : State A β L) : Prop where
  pc : i.pc l = .attach [] (range l)
  alive : ∀ a ∈ range l, ∃ q, i.memory.object a = .alive q
  distinct : ((range l).map i.memory.qid).Nodup
  silent : ∀ a q, i.memory.object a = .alive q → q.listener = none
  nothing : ∀ k, i.memory.notifications k = []
  others : ∀ k, k ≠ l → i.pc k = .idle

/-- What other threads do beside the poll. -/
def Beside (range : List A) (pc : Pc A) : Op A β L → Prop
  | .moveConstruct _ o => o ∉ pending pc
  | .moveAssign a o => a = o ∨ (a ∉ pending pc ∧ o ∉ pending pc ∧ (a ∉ range ∨ o ∉ range))
  | .destroy a => a ∉ pending pc
  | .setListener _ _ => False
  | .clearListener _ => False
  | _ => True

/-- The steps of the one poll and of the threads beside it. -/
def Label.Alone (range : L → List A) (l : L) (s : State A β L) : Label A β L → Prop
  | .begin _ => False
  | .attach k _ => k = l
  | .ready k => k = l
  | .wake k => k = l
  | .timeout k => k = l
  | .detach k _ => k = l
  | .finish k => k = l
  | .op o _ => Beside (range l) (s.pc l) o

/-- The poll has attached the queue, and nothing has taken it away since. -/
def Attached (l : L) (a : A) (ls : List (Label A β L)) : Prop :=
  ∃ ls₁ ls₂, ls = ls₁ ++ .attach l a :: ls₂ ∧ ∀ x ∈ ls₂, ¬ x.Releases a

/-- The step `x`, after the steps `ls` to `s`, is one the listener of the poll is told of
with the flag: a queue is attached that has data, an attached queue that is empty gets
some, or an attached queue is moved from, assigned over or destroyed. -/
inductive Event (l : L) (ls : List (Label A β L)) (s : State A β L) :
    Label A β L → A → Flags → Prop
  | attach {a : A} {q : MessageQueue β L} : s.memory.object a = .alive q → q.queue ≠ [] →
      Event l ls s (.attach l a) a Flag.data
  | push {a : A} {q : MessageQueue β L} {x : Message β} : Attached l a ls →
      s.memory.object a = .alive q → q.queue = [] →
      Event l ls s (.op (.push a (some x)) (.pushed .success none)) a Flag.data
  | moveConstruct {a o : A} : Attached l o ls →
      Event l ls s (.op (.moveConstruct a o) .done) o Flag.detached
  | assignOver {a o : A} : a ≠ o → Attached l a ls →
      Event l ls s (.op (.moveAssign a o) .done) a Flag.detached
  | assignFrom {a o : A} : a ≠ o → Attached l o ls →
      Event l ls s (.op (.moveAssign a o) .done) o Flag.detached
  | destroy {a : A} : Attached l a ls → Event l ls s (.op (.destroy a) .done) a Flag.closed

/-- **One more step.** -/
theorem attached_snoc {l : L} {a : A} {ls : List (Label A β L)} {x : Label A β L} :
    Attached l a (ls ++ [x]) ↔ x = .attach l a ∨ (Attached l a ls ∧ ¬ x.Releases a) := by
  constructor
  · rintro ⟨ls₁, ls₂, e, h⟩
    rcases List.eq_nil_or_concat ls₂ with rfl | ⟨ls₃, y, rfl⟩
    · exact .inl (List.append_inj_right' e rfl |> List.singleton_inj.mp)
    · rw [List.concat_eq_append] at e h
      have e' : ls ++ [x] = (ls₁ ++ .attach l a :: ls₃) ++ [y] := by simpa using e
      obtain ⟨rfl, e₂⟩ := List.append_inj' e' rfl
      obtain rfl := List.singleton_inj.mp e₂
      exact .inr ⟨⟨ls₁, ls₃, rfl, fun z hz => h z (by simp [hz])⟩, h x (by simp)⟩
  · rintro (rfl | ⟨⟨ls₁, ls₂, rfl, h⟩, hx⟩)
    · exact ⟨ls, [], rfl, by simp⟩
    · refine ⟨ls₁, ls₂ ++ [x], by simp, ?_⟩
      intro y hy
      rcases List.mem_append.mp hy with hy | hy
      · exact h y hy
      · rw [List.mem_singleton.mp hy]
        exact hx

/-! ### The listener of a queue, over one operation -/

section Memory

variable [DecidableEq A] [DecidableEq L] {m m' : Memory A β L} {op : Op A β L}
  {r : Op.Reply β} {a : A} {l : L}

/-- The operation is no business of a queue that has no listener. -/
def Passes (a : A) : Op A β L → Prop
  | .moveConstruct _ o => a ≠ o
  | .moveAssign b o => b = o ∨ (a ≠ b ∧ a ≠ o)
  | .destroy b => a ≠ b
  | .setListener b _ => a ≠ b
  | _ => True

theorem unheard_effect (e : Memory.Effect m op r m') {q : MessageQueue β L}
    (hq : m.object a = .alive q) (hl : q.listener = none) (hop : Passes a op) :
    ∃ p, m'.object a = .alive p ∧ p.id = q.id ∧ p.listener = none := by
  rcases em (Memory.Concerns a op) with hc | hc
  case inr => exact ⟨q, by rw [e.object_of_not_concerns hc, hq], rfl, hl⟩
  cases e with
  | construct hn =>
    obtain rfl := hc
    rw [hq] at hn
    cases hn
  | moveConstruct _ hn =>
    rcases hc with rfl | rfl
    · rw [hq] at hn
      cases hn
    · exact absurd rfl hop
  | moveAssign hne =>
    rcases hop with h | ⟨h1, h2⟩
    · exact absurd h hne
    · exact absurd hc (not_or.mpr ⟨h1, h2⟩)
  | destroy | setListener | alreadyExist => exact absurd hc hop
  | push hp | pop hp | clearListener hp =>
    obtain rfl := hc
    obtain rfl := Object.alive.inj (hp.symm.trans hq)
    exact ⟨_, Memory.object_write_self .., rfl, by first | exact hl | rfl⟩
  | _ => exact ⟨q, hq, rfl, hl⟩

end Memory

/-! ### The invariant -/

section Invariant

variable [DecidableEq A] [DecidableEq L] {range : L → List A} {l : L} {i s t : State A β L}
  {x : Label A β L}

variable (range l) in
def alone : System (State A β L) (Label A β L) :=
  (system range).restrict (Label.Alone range l)

variable (range l i) in
/-- What holds while the poll is alone, from `i` on. -/
structure Lone (s : State A β L) : Prop where
  reported : s.memory.Reported
  whole : Whole range s
  pending : ∀ a ∈ pending (s.pc l), ∃ q, s.memory.object a = .alive q ∧ q.id = i.memory.qid a ∧
    q.listener = none
  heard : ∀ a q k, s.memory.object a = .alive q → q.listener = some k →
    k = l ∧ a ∈ range l ∧ q.id = i.memory.qid a
  address : ∀ r ∈ s.memory.notifications l, ∃ a ∈ range l, i.memory.qid a = r.qid ∧
    (r.mq = some a ∨ s.memory.object a = .dead)
  settled : ∀ a ∈ passed (range l) (s.pc l),
    Listens s.memory a l ∨ ∃ qid k, s.memory.Told l qid k

omit [DecidableEq A] [DecidableEq L] in
theorem Begins.nodup (hi : Begins range l i) : (range l).Nodup := hi.distinct.of_map

omit [DecidableEq A] [DecidableEq L] in
theorem Begins.qid_inj (hi : Begins range l i) {a b : A} (ha : a ∈ range l) (hb : b ∈ range l)
    (h : i.memory.qid a = i.memory.qid b) : a = b := List.inj_on_of_nodup_map hi.distinct ha hb h

omit [DecidableEq A] [DecidableEq L] in
theorem Begins.lone (hi : Begins range l i) : Lone range l i i where
  reported := by
    refine ⟨fun k => by rw [hi.nothing k]; exact ascending_nil, ?_⟩
    intro a q k hq hk
    rw [hi.silent a q hq] at hk
    cases hk
  whole := by
    intro k set rest hk
    by_cases h : k = l
    · subst h
      rw [hi.pc] at hk
      cases hk
      rfl
    · rw [hi.others k h] at hk
      cases hk
  pending := by
    intro a ha
    rw [hi.pc] at ha
    obtain ⟨q, hq⟩ := hi.alive a ha
    exact ⟨q, hq, by simp [Memory.qid, hq], hi.silent a q hq⟩
  heard := by
    intro a q k hq hk
    rw [hi.silent a q hq] at hk
    cases hk
  address := by
    intro r hr
    rw [hi.nothing l] at hr
    cases hr
  settled := by
    intro a ha
    rw [hi.pc] at ha
    cases ha

theorem pending_of_attach {a : A} (hx : Step range s (.attach l a) t) :
    a ∈ Poll.pending (s.pc l) := by
  cases hx with
  | attach hpc =>
    rw [hpc]
    exact List.mem_cons_self

omit [DecidableEq A] [DecidableEq L] in
theorem pending_mem (h : Whole range s) {a : A} (ha : a ∈ Poll.pending (s.pc l)) :
    a ∈ range l := by
  cases hpc : s.pc l with
  | attach set rest =>
    rw [hpc] at ha
    rw [← h l _ _ hpc]
    exact List.mem_append_right _ ha
  | _ =>
    rw [hpc] at ha
    cases ha

theorem pending_step (hn : (range l).Nodup) (h : Whole range s)
    (hx : (alone range l).step s x t) {a : A} (ha : a ∈ Poll.pending (t.pc l)) :
    a ∈ Poll.pending (s.pc l) ∧ ∀ o r, x.Calls o r → Passes a o := by
  obtain ⟨hal, hx⟩ := hx
  cases hx with
  | begin => exact hal.elim
  | @attach k b set rest hpc =>
    obtain rfl : k = l := hal
    have ha' : a ∈ rest := by simpa [Poll.pending] using ha
    refine ⟨by rw [hpc]; exact List.mem_cons_of_mem _ ha', ?_⟩
    rintro _ _ ⟨⟩
    rintro rfl
    rw [← h k _ _ hpc, List.nodup_append] at hn
    exact (List.nodup_cons.mp hn.2.1).1 ha'
  | op o =>
    refine ⟨ha, ?_⟩
    rintro _ _ ⟨⟩
    have hne : ∀ {b : A}, b ∉ Poll.pending (s.pc l) → a ≠ b := by
      rintro b hb rfl
      exact hb ha
    cases o with
    | moveConstruct b o => exact hne hal
    | moveAssign b o => exact hal.imp id fun h => ⟨hne h.1, hne h.2.1⟩
    | destroy b => exact hne hal
    | setListener => exact hal.elim
    | _ => trivial
  | ready | wake | timeout | detach | finish =>
    obtain rfl : _ = l := hal
    simp [Poll.pending] at ha

theorem attach_of_calls {k : L} {a : A} {r : Op.Reply β} (hx : (alone range l).step s x t)
    (h : x.Calls (.setListener a k) r) : k = l ∧ x = .attach l a := by
  obtain ⟨hal, -⟩ := hx
  cases h with
  | attach =>
    obtain rfl : k = l := hal
    exact ⟨rfl, rfl⟩
  | op => exact hal.elim

theorem detach_of_calls {a : A} {r : Op.Reply β} (hx : (alone range l).step s x t)
    (h : x.Calls (.clearListener a) r) : x = .detach l a := by
  obtain ⟨hal, -⟩ := hx
  cases h with
  | detach k =>
    obtain rfl : k = l := hal
    rfl
  | op => exact hal.elim

/-- Where a queue has been passed and not come to again, it has the listener or the list
is not empty. -/
theorem settled_step (hi : Begins range l i) (h : Lone range l i s)
    (hx : (alone range l).step s x t) {a : A} (ha : a ∈ passed (range l) (t.pc l)) :
    Listens t.memory a l ∨ ∃ qid k, t.memory.Told l qid k := by
  -- what holds of a queue passed before
  have old : a ∈ passed (range l) (s.pc l) → x ≠ .detach l a →
      Listens t.memory a l ∨ ∃ qid k, t.memory.Told l qid k := by
    intro ha hne
    rcases hx.2.memory with e | ⟨o, r, hc, e⟩
    · rw [e]
      exact h.settled a ha
    · rcases h.settled a ha with hl | ⟨qid, k, hk⟩
      · rcases em (Releases a o) with hr | hr
        · obtain ⟨q, hq, hl⟩ := hl
          have hcl : o ≠ .clearListener a := by
            rintro rfl
            exact hne (detach_of_calls hx hc)
          rcases told_of_releases e h.reported.ordered hq hl hr hcl with ht | ht
          · exact .inr ⟨_, _, ht⟩
          · exact .inr ⟨_, _, ht⟩
        · exact .inl (hl.effect e hr)
      · exact .inr ⟨qid, k, e.told h.reported.ordered hk⟩
  have hstep := hx.2
  cases hx.2 with
  | begin => exact hx.1.elim
  | @attach k b set rest hpc =>
    obtain rfl : k = l := hx.1
    have ha' : a ∈ set ++ [b] := by simpa [passed] using ha
    rcases List.mem_append.mp ha' with ha' | ha'
    · exact old (by rw [hpc]; exact ha') (by simp)
    · obtain rfl := List.mem_singleton.mp ha'
      obtain ⟨q, hq, -, hl⟩ := h.pending a (pending_of_attach hstep)
      exact .inl (Sets.listens (.inl ⟨hstep, q, hq, hl⟩))
  | @ready k set hpc =>
    obtain rfl : k = l := hx.1
    refine old ?_ (by simp)
    have hset : set = range k := by simpa using h.whole k _ _ hpc
    rw [goto_pc_self] at ha
    rw [hpc]
    exact hset ▸ ha
  | op => exact old ha (by simp)
  | wake | timeout | detach | finish =>
    obtain rfl : _ = l := hx.1
    simp [passed] at ha

theorem Lone.step (hi : Begins range l i) (h : Lone range l i s)
    (hx : (alone range l).step s x t) : Lone range l i t where
  reported := by
    rcases hx.2.memory with e | ⟨o, r, -, e⟩
    · rw [e]
      exact h.reported
    · exact e.reported h.reported
  whole := h.whole.step hx.2
  pending := by
    intro a ha
    obtain ⟨ha', hp⟩ := pending_step hi.nodup h.whole hx ha
    obtain ⟨q, hq, hid, hl⟩ := h.pending a ha'
    rcases hx.2.memory with e | ⟨o, r, hc, e⟩
    · exact ⟨q, by rw [e, hq], hid, hl⟩
    · obtain ⟨p, hp, hpid, hpl⟩ := unheard_effect e hq hl (hp o r hc)
      exact ⟨p, hp, hpid.trans hid, hpl⟩
  heard := by
    intro a q k hq hk
    rcases hx.2.memory with e | ⟨o, r, hc, e⟩
    · rw [e] at hq
      exact h.heard a q k hq hk
    · obtain ⟨p, hp, hid, ⟨hl, -⟩ | ⟨rfl, -⟩⟩ := listener_before e hq hk
      · obtain ⟨h1, h2, h3⟩ := h.heard a p k hp hl
        exact ⟨h1, h2, hid.symm.trans h3⟩
      · obtain ⟨rfl, rfl⟩ := attach_of_calls hx hc
        have ha := pending_of_attach hx.2
        obtain ⟨p', hp', hid', -⟩ := h.pending a ha
        obtain rfl := Object.alive.inj (hp.symm.trans hp')
        exact ⟨rfl, pending_mem h.whole ha, hid.symm.trans hid'⟩
  address := by
    intro r' hr'
    rcases hx.2.memory with e | ⟨o, r, hc, e⟩
    · rw [e] at hr' ⊢
      exact h.address r' hr'
    · have hrec := (mem_iff_record (e.ordered h.reported.ordered l)).mp hr'
      rcases e.stems h.reported.ordered l _ _ hrec with ⟨r₀, hr₀, hmq, -⟩ | ⟨⟨flag, hD, -⟩, -⟩
      · obtain ⟨hmem, hqid⟩ := record_qid hr₀
        obtain ⟨a, ha, hid, had⟩ := h.address r₀ hmem
        exact ⟨a, ha, hid.trans hqid, had.imp hmq.trans e.dead⟩
      · obtain ⟨a, q, hq, hid, hl, had⟩ := source e hD
        rcases hl with hl | rfl
        · obtain ⟨-, ha, hid'⟩ := h.heard a q l hq hl
          exact ⟨a, ha, hid'.symm.trans hid, had⟩
        · obtain ⟨-, rfl⟩ := attach_of_calls hx hc
          have ha := pending_of_attach hx.2
          obtain ⟨p, hp, hid', -⟩ := h.pending a ha
          obtain rfl := Object.alive.inj (hp.symm.trans hq)
          exact ⟨a, pending_mem h.whole ha, hid'.symm.trans hid, had⟩
  settled := fun a ha => settled_step hi h hx ha

/-! ### The steps so far -/

theorem not_releases_of_listens {a : A} (hx : Step range s x t) (h : Listens t.memory a l) :
    ¬ x.Releases a := by
  obtain ⟨q, hq, hl⟩ := h
  intro hr
  cases x with
  | detach k b =>
    obtain rfl : a = b := hr
    cases hx with
    | detach =>
      rcases Memory.touch_cases (.clearListener a) s.memory with ⟨hn, e⟩ | ⟨r, e⟩
      · have hq' : (Memory.touch (.clearListener a) s.memory).object a = .alive q := hq
        rw [e] at hq'
        exact Memory.clearListener_run_eq_none hn q hq'
      · obtain ⟨p, hp, hpl⟩ := Listens.clearListener e
        obtain rfl := Object.alive.inj (hp.symm.trans hq)
        rw [hl] at hpl
        cases hpl
  | op o r =>
    obtain ⟨p, -, -, ⟨-, hn⟩ | ⟨rfl, -⟩⟩ := listener_before hx.op_effect hq hl
    · exact hn hr
    · exact hr
  | _ => exact hr

theorem listens_step (h : Lone range l i s) (hx : (alone range l).step s x t) {a : A} :
    Listens t.memory a l ↔
      x = .attach l a ∨ (Listens s.memory a l ∧ ¬ x.Releases a) := by
  constructor
  · intro ht
    have hnr := not_releases_of_listens hx.2 ht
    rcases hx.2.memory with e | ⟨o, r, hc, e⟩
    · exact .inr ⟨e ▸ ht, hnr⟩
    · obtain ⟨q, hq, hl⟩ := ht
      obtain ⟨p, hp, -, ⟨hpl, -⟩ | ⟨rfl, -⟩⟩ := listener_before e hq hl
      · exact .inr ⟨⟨p, hp, hpl⟩, hnr⟩
      · exact .inl (attach_of_calls hx hc).2
  · rintro (rfl | ⟨hs, hnr⟩)
    · obtain ⟨q, hq, -, hl⟩ := h.pending a (pending_of_attach hx.2)
      exact Sets.listens (.inl ⟨hx.2, q, hq, hl⟩)
    · exact listens_keep hs hx.2 hnr

/-- What is delivered is an event, of a queue of the range. -/
theorem event_of_delivers {ls : List (Label A β L)} (h : Lone range l i s)
    (hatt : ∀ a, Listens s.memory a l → Attached l a ls) (hx : (alone range l).step s x t)
    {o : Op A β L} {r : Op.Reply β} (hc : x.Calls o r) {qid : ℕ} {mq : Option A} {flag : Flags}
    (hD : Memory.Delivers s.memory o r l qid mq flag) :
    ∃ a ∈ range l, i.memory.qid a = qid ∧ Event l ls s x a flag := by
  have known : ∀ {a q}, s.memory.object a = .alive q → q.listener = some l →
      a ∈ range l ∧ i.memory.qid a = q.id ∧ Attached l a ls := by
    intro a q hq hl
    obtain ⟨-, ha, hid⟩ := h.heard a q l hq hl
    exact ⟨ha, hid.symm, hatt a ⟨q, hq, hl⟩⟩
  cases hD with
  | @setListener a _ q hq _ hne =>
    obtain ⟨-, rfl⟩ := attach_of_calls hx hc
    have ha := pending_of_attach hx.2
    obtain ⟨p, hp, hid, -⟩ := h.pending a ha
    obtain rfl := Object.alive.inj (hp.symm.trans hq)
    exact ⟨a, pending_mem h.whole ha, hid.symm, .attach hq hne⟩
  | push hq hl he =>
    cases hc
    obtain ⟨ha, hid, hat⟩ := known hq hl
    exact ⟨_, ha, hid, .push hat hq he⟩
  | moveConstruct hq hl =>
    cases hc
    obtain ⟨ha, hid, hat⟩ := known hq hl
    exact ⟨_, ha, hid, .moveConstruct hat⟩
  | assignOver hne hq hl =>
    cases hc
    obtain ⟨ha, hid, hat⟩ := known hq hl
    exact ⟨_, ha, hid, .assignOver hne hat⟩
  | assignFrom hne hq hl =>
    cases hc
    obtain ⟨ha, hid, hat⟩ := known hq hl
    exact ⟨_, ha, hid, .assignFrom hne hat⟩
  | destroy hq hl =>
    cases hc
    obtain ⟨ha, hid, hat⟩ := known hq hl
    exact ⟨_, ha, hid, .destroy hat⟩

variable (range l i) in
/-- Some step of the run is an event of the queue of the id, with the flag. -/
def Happened (ls : List (Label A β L)) (qid : ℕ) (flag : Flags) : Prop :=
  ∃ ls₁ x ls₂ s a, ls = ls₁ ++ x :: ls₂ ∧ Run (alone range l) i ls₁ s ∧ a ∈ range l ∧
    i.memory.qid a = qid ∧ Event l ls₁ s x a flag

theorem Happened.snoc {ls : List (Label A β L)} {qid : ℕ} {flag : Flags}
    (h : Happened range l i ls qid flag) : Happened range l i (ls ++ [x]) qid flag := by
  obtain ⟨ls₁, y, ls₂, u, a, rfl, hu⟩ := h
  exact ⟨ls₁, y, ls₂ ++ [x], u, a, by simp, hu⟩

variable (range l i) in
structure Traced (ls : List (Label A β L)) (s : State A β L) : Prop where
  run : Run (alone range l) i ls s
  lone : Lone range l i s
  attached : ∀ a, Listens s.memory a l ↔ Attached l a ls
  flagged : ∀ r ∈ s.memory.notifications l, ∃ k ∈ Flag.all, r.flags.has k
  happened : ∀ r ∈ s.memory.notifications l, ∀ k ∈ Flag.all, r.flags.has k →
    Happened range l i ls r.qid k

theorem Traced.step (hi : Begins range l i) {ls : List (Label A β L)}
    (h : Traced range l i ls s) (hx : (alone range l).step s x t) :
    Traced range l i (ls ++ [x]) t := by
  have hlone := h.lone.step hi hx
  -- what is delivered now happens now
  have now : ∀ {o r qid mq flag}, x.Calls o r → Memory.Delivers s.memory o r l qid mq flag →
      Happened range l i (ls ++ [x]) qid flag := by
    intro o r qid mq flag hc hD
    obtain ⟨a, ha, hid, hev⟩ :=
      event_of_delivers h.lone (fun a => (h.attached a).mp) hx hc hD
    exact ⟨ls, x, [], s, a, rfl, h.run, ha, hid, hev⟩
  refine ⟨h.run.snoc hx, hlone, ?_, ?_, ?_⟩
  · intro a
    rw [listens_step h.lone hx, attached_snoc, h.attached a]
  · intro r' hr'
    rcases hx.2.memory with e | ⟨o, r, hc, e⟩
    · rw [e] at hr'
      exact h.flagged r' hr'
    · have hrec := (mem_iff_record (hlone.reported.ordered l)).mp hr'
      rcases e.stems h.lone.reported.ordered l _ _ hrec with
        ⟨r₀, hr₀, -, hsub, -⟩ | ⟨⟨flag, hD, hsub⟩, -⟩
      · obtain ⟨k, hk, hf⟩ := h.flagged r₀ (record_qid hr₀).1
        exact ⟨k, hk, hsub k hf⟩
      · exact ⟨flag, hD.flag, hsub flag (Flag.has_self hD.flag)⟩
  · intro r' hr' k hk hf
    rcases hx.2.memory with e | ⟨o, r, hc, e⟩
    · rw [e] at hr'
      exact (h.happened r' hr' k hk hf).snoc
    · have hrec := (mem_iff_record (hlone.reported.ordered l)).mp hr'
      have hnow : (∃ mq flag, Memory.Delivers s.memory o r l r'.qid mq flag ∧ flag.has k) →
          Happened range l i (ls ++ [x]) r'.qid k := by
        rintro ⟨mq, flag, hD, hfk⟩
        rw [← Flag.eq_of_has hD.flag hk hfk]
        exact now hc hD
      rcases e.stems h.lone.reported.ordered l _ _ hrec with ⟨r₀, hr₀, -, -, hsup⟩ | ⟨-, hsup⟩
      · obtain ⟨hmem, hqid⟩ := record_qid hr₀
        rcases hsup k hf with hf₀ | hD
        · rw [← hqid]
          exact (h.happened r₀ hmem k hk hf₀).snoc
        · exact hnow hD
      · exact hnow (hsup k hf)

theorem traced (hi : Begins range l i) {ls : List (Label A β L)}
    (hr : Run (alone range l) i ls s) : Traced range l i ls s := by
  refine hr.history_invariant (P := Traced range l i) (fun _ _ _ _ h hx => h.step hi hx)
    ⟨.nil i, hi.lone, fun a => ⟨?_, ?_⟩, ?_, ?_⟩
  · rintro ⟨q, hq, hl⟩
    rw [hi.silent a q hq] at hl
    cases hl
  · rintro ⟨ls₁, ls₂, e, -⟩
    simp at e
  · intro r hr
    rw [hi.nothing l] at hr
    cases hr
  · intro r hr
    rw [hi.nothing l] at hr
    cases hr

theorem told_run {u : State A β L} {ls : List (Label A β L)} (hr : Run (alone range l) s ls u)
    (ho : s.memory.Ordered) {qid : ℕ} {k : Flags} (h : s.memory.Told l qid k) :
    u.memory.Told l qid k := by
  refine (hr.invariant (P := fun s => s.memory.Ordered ∧ s.memory.Told l qid k)
    (fun s x t hs hx => ?_) ⟨ho, h⟩).2
  rcases hx.2.memory with e | ⟨o, r, -, e⟩
  · rw [e]
    exact hs
  · exact ⟨e.ordered hs.1, e.told hs.1 hs.2⟩

end Invariant

variable [DecidableEq A] [DecidableEq L]

/-- **The list has what there is to see, and nothing else.**  A queue that is attached is
there under its id, and if it is not empty the list has its record with its address and
`data`.  One that was moved from, assigned over or destroyed while attached has a record
with `detached` or `closed`.  All that is in the list has happened.  So a poll that waits
with an empty list has attached all queues, and all are empty. -/
theorem reports_exactly {range : L → List A} {l : L} {i t : State A β L}
    {ls : List (Label A β L)} (hi : Begins range l i) (hr : Run (alone range l) i ls t) :
    (∀ a, Attached l a ls → ∃ q, t.memory.object a = .alive q ∧ q.id = i.memory.qid a ∧
      (q.queue ≠ [] → ∃ r ∈ t.memory.notifications l, r.qid = i.memory.qid a ∧ r.mq = some a ∧
        r.flags.has Flag.data)) ∧
    (∀ ls₁ o reply ls₂ a, ls = ls₁ ++ .op o reply :: ls₂ → Attached l a ls₁ → Releases a o →
      ∃ r ∈ t.memory.notifications l, r.qid = i.memory.qid a ∧
        (r.flags.has Flag.detached ∨ r.flags.has Flag.closed)) ∧
    (∀ r ∈ t.memory.notifications l, (∃ k ∈ Flag.all, r.flags.has k) ∧
      ∀ k ∈ Flag.all, r.flags.has k → Happened range l i ls r.qid k) ∧
    (t.pc l = .wait → t.memory.notifications l = [] → ∀ a ∈ range l, Attached l a ls ∧
      ∃ q, t.memory.object a = .alive q ∧ q.queue = []) := by
  have ht := traced hi hr
  refine ⟨?_, ?_, fun r hr' => ⟨ht.flagged r hr', ht.happened r hr'⟩, ?_⟩
  · intro a ha
    obtain ⟨q, hq, hl⟩ := (ht.attached a).mpr ha
    obtain ⟨-, har, hid⟩ := ht.lone.heard a q l hq hl
    refine ⟨q, hq, hid, ?_⟩
    intro hne
    obtain ⟨r, hrec, hf⟩ := ht.lone.reported.told a q l hq hl hne
    obtain ⟨hmem, hqid⟩ := record_qid hrec
    obtain ⟨b, hb, hbid, hmq⟩ := ht.lone.address r hmem
    -- the record is of this queue, since the ids are distinct
    obtain rfl : b = a := hi.qid_inj hb har (hbid.trans (hqid.trans hid))
    refine ⟨r, hmem, hqid.trans hid, hmq.resolve_right fun hd => ?_, hf⟩
    rw [hq] at hd
    cases hd
  · intro ls₁ o reply ls₂ a e ha hrel
    subst e
    obtain ⟨u, hr₁, hr₂⟩ := Transition.Run.append_iff.mp hr
    obtain ⟨v, hv, hr₂⟩ := Transition.Run.cons_iff.mp hr₂
    have hu := traced hi hr₁
    obtain ⟨q, hq, hl⟩ := (hu.attached a).mpr ha
    obtain ⟨-, -, hid⟩ := hu.lone.heard a q l hq hl
    have hcl : o ≠ .clearListener a := by
      rintro rfl
      exact hv.1
    have e := hv.2.op_effect
    have ho := hu.lone.reported.ordered
    rcases told_of_releases e ho hq hl hrel hcl with h | h
    · obtain ⟨r, hrec, hf⟩ := told_run hr₂ (e.ordered ho) h
      obtain ⟨hmem, hqid⟩ := record_qid hrec
      exact ⟨r, hmem, hqid.trans hid, .inl hf⟩
    · obtain ⟨r, hrec, hf⟩ := told_run hr₂ (e.ordered ho) h
      obtain ⟨hmem, hqid⟩ := record_qid hrec
      exact ⟨r, hmem, hqid.trans hid, .inr hf⟩
  · intro hpc hnil a ha
    have hl : Listens t.memory a l := by
      rcases ht.lone.settled a (by rw [hpc]; exact ha) with hl | ⟨qid, k, hk⟩
      · exact hl
      · exact absurd hnil hk.ne_nil
    refine ⟨(ht.attached a).mp hl, ?_⟩
    obtain ⟨q, hq, hql⟩ := hl
    refine ⟨q, hq, ?_⟩
    by_contra hne
    exact (ht.lone.reported.told a q l hq hql hne).ne_nil hnil

/-- One queue, and a poll that begins. -/
def oneQueue : State ℕ Unit Unit where
  memory :=
    { object := fun a => if a = 0 then .alive ⟨7, [], none⟩ else .unborn
      notifications := fun _ => [] }
  pc := fun _ => .attach [] [0]

theorem begins_oneQueue : Begins (fun _ => [0]) () oneQueue where
  pc := rfl
  alive := by
    intro a ha
    rw [List.mem_singleton.mp ha]
    exact ⟨_, rfl⟩
  distinct := List.nodup_singleton _
  silent := by
    intro a q hq
    simp only [oneQueue] at hq
    split at hq
    · cases hq; rfl
    · cases hq
  nothing := fun _ => rfl
  others := fun _ h => absurd rfl h

theorem reports_exactly_oneQueue : ∃ t, Run (alone (fun _ => [0]) ()) oneQueue
    [.attach () 0, .ready (), .op (.push 0 (some ⟨7, 0, ()⟩)) (.pushed .success none)] t ∧
      ∀ r ∈ t.memory.notifications (), ∃ k ∈ Flag.all, r.flags.has k := by
  have hrun : Run (alone (fun _ => [0]) ()) oneQueue
      [.attach () 0, .ready (), .op (.push 0 (some ⟨7, 0, ()⟩)) (.pushed .success none)] _ :=
    .cons ⟨rfl, .attach rfl⟩ (.cons ⟨rfl, .ready rfl⟩ (.single ⟨trivial, .op _ rfl⟩))
  exact ⟨_, hrun, fun r hr => ((reports_exactly begins_oneQueue hrun).2.2.1 r hr).1⟩

end Mqmx.Poll
