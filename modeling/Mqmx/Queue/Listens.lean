import Mqmx.Queue.Report

/-!
# Which queue has which listener

`set_listener` puts a listener on a queue that has none, and `Releases` lists the
operations that take it off again: a queue listens before an operation and after it, or
one of these has happened (`Listens.effect`, `listener_before`).

A record in the list of a listener is about a queue that still has it, or has the flag that
the queue went: `Memory.Effect.watched`.  Whoever has taken the record out of the list is told
no more, and all he knows is `Aims`.
-/

namespace Mqmx

variable {A β L : Type}

/-- The queue is there, and has the listener. -/
def Listens (m : Memory A β L) (a : A) (l : L) : Prop :=
  ∃ q, m.object a = .alive q ∧ q.listener = some l

/-- The queue is there, and has none. -/
def Unheard (m : Memory A β L) (a : A) : Prop :=
  ∃ q, m.object a = .alive q ∧ q.listener = none

/-- The operation takes the listener off the queue. -/
def Releases (a : A) : Op A β L → Prop
  | .moveConstruct _ o => a = o
  | .moveAssign b o => b ≠ o ∧ (a = b ∨ a = o)
  | .destroy b => a = b
  | .clearListener b => a = b
  | _ => False

variable [DecidableEq A] [DecidableEq L] {m m' : Memory A β L} {op : Op A β L} {r : Op.Reply β}
  {a : A} {l : L}

/-- **No other operation takes a listener off.** -/
theorem Listens.effect (h : Listens m a l) (e : Memory.Effect m op r m')
    (hop : ¬ Releases a op) : Listens m' a l := by
  obtain ⟨q, hq, hl⟩ := h
  rcases em (Memory.Concerns a op) with hc | hc
  case inr => exact ⟨q, by rw [e.object_of_not_concerns hc, hq], hl⟩
  cases e with
  | construct hn =>
    obtain rfl := hc
    rw [hq] at hn
    cases hn
  | moveConstruct _ hn =>
    rcases hc with rfl | rfl
    · rw [hq] at hn
      cases hn
    · exact absurd rfl hop
  | selfAssign | refuse | popNothing | alreadyExist => exact ⟨q, hq, hl⟩
  | moveAssign hne => exact absurd ⟨hne, hc⟩ hop
  | destroy => exact absurd hc hop
  | push hp =>
    obtain rfl := hc
    obtain rfl : _ = q := Object.alive.inj (hp.symm.trans hq)
    exact ⟨_, Memory.object_write_self .., hl⟩
  | pop hp =>
    obtain rfl := hc
    obtain rfl : _ = q := Object.alive.inj (hp.symm.trans hq)
    exact ⟨_, Memory.object_write_self .., hl⟩
  | setListener hp hn =>
    obtain rfl := hc
    obtain rfl : _ = q := Object.alive.inj (hp.symm.trans hq)
    rw [hl] at hn
    cases hn
  | clearListener => exact absurd hc hop

theorem Listens.setListener {k : L} (h : Listens m a l)
    (e : Memory.Effect m (.setListener a k) r m') : r = .status .alreadyExist ∧ m' = m := by
  obtain ⟨q, hq, hl⟩ := h
  cases e with
  | alreadyExist => exact ⟨rfl, rfl⟩
  | setListener hp hn =>
    obtain rfl : _ = q := Object.alive.inj (hp.symm.trans hq)
    rw [hl] at hn
    cases hn

theorem Listens.clearListener (e : Memory.Effect m (.clearListener a) r m') : Unheard m' a := by
  cases e with
  | clearListener => exact ⟨_, Memory.object_write_self .., rfl⟩

/-- A push that is accepted is known to the listener, whether it was reported or not. -/
theorem Listens.push {x : Message β} (hm : m.Reported) (h : Listens m a l)
    (e : Memory.Effect m (.push a (some x)) (.pushed .success none) m') :
    m'.notifications l ≠ [] := by
  have hm' := e.reported hm
  obtain ⟨q, hq, hl⟩ := h
  cases e with
  | push hp =>
    obtain rfl : _ = q := Object.alive.inj (hp.symm.trans hq)
    exact (hm'.told a _ l (Memory.object_write_self ..) hl (by simp)).ne_nil

/-- A queue with a listener had it before, under the same id, or it was set now. -/
theorem listener_before (e : Memory.Effect m op r m') {q : MessageQueue β L}
    (hq : m'.object a = .alive q) (hl : q.listener = some l) :
    ∃ p, m.object a = .alive p ∧ p.id = q.id ∧
      ((p.listener = some l ∧ ¬ Releases a op) ∨
        (op = .setListener a l ∧ p.listener = none)) := by
  rcases em (Memory.Concerns a op) with hc | hc
  case inr =>
    rw [e.object_of_not_concerns hc] at hq
    refine ⟨q, hq, rfl, .inl ⟨hl, fun hr => hc ?_⟩⟩
    cases op with
    | moveConstruct => exact .inr hr
    | moveAssign => exact hr.2
    | destroy => exact hr
    | clearListener => exact hr
    | _ => exact hr.elim
  cases e with
  | construct =>
    obtain rfl := hc
    rw [Memory.object_write_self] at hq
    cases hq; cases hl
  | moveConstruct | moveAssign =>
    simp only [Memory.object_write] at hq
    split at hq
    · cases hq; cases hl
    · split at hq
      · cases hq; cases hl
      · rcases hc with hc | hc <;> contradiction
  | destroy =>
    obtain rfl := hc
    rw [Memory.object_free_self] at hq
    cases hq
  | selfAssign => exact ⟨q, hq, rfl, .inl ⟨hl, fun h => h.1 rfl⟩⟩
  | refuse | popNothing | alreadyExist => exact ⟨q, hq, rfl, .inl ⟨hl, id⟩⟩
  | push hp | pop hp =>
    obtain rfl := hc
    rw [Memory.object_write_self] at hq
    cases hq
    exact ⟨_, hp, rfl, .inl ⟨hl, id⟩⟩
  | setListener hp hn =>
    obtain rfl := hc
    rw [Memory.object_write_self] at hq
    cases hq
    cases hl
    exact ⟨_, hp, rfl, .inr ⟨rfl, hn⟩⟩
  | clearListener =>
    obtain rfl := hc
    rw [Memory.object_write_self] at hq
    cases hq; cases hl

theorem told_of_releases (e : Memory.Effect m op r m') (hm : m.Ordered)
    {q : MessageQueue β L} (hq : m.object a = .alive q) (hl : q.listener = some l)
    (hop : Releases a op) (hne : op ≠ .clearListener a) :
    m'.Told l q.id Flag.detached ∨ m'.Told l q.id Flag.closed := by
  cases e with
  | moveConstruct hne' hn ho =>
    obtain rfl := hop
    exact .inl ((Memory.Effect.moveConstruct hne' hn ho).told_of_delivers hm
      (.moveConstruct hq hl) (by decide))
  | moveAssign hne' hp ho =>
    obtain ⟨-, rfl | rfl⟩ := hop
    · exact .inl ((Memory.Effect.moveAssign hne' hp ho).told_of_delivers hm
        (.assignOver hne' hq hl) (by decide))
    · exact .inl ((Memory.Effect.moveAssign hne' hp ho).told_of_delivers hm
        (.assignFrom hne' hq hl) (by decide))
  | selfAssign => exact absurd rfl hop.1
  | destroy hp =>
    obtain rfl := hop
    exact .inr ((Memory.Effect.destroy hp).told_of_delivers hm (.destroy hq hl) (by decide))
  | clearListener =>
    obtain rfl := hop
    exact absurd rfl hne
  | _ => exact hop.elim

/-- A notification is about a queue that has the listener, or gets it now, and carries the
address of the queue unless that is gone. -/
theorem source (e : Memory.Effect m op r m') {i : ℕ} {mq : Option A} {flag : Flags}
    (h : Memory.Delivers m op r l i mq flag) :
    ∃ a q, m.object a = .alive q ∧ q.id = i ∧ (q.listener = some l ∨ op = .setListener a l) ∧
      (mq = some a ∨ m'.object a = .dead) := by
  cases h with
  | setListener hq => exact ⟨_, _, hq, rfl, .inr rfl, .inl rfl⟩
  | push hq hl => exact ⟨_, _, hq, rfl, .inl hl, .inl rfl⟩
  | moveConstruct hq hl => exact ⟨_, _, hq, rfl, .inl hl, .inl rfl⟩
  | assignOver _ hq hl => exact ⟨_, _, hq, rfl, .inl hl, .inl rfl⟩
  | assignFrom _ hq hl => exact ⟨_, _, hq, rfl, .inl hl, .inl rfl⟩
  | destroy hq hl =>
    refine ⟨_, _, hq, rfl, .inl hl, .inr ?_⟩
    cases e with
    | destroy => exact Memory.object_free_self ..

/-! ### What a record says -/

omit [DecidableEq A] [DecidableEq L]

/-- "Pointer to message queue is no longer valid." -/
def NotificationRec.gone (r : NotificationRec A) : Bool :=
  r.flags.has (Flag.closed ||| Flag.detached)

theorem gone_of_has {r : NotificationRec A}
    (h : r.flags.has Flag.detached = true ∨ r.flags.has Flag.closed = true) : r.gone = true := by
  rw [NotificationRec.gone, Flags.has_flag_or, Bool.or_eq_true]
  exact h.symm

/-- The record is about a queue that has the listener, and has its id. -/
def Watched (m : Memory A β L) (l : L) (r : NotificationRec A) : Prop :=
  ∃ a q, r.mq = some a ∧ m.object a = .alive q ∧ q.listener = some l ∧ q.id = r.qid

/-- The queue that the record points to has its id, or none, or is not there any more. -/
def Aims (m : Memory A β L) (r : NotificationRec A) : Prop :=
  ∃ a, r.mq = some a ∧ m.object a ≠ .unborn ∧
    ∀ q, m.object a = .alive q → q.id = r.qid ∨ q.id = undefinedQid

theorem Watched.aims {rec : NotificationRec A} (h : Watched m l rec) : Aims m rec := by
  obtain ⟨a, q, hmq, hq, -, hid⟩ := h
  refine ⟨a, hmq, by simp [hq], fun p hp => .inl ?_⟩
  obtain rfl : q = p := Object.alive.inj (hq.symm.trans hp)
  exact hid

variable [DecidableEq A] [DecidableEq L]

/-- **Who has a listener is watched until the listener is told that the queue went.** -/
theorem Memory.Effect.watched (e : Memory.Effect m op r m') (hm : m.Ordered)
    (hop : ∀ a, op ≠ .clearListener a)
    (h : ∀ rec ∈ m.notifications l, rec.gone = true ∨ Watched m l rec) :
    ∀ rec ∈ m'.notifications l, rec.gone = true ∨ Watched m' l rec := by
  intro rec hrec
  have hrec' := (mem_iff_record (e.ordered hm l)).mp hrec
  rcases e.stems hm l rec.qid rec hrec' with ⟨r₀, hr₀, hmq, hsub, -⟩ | ⟨⟨flag, hd, hsub⟩, -⟩
  · obtain ⟨hmem, hqid⟩ := record_qid hr₀
    rcases h r₀ hmem with hgone | ⟨a, q, hmq₀, hq, hl, hid⟩
    · exact .inl (hsub _ hgone)
    · rcases em (Releases a op) with hrel | hrel
      · -- the listener is told of it, and there is one record of the id
        have told : ∀ {k}, m'.Told l q.id k → rec.flags.has k = true := by
          rintro k ⟨r', hr', hk⟩
          rw [hid, hqid, hrec'] at hr'
          obtain rfl := Option.some.inj hr'
          exact hk
        exact .inl (gone_of_has
          ((told_of_releases e hm hq hl hrel (hop a)).imp told told))
      · obtain ⟨q', hq', hl'⟩ := Listens.effect ⟨q, hq, hl⟩ e hrel
        obtain ⟨p, hp, hid', -⟩ := listener_before e hq' hl'
        obtain rfl : p = q := Object.alive.inj (hp.symm.trans hq)
        exact .inr ⟨a, q', hmq.trans hmq₀, hq', hl', by rw [← hid', hid, hqid]⟩
  · generalize hmq : rec.mq = mq at hd
    generalize hqid : rec.qid = i at hd
    cases hd with
    | setListener hq hn =>
      cases e with
      | setListener hp =>
        obtain rfl := Object.alive.inj (hp.symm.trans hq)
        exact .inr ⟨_, _, hmq, Memory.object_write_self .., rfl, hqid.symm⟩
    | push hq hl =>
      cases e with
      | push hp =>
        obtain rfl := Object.alive.inj (hp.symm.trans hq)
        exact .inr ⟨_, _, hmq, Memory.object_write_self .., hl, hqid.symm⟩
    | moveConstruct | assignOver | assignFrom =>
      exact .inl (gone_of_has (.inl (hsub _ (by decide))))
    | destroy => exact .inl (gone_of_has (.inr (hsub _ (by decide))))

/-- **A record that was taken goes wrong by a move assignment only.** -/
theorem Aims.effect {rec : NotificationRec A} (h : Aims m rec) (e : Memory.Effect m op r m')
    (hop : ∀ a o, op = .moveAssign a o → a ≠ o → rec.mq = some a →
      m.qid o = rec.qid ∨ m.qid o = undefinedQid) : Aims m' rec := by
  obtain ⟨a, hmq, hborn, hid⟩ := h
  refine ⟨a, hmq, e.born hborn, ?_⟩
  intro q hq
  rcases em (Memory.Concerns a op) with hc | hc
  case inr => exact hid q (by rw [← hq, e.object_of_not_concerns hc])
  cases e with
  | construct hn =>
    obtain rfl := hc
    exact absurd hn hborn
  | moveConstruct _ hn =>
    rcases hc with rfl | rfl
    · exact absurd hn hborn
    · rw [Memory.object_write_self] at hq
      cases hq
      exact .inr rfl
  | moveAssign hne _ ho =>
    rcases hc with rfl | rfl
    · rw [Memory.object_write_of_ne _ _ hne, Memory.object_write_self] at hq
      cases hq
      rw [← Memory.qid_of_alive ho]
      exact hop a _ rfl hne hmq
    · rw [Memory.object_write_self] at hq
      cases hq
      exact .inr rfl
  | destroy =>
    obtain rfl := hc
    rw [Memory.object_free_self] at hq
    cases hq
  | push hp | pop hp | setListener hp | clearListener hp =>
    obtain rfl := hc
    rw [Memory.object_write_self] at hq
    cases hq
    exact (hid _ hp :)
  | _ => exact hid q hq

end Mqmx
