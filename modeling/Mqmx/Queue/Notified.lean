import Mqmx.Queue.Report

/-!
# Whom an operation tells something

Who is told something depends on the memory that the operation finds: `Op.told`.  It is what the
operation delivers (`mem_told_iff`), and the other listeners have the lists they had
(`Effect.notifications_of_not_told`).
-/

namespace Mqmx

variable {A β L : Type}

/-- `_listener`. -/
def Memory.listener? (m : Memory A β L) (a : A) : Option L :=
  (m.queue? a).bind MessageQueue.listener

section Told

variable [DecidableEq A]

/-- The listeners that the operation tells something, one after the other. -/
def Op.told (m : Memory A β L) : Op A β L → List L
  | .moveConstruct _ o => (m.listener? o).toList
  | .moveAssign a o => if a = o then [] else (m.listener? a).toList ++ (m.listener? o).toList
  | .destroy a => (m.listener? a).toList
  | .push a (some msg) =>
    if m.qid a ≠ undefinedQid ∧ m.qid a = msg.qid ∧ m.messages a = [] then
      (m.listener? a).toList
    else []
  | .setListener a l => if m.listener? a = none ∧ m.messages a ≠ [] then [l] else []
  | _ => []

end Told

/-! ### What is told is what is delivered -/

section Delivers

variable [DecidableEq A] [DecidableEq L] {m m' : Memory A β L} {o : Op A β L} {r : Op.Reply β}

omit [DecidableEq A] [DecidableEq L] in
theorem Memory.listener?_of_alive {a : A} {q : MessageQueue β L} (h : m.object a = .alive q) :
    m.listener? a = q.listener := by
  simp [Memory.listener?, Memory.queue?_eq_some.mpr h]

omit [DecidableEq L] in
theorem Op.mem_told_push {a : A} {q : MessageQueue β L} {x : Message β} {l : L}
    (h : m.object a = .alive q) :
    l ∈ (Op.push a (some x) : Op A β L).told m ↔
      (q.id ≠ undefinedQid ∧ q.id = x.qid) ∧ q.queue = [] ∧ q.listener = some l := by
  have hqid : m.qid a = q.id := by simp [Memory.qid, h]
  have hmsg : m.messages a = q.queue := by simp [Memory.messages, h]
  have hl := Memory.listener?_of_alive h
  simp only [Op.told, hqid, hmsg, hl]
  split
  · rename_i hc
    rw [Option.mem_toList]
    exact ⟨fun hl' => ⟨⟨hc.1, hc.2.1⟩, hc.2.2, hl'⟩, fun hall => hall.2.2⟩
  · rename_i hc
    simp only [List.not_mem_nil, false_iff]
    intro hall
    exact hc ⟨hall.1.1, hall.1.2, hall.2.1⟩

omit [DecidableEq L] in
theorem Op.mem_told_setListener {a : A} {q : MessageQueue β L} {k l : L}
    (h : m.object a = .alive q) :
    l ∈ (Op.setListener a k : Op A β L).told m ↔ q.listener = none ∧ q.queue ≠ [] ∧ l = k := by
  have hmsg : m.messages a = q.queue := by simp [Memory.messages, h]
  have hl := Memory.listener?_of_alive h
  simp only [Op.told, hmsg, hl]
  split
  · rename_i hc
    simp [hc.1, hc.2]
  · rename_i hc
    simp only [List.not_mem_nil, false_iff]
    intro hall
    exact hc ⟨hall.1, hall.2.1⟩

theorem Memory.push_success {a : A} {q : MessageQueue β L} {x : Message β} {st : ExitStatus}
    {left : Option (Message β)} (h : m.object a = .alive q)
    (hp : m.push a (some x) = some (st, left, m')) :
    st = .success ↔ q.id ≠ undefinedQid ∧ q.id = x.qid := by
  obtain ⟨p, hp', hp⟩ := Option.map_eq_some_iff.mp hp
  obtain rfl := Object.alive.inj ((Object.queue?_eq_some.mp hp').symm.trans h)
  simp only at hp
  split at hp
  · rename_i hc
    cases hp
    simp only [reduceCtorEq, false_iff]
    exact fun hid => hc.elim hid.1 fun hne => hne hid.2
  · rename_i hc
    cases hp
    simp only [true_iff]
    exact ⟨fun he => hc (.inl he), Decidable.not_not.mp fun hne => hc (.inr hne)⟩

theorem Op.told_refused {a : A} {msg left : Option (Message β)} {st : ExitStatus}
    (hp : m.push a msg = some (st, left, m')) (hst : st ≠ .success) :
    (Op.push a msg : Op A β L).told m = [] := by
  cases msg with
  | none => rfl
  | some x =>
    obtain ⟨q, hq, -⟩ := Memory.push_cases hp
    have hno := mt (Memory.push_success hq hp).mpr hst
    rw [← Memory.qid_of_alive hq] at hno
    exact if_neg fun hc => hno ⟨hc.1, hc.2.1⟩

/-- **What an operation tells** is what it delivers. -/
theorem mem_told_iff (h : o.run m = some (r, m')) {l : L} :
    l ∈ o.told m ↔ ∃ i mq flag, Memory.Delivers m o r l i mq flag := by
  have hl : ∀ {a : A} {q : MessageQueue β L}, m.object a = .alive q →
      (l ∈ (m.listener? a).toList ↔ q.listener = some l) := by
    intro a q ha
    rw [Memory.listener?_of_alive ha, Option.mem_toList]
  cases o with
  | construct | pop | clearListener =>
    refine ⟨fun hmem => (List.not_mem_nil hmem).elim, ?_⟩
    rintro ⟨i, mq, flag, hd⟩
    cases hd
  | moveConstruct a o =>
    obtain ⟨_, hm, e⟩ := Option.map_eq_some_iff.mp h
    cases e
    obtain ⟨q, -, -, ho, -⟩ := Memory.moveConstruct_cases hm
    constructor
    · intro hmem
      exact ⟨_, _, _, .moveConstruct ho ((hl ho).mp hmem)⟩
    · rintro ⟨i, mq, flag, hd⟩
      cases hd with
      | moveConstruct ho' hl' => exact (hl ho').mpr hl'
  | moveAssign a o =>
    obtain ⟨_, hm, e⟩ := Option.map_eq_some_iff.mp h
    cases e
    obtain ⟨p, q, ha, ho, -⟩ := Memory.moveAssign_cases hm
    by_cases hao : a = o
    · have hnil : (Op.moveAssign a o : Op A β L).told m = [] := if_pos hao
      rw [hnil]
      refine ⟨fun hmem => (List.not_mem_nil hmem).elim, ?_⟩
      rintro ⟨i, mq, flag, hd⟩
      cases hd with
      | assignOver hne | assignFrom hne => exact absurd hao hne
    · have htold : (Op.moveAssign a o : Op A β L).told m =
          (m.listener? a).toList ++ (m.listener? o).toList := if_neg hao
      rw [htold, List.mem_append]
      constructor
      · intro hmem
        rcases hmem with hmem | hmem
        · exact ⟨_, _, _, .assignOver hao ha ((hl ha).mp hmem)⟩
        · exact ⟨_, _, _, .assignFrom hao ho ((hl ho).mp hmem)⟩
      · rintro ⟨i, mq, flag, hd⟩
        cases hd with
        | assignOver _ ha' hl' => exact .inl ((hl ha').mpr hl')
        | assignFrom _ ho' hl' => exact .inr ((hl ho').mpr hl')
  | destroy a =>
    obtain ⟨_, hm, e⟩ := Option.map_eq_some_iff.mp h
    cases e
    obtain ⟨q, ha, -⟩ := Memory.destroy_cases hm
    constructor
    · intro hmem
      exact ⟨_, _, _, .destroy ha ((hl ha).mp hmem)⟩
    · rintro ⟨i, mq, flag, hd⟩
      cases hd with
      | destroy ha' hl' => exact (hl ha').mpr hl'
  | push a msg =>
    obtain ⟨⟨st, left, m₁⟩, hm, e⟩ := Option.map_eq_some_iff.mp h
    cases e
    cases msg with
    | none =>
      refine ⟨fun hmem => (List.not_mem_nil hmem).elim, ?_⟩
      rintro ⟨i, mq, flag, hd⟩
      cases hd
    | some x =>
      obtain ⟨q, ha, hcases⟩ := Memory.push_cases hm
      rw [Op.mem_told_push ha]
      constructor
      · rintro ⟨hid, hc, hl'⟩
        obtain rfl : st = .success := (Memory.push_success ha hm).mpr hid
        obtain rfl : left = none := by
          rcases hcases with ⟨hne, -⟩ | ⟨_, -, -, hleft, -⟩
          · exact absurd rfl hne
          · exact hleft
        exact ⟨_, _, _, .push ha hl' hc⟩
      · rintro ⟨i, mq, flag, hd⟩
        cases hd with
        | push ha' hl' hc =>
          obtain rfl := Object.alive.inj (ha.symm.trans ha')
          exact ⟨(Memory.push_success ha hm).mp rfl, hc, hl'⟩
  | setListener a k =>
    obtain ⟨_, hm, e⟩ := Option.map_eq_some_iff.mp h
    cases e
    obtain ⟨q, ha, hst⟩ := Memory.setListener_cases hm
    rw [Op.mem_told_setListener ha]
    constructor
    · rintro ⟨hn, hne, rfl⟩
      rcases hst with ⟨hs, -, -⟩ | ⟨-, e, -⟩
      · exact absurd hn hs
      · rw [e]
        exact ⟨_, _, _, .setListener ha hn hne⟩
    · rintro ⟨i, mq, flag, hd⟩
      generalize hk : Op.Reply.status _ = r at hd
      cases hd with
      | setListener ha' hn hne =>
        obtain rfl := Object.alive.inj (ha.symm.trans ha')
        exact ⟨hn, hne, rfl⟩

omit [DecidableEq A] in
theorem Memory.notifications_notify_of_ne {listener : Option L} {l : L} (h : listener ≠ some l)
    (qid : ℕ) (mq : Option A) (flag : Flags) :
    (m.notify listener qid mq flag).notifications l = m.notifications l := by
  cases listener with
  | none => rfl
  | some k =>
    have hne : l ≠ k := fun e => h (by rw [e])
    rw [Memory.notifications_notify, if_neg hne]

/-- Whom the operation does not tell anything has the list it had. -/
theorem Memory.Effect.notifications_of_not_told (e : Memory.Effect m o r m') {l : L}
    (hl : l ∉ o.told m) :
    m'.notifications l = m.notifications l := by
  have alive : ∀ {a : A} {q : MessageQueue β L}, m.object a = .alive q →
      l ∉ (m.listener? a).toList → q.listener ≠ some l := by
    intro a q ha hno he
    rw [Memory.listener?_of_alive ha, he] at hno
    exact hno (List.mem_singleton_self l)
  cases e with
  | moveConstruct _ _ ho => exact Memory.notifications_notify_of_ne (alive ho hl) ..
  | @moveAssign a o p q hao ha ho =>
    have htold : (Op.moveAssign a o : Op A β L).told m =
        (m.listener? a).toList ++ (m.listener? o).toList := if_neg hao
    rw [htold, List.mem_append, not_or] at hl
    exact (Memory.notifications_notify_of_ne (alive ho hl.2) ..).trans
      (Memory.notifications_notify_of_ne (alive ha hl.1) ..)
  | destroy ha => exact Memory.notifications_notify_of_ne (alive ha hl) ..
  | @push a q x ha hid hne =>
    rw [Op.mem_told_push ha] at hl
    show (ite _ _ _ : Memory A β L).notifications l = _
    split
    · rename_i hc
      exact Memory.notifications_notify_of_ne (fun he => hl ⟨⟨hne, hid⟩, hc, he⟩) ..
    · rfl
  | @setListener a k q ha hn =>
    rw [Op.mem_told_setListener ha] at hl
    show (ite _ _ _ : Memory A β L).notifications l = _
    split
    · rfl
    · rename_i hc
      refine Memory.notifications_notify_of_ne (fun he => hl ⟨hn, hc, ?_⟩) ..
      exact (Option.some.inj he).symm
  | _ => rfl

end Delivers

end Mqmx
