import Mqmx.Queue.Memory

/-!
# What a listener has been told

A queue tells its listener of data twice over: at `set_listener` when there is some, and
at the `push` that ends its being empty.  `Reported` is what the two come to: a listener
has a record with `data` for every queue that has it and is not empty.  It is kept by
every operation (`Effect.reported`).

Nothing is ever taken out of a list by a queue (`Effect.told`), and what comes in is what
the operation delivers (`Delivers`): `told_of_delivers` and `Effect.stems`.
-/

namespace Mqmx

variable {A β L : Type}

theorem record_notify_of_some {v : List (NotificationRec A)} (hv : Ascending v) (qid : ℕ)
    (mq : Option A) (flag : Flags) {i : ℕ} {r : NotificationRec A} (hr : record v i = some r) :
    ∃ r', record (notify qid mq flag v) i = some r' ∧ r'.mq = r.mq ∧
      ∀ k, r.flags.has k → r'.flags.has k := by
  rw [record_notify hv]
  split
  · rename_i hi
    subst hi
    exact ⟨_, rfl, by rw [hr]; rfl, fun k hk => by rw [hr]; simp [merged, hk]⟩
  · exact ⟨r, hr, rfl, fun k hk => hk⟩

theorem record_of_notify {v : List (NotificationRec A)} (hv : Ascending v) {qid : ℕ}
    {mq : Option A} {flag : Flags} {i : ℕ} {r' : NotificationRec A}
    (h : record (notify qid mq flag v) i = some r') :
    (∃ r, record v i = some r ∧ r'.mq = r.mq ∧
      ((r'.flags = r.flags) ∨ (i = qid ∧ r'.flags = r.flags ||| flag))) ∨
    (record v i = none ∧ i = qid ∧ r'.mq = mq ∧ r'.flags = flag) := by
  rw [record_notify hv] at h
  split at h
  · rename_i hi
    subst hi
    cases h
    cases hr : record v i with
    | none => exact .inr ⟨rfl, rfl, rfl, rfl⟩
    | some r => exact .inl ⟨r, rfl, rfl, .inr ⟨rfl, rfl⟩⟩
  · exact .inl ⟨r', h, rfl, .inl rfl⟩

theorem merged_has {qid : ℕ} {mq : Option A} {flag k : Flags} (hk : flag.has k)
    (r : Option (NotificationRec A)) : (merged qid mq flag r).flags.has k := by
  cases r with
  | none => exact hk
  | some r => simp [merged, hk]

/-- All flags there are. -/
def Flag.all : List Flags := [Flag.data, Flag.detached, Flag.closed]

theorem Flag.has_self {flag : Flags} (h : flag ∈ Flag.all) : flag.has flag := by
  simp only [Flag.all, List.mem_cons, List.not_mem_nil, or_false] at h
  rcases h with rfl | rfl | rfl <;> decide

theorem Flag.eq_of_has {flag k : Flags} (h : flag ∈ Flag.all) (hk : k ∈ Flag.all)
    (hh : flag.has k) : flag = k := by
  simp only [Flag.all, List.mem_cons, List.not_mem_nil, or_false] at h hk
  rcases h with rfl | rfl | rfl <;> rcases hk with rfl | rfl | rfl <;> revert hh <;> decide

namespace Memory

/-- `l` has a record of the id, with the flag. -/
def Told (m : Memory A β L) (l : L) (i : ℕ) (flag : Flags) : Prop :=
  ∃ r, record (m.notifications l) i = some r ∧ r.flags.has flag

def Ordered (m : Memory A β L) : Prop := ∀ l, Ascending (m.notifications l)

/-- A listener knows of every queue that has it and is not empty. -/
structure Reported (m : Memory A β L) : Prop where
  ordered : m.Ordered
  told : ∀ a q l, m.object a = .alive q → q.listener = some l → q.queue ≠ [] →
    m.Told l q.id Flag.data

theorem Told.ne_nil {m : Memory A β L} {l : L} {i : ℕ} {k : Flags} (h : m.Told l i k) :
    m.notifications l ≠ [] := by
  obtain ⟨r, hr, -⟩ := h
  intro hnil
  rw [hnil] at hr
  cases hr

section Write

variable [DecidableEq A] {m : Memory A β L} {a : A} {q : MessageQueue β L}

@[simp] theorem ordered_write : (m.write a q).Ordered ↔ m.Ordered := Iff.rfl

@[simp] theorem ordered_free : (m.free a).Ordered ↔ m.Ordered := Iff.rfl

@[simp] theorem told_write {l : L} {i : ℕ} {k : Flags} :
    (m.write a q).Told l i k ↔ m.Told l i k := Iff.rfl

@[simp] theorem told_free {l : L} {i : ℕ} {k : Flags} : (m.free a).Told l i k ↔ m.Told l i k :=
  Iff.rfl

end Write

section Notify

variable [DecidableEq L] {m : Memory A β L}

theorem Ordered.notify (h : m.Ordered) (listener : Option L) (qid : ℕ) (mq : Option A)
    (flag : Flags) : (m.notify listener qid mq flag).Ordered := by
  intro k
  cases listener with
  | none => exact h k
  | some l =>
    rw [notifications_notify]
    split
    · exact (h l).notify qid mq flag
    · exact h k

theorem Told.notify (ho : m.Ordered) {l : L} {i : ℕ} {k : Flags} (h : m.Told l i k)
    (listener : Option L) (qid : ℕ) (mq : Option A) (flag : Flags) :
    (m.notify listener qid mq flag).Told l i k := by
  obtain ⟨r, hr, hk⟩ := h
  cases listener with
  | none => exact ⟨r, hr, hk⟩
  | some l' =>
    unfold Told
    rw [notifications_notify]
    split
    · rename_i hl
      subst hl
      obtain ⟨r', hr', -, hk'⟩ := record_notify_of_some (ho l) qid mq flag hr
      exact ⟨r', hr', hk' k hk⟩
    · exact ⟨r, hr, hk⟩

theorem told_notify (ho : m.Ordered) (l : L) (qid : ℕ) (mq : Option A) {flag k : Flags}
    (hk : flag.has k) : (m.notify (some l) qid mq flag).Told l qid k := by
  unfold Told
  rw [notifications_notify, if_pos rfl]
  exact ⟨_, by rw [record_notify (ho l), if_pos rfl], merged_has hk _⟩

end Notify

variable [DecidableEq A] [DecidableEq L] {m m' : Memory A β L} {op : Op A β L}
  {reply : Op.Reply β}

theorem Effect.ordered (e : Effect m op reply m') (ho : m.Ordered) : m'.Ordered := by
  cases e with
  | moveConstruct => simpa using ho.notify _ _ _ _
  | moveAssign => simpa using (ho.notify _ _ _ _).notify _ _ _ _
  | destroy => simpa using ho.notify _ _ _ _
  | push =>
    rw [ordered_write]
    split
    · exact ho.notify _ _ _ _
    · exact ho
  | setListener =>
    rw [ordered_write]
    split
    · exact ho
    · exact ho.notify _ _ _ _
  | _ => exact ho

theorem Effect.told (e : Effect m op reply m') (ho : m.Ordered) {l : L} {i : ℕ} {k : Flags}
    (h : m.Told l i k) : m'.Told l i k := by
  cases e with
  | moveConstruct => simpa using h.notify ho _ _ _ _
  | moveAssign => simpa using (h.notify ho _ _ _ _).notify (ho.notify _ _ _ _) _ _ _ _
  | destroy => simpa using h.notify ho _ _ _ _
  | push =>
    rw [told_write]
    split
    · exact h.notify ho _ _ _ _
    · exact h
  | setListener =>
    rw [told_write]
    split
    · exact h
    · exact h.notify ho _ _ _ _
  | _ => exact h

/-- **A listener knows of every queue that has it and is not empty.** -/
theorem Effect.reported (e : Effect m op reply m') (h : m.Reported) : m'.Reported := by
  refine ⟨e.ordered h.ordered, ?_⟩
  -- a queue that is as it was has been reported
  have old : ∀ {b q l}, m.object b = .alive q → q.listener = some l → q.queue ≠ [] →
      m'.Told l q.id Flag.data := fun hq hl hne =>
    e.told h.ordered (h.told _ _ _ hq hl hne)
  intro b q l hb hl hne
  rcases em (Concerns b op) with hc | hc
  case inr =>
    rw [e.object_of_not_concerns hc] at hb
    exact old hb hl hne
  cases e with
  | construct =>
    obtain rfl := hc
    rw [object_write_self] at hb
    cases hb; cases hl
  | moveConstruct | moveAssign =>
    -- neither side of a move has a listener after it
    simp only [object_write, object_notify] at hb
    split at hb
    · cases hb; cases hl
    · split at hb
      · cases hb; cases hl
      · exact old hb hl hne
  | destroy =>
    obtain rfl := hc
    rw [object_free_self] at hb
    cases hb
  | @push a p x hp =>
    obtain rfl := hc
    rw [object_write_self] at hb
    cases hb
    by_cases hc : p.queue = []
    · have hl' : p.listener = some l := hl
      rw [told_write, if_pos hc, hl']
      exact told_notify h.ordered l p.id _ (by decide)
    · exact old (q := p) hp hl hc
  | @pop a p x rest hp hx =>
    obtain rfl := hc
    rw [object_write_self] at hb
    cases hb
    exact old (q := p) hp hl (by rw [hx]; exact List.cons_ne_nil _ _)
  | @setListener a k p hp =>
    obtain rfl := hc
    rw [object_write_self] at hb
    cases hb
    cases hl
    rw [told_write, if_neg hne]
    exact told_notify h.ordered l p.id _ (by decide)
  | clearListener =>
    obtain rfl := hc
    rw [object_write_self] at hb
    cases hb; cases hl
  | _ => exact old hb hl hne

/-! ### What an operation delivers -/

/-- The notifications of an operation: listener, queue id, address and flag. -/
inductive Delivers (m : Memory A β L) :
    Op A β L → Op.Reply β → L → ℕ → Option A → Flags → Prop
  | setListener {a : A} {l : L} {q : MessageQueue β L} : m.object a = .alive q →
      q.listener = none → q.queue ≠ [] →
      Delivers m (.setListener a l) (.status .success) l q.id (some a) Flag.data
  | push {a : A} {l : L} {q : MessageQueue β L} {x : Message β} : m.object a = .alive q →
      q.listener = some l → q.queue = [] →
      Delivers m (.push a (some x)) (.pushed .success none) l q.id (some a) Flag.data
  | moveConstruct {a o : A} {l : L} {q : MessageQueue β L} : m.object o = .alive q →
      q.listener = some l → Delivers m (.moveConstruct a o) .done l q.id (some o) Flag.detached
  | assignOver {a o : A} {l : L} {p : MessageQueue β L} : a ≠ o → m.object a = .alive p →
      p.listener = some l → Delivers m (.moveAssign a o) .done l p.id (some a) Flag.detached
  | assignFrom {a o : A} {l : L} {q : MessageQueue β L} : a ≠ o → m.object o = .alive q →
      q.listener = some l → Delivers m (.moveAssign a o) .done l q.id (some o) Flag.detached
  | destroy {a : A} {l : L} {q : MessageQueue β L} : m.object a = .alive q →
      q.listener = some l → Delivers m (.destroy a) .done l q.id none Flag.closed

/-- All that `m'` has beyond `m` has been delivered by `D`. -/
def Stems (D : L → ℕ → Option A → Flags → Prop) (m m' : Memory A β L) : Prop :=
  ∀ l i r', record (m'.notifications l) i = some r' →
    (∃ r, record (m.notifications l) i = some r ∧ r'.mq = r.mq ∧
      (∀ k, r.flags.has k → r'.flags.has k) ∧
      ∀ k, r'.flags.has k → r.flags.has k ∨ ∃ mq flag, D l i mq flag ∧ flag.has k) ∨
    ((∃ flag, D l i r'.mq flag ∧ ∀ k, flag.has k → r'.flags.has k) ∧
      ∀ k, r'.flags.has k → ∃ mq flag, D l i mq flag ∧ flag.has k)

section Stems

variable {D : L → ℕ → Option A → Flags → Prop} {m m' : Memory A β L}

omit [DecidableEq A] [DecidableEq L] in
theorem Stems.refl (m : Memory A β L) : Stems D m m := fun _ _ r' hr =>
  .inl ⟨r', hr, rfl, fun _ hk => hk, fun _ hk => .inl hk⟩

omit [DecidableEq A] in
theorem Stems.notify (h : Stems D m m') (ho : m'.Ordered) {listener : Option L} {qid : ℕ}
    {mq : Option A} {flag : Flags} (hD : ∀ l, listener = some l → D l qid mq flag) :
    Stems D m (m'.notify listener qid mq flag) := by
  cases listener with
  | none => exact h
  | some k =>
    intro l i r' hr'
    rw [notifications_notify] at hr'
    split at hr'
    case isFalse => exact h l i r' hr'
    rename_i hl
    subst hl
    have hD' := hD l rfl
    rcases record_of_notify (ho l) hr' with ⟨r, hr, hmq, hfl⟩ | ⟨-, rfl, hmq, hfl⟩
    · -- the record was there: what it has more is the flag
      have hsub : ∀ k, r.flags.has k → r'.flags.has k := by
        intro k hk
        rcases hfl with e | ⟨-, e⟩ <;> simp [e, hk]
      have hsup : ∀ k, r'.flags.has k →
          r.flags.has k ∨ ∃ mq flag, D l i mq flag ∧ flag.has k := by
        intro k hk
        rcases hfl with e | ⟨rfl, e⟩
        · exact .inl (e ▸ hk)
        · rw [e, Flags.has_or, Bool.or_eq_true] at hk
          exact hk.imp id fun hk => ⟨mq, flag, hD', hk⟩
      rcases h l i r hr with ⟨r₀, hr₀, hmq₀, h1, h2⟩ | ⟨⟨f, hf, h1⟩, h2⟩
      · refine .inl ⟨r₀, hr₀, hmq.trans hmq₀, fun k hk => hsub k (h1 k hk), ?_⟩
        intro k hk
        exact (hsup k hk).elim (h2 k) .inr
      · refine .inr ⟨⟨f, by rw [hmq]; exact hf, fun k hk => hsub k (h1 k hk)⟩, ?_⟩
        intro k hk
        exact (hsup k hk).elim (h2 k) id
    · subst hmq
      refine .inr ⟨⟨flag, hD', fun k hk => by rw [hfl]; exact hk⟩, ?_⟩
      intro k hk
      exact ⟨_, flag, hD', hfl ▸ hk⟩

omit [DecidableEq L] in
theorem Stems.write (h : Stems D m m') (a : A) (q : MessageQueue β L) :
    Stems D m (m'.write a q) := h

omit [DecidableEq L] in
theorem Stems.free (h : Stems D m m') (a : A) : Stems D m (m'.free a) := h

end Stems

theorem Effect.stems (e : Effect m op reply m') (ho : m.Ordered) :
    Stems (Delivers m op reply) m m' := by
  have hm : Stems (Delivers m op reply) m m := .refl m
  cases e with
  | moveConstruct _ _ hq =>
    exact ((hm.notify ho fun l hl => .moveConstruct hq hl).write _ _).write _ _
  | moveAssign hne hp hq =>
    refine (((hm.notify ho fun l hl => .assignOver hne hp hl).notify (ho.notify _ _ _ _)
      fun l hl => .assignFrom hne hq hl).write _ _).write _ _
  | destroy hq => exact (hm.notify ho fun l hl => .destroy hq hl).free _
  | push hq =>
    refine Stems.write ?_ _ _
    split
    · rename_i hc
      exact hm.notify ho fun l hl => .push hq hl hc
    · exact hm
  | setListener hq hn =>
    refine Stems.write ?_ _ _
    split
    · exact hm
    · rename_i hc
      apply hm.notify ho
      intro l hl
      cases hl
      exact .setListener hq hn hc
  | _ => exact hm

/-- **What an operation delivers is in the list after it.** -/
theorem Effect.told_of_delivers (e : Effect m op reply m') (ho : m.Ordered) {l : L} {i : ℕ}
    {mq : Option A} {flag k : Flags} (h : Delivers m op reply l i mq flag) (hk : flag.has k) :
    m'.Told l i k := by
  -- the operation finds the queue that the notification is about
  have same : ∀ {a : A} {p q : MessageQueue β L}, m.object a = .alive p → m.object a = .alive q →
      p = q := fun hp hq => Object.alive.inj (hp.symm.trans hq)
  cases h with
  | setListener hq hn hne =>
    cases e with
    | setListener hp =>
      obtain rfl := same hp hq
      rw [told_write, if_neg hne]
      exact told_notify ho l _ _ hk
  | push hq hl hc =>
    cases e with
    | push hp =>
      obtain rfl := same hp hq
      rw [told_write, if_pos hc, hl]
      exact told_notify ho l _ _ hk
  | moveConstruct hq hl =>
    cases e with
    | moveConstruct _ _ hp =>
      obtain rfl := same hp hq
      rw [told_write, told_write, hl]
      exact told_notify ho l _ _ hk
  | assignOver hne hq hl =>
    cases e with
    | selfAssign => exact absurd rfl hne
    | moveAssign _ hp =>
      obtain rfl := same hp hq
      rw [told_write, told_write, hl]
      exact (told_notify ho l _ _ hk).notify (ho.notify _ _ _ _) _ _ _ _
  | assignFrom hne hq hl =>
    cases e with
    | selfAssign => exact absurd rfl hne
    | moveAssign _ _ hp =>
      obtain rfl := same hp hq
      rw [told_write, told_write, hl]
      exact told_notify (ho.notify _ _ _ _) l _ _ hk
  | destroy hq hl =>
    cases e with
    | destroy hp =>
      obtain rfl := same hp hq
      rw [told_free, hl]
      exact told_notify ho l _ _ hk

omit [DecidableEq A] [DecidableEq L] in
theorem Delivers.flag {m : Memory A β L} {op : Op A β L} {reply : Op.Reply β} {l : L} {i : ℕ}
    {mq : Option A} {flag : Flags} (h : Delivers m op reply l i mq flag) :
    flag ∈ Flag.all := by
  cases h <;> simp [Flag.all]

end Memory

end Mqmx
