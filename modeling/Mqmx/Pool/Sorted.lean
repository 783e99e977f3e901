import Mqmx.Pool.Listening

/-!
# `_mqs` is sorted

The handler of the control queue inserts a queue after all with smaller ids and asserts that
the next one has a greater id.  The ids are the slots of the table, which no two queues share,
as long as nobody moves a queue of the pool: then `_mqs` is ascending after every message that
the handler has processed, and the assertion holds (`registry_sorted`).
-/

namespace Mqmx.Pool

open Transition (System Run)

variable {A T H U σ : Type}

/-! ### Insertion -/

theorem mem_of_mem_insert {p : A → Bool} {rest : List A} {a c : A}
    (h : c ∈ rest.takeWhile p ++ a :: rest.dropWhile p) : c = a ∨ c ∈ rest := by
  rcases List.mem_append.mp h with h | h
  · exact .inr ((List.takeWhile_sublist p).subset h)
  · rcases List.mem_cons.mp h with rfl | h
    · exact .inl rfl
    · exact .inr ((List.dropWhile_sublist p).subset h)

/-- **An insertion after the smaller ones keeps a list ascending**, where the key is new. -/
theorem insert_ascending {key : A → ℕ} {a : A} :
    ∀ {rest : List A}, rest.Pairwise (fun b c => key b < key c) → (∀ b ∈ rest, key b ≠ key a) →
      (rest.takeWhile (fun b => key b < key a) ++
        a :: rest.dropWhile (fun b => key b < key a)).Pairwise (fun b c => key b < key c) := by
  intro rest hs hne
  induction rest with
  | nil => simp
  | cons b rest ih =>
    obtain ⟨hb, hs⟩ := List.pairwise_cons.mp hs
    by_cases hlt : key b < key a
    · simp only [List.takeWhile_cons, List.dropWhile_cons, hlt, decide_true, if_true,
        List.cons_append]
      refine List.pairwise_cons.mpr ⟨?_, ih hs fun c hc => hne c (List.mem_cons_of_mem _ hc)⟩
      intro c hc
      rcases mem_of_mem_insert hc with rfl | hc
      · exact hlt
      · exact hb c hc
    · have hab : key a < key b := by
        have := hne b List.mem_cons_self
        omega
      simp only [List.takeWhile_cons, List.dropWhile_cons, hlt, decide_false, if_false,
        List.nil_append, Bool.false_eq_true]
      refine List.pairwise_cons.mpr ⟨?_, List.pairwise_cons.mpr ⟨hb, hs⟩⟩
      intro c hc
      rcases List.mem_cons.mp hc with rfl | hc
      · exact hab
      · exact hab.trans (hb c hc)

/-- The queues are in the order of their ids, and no two have the same. -/
def Sorted (m : PoolMemory A T U) (mqs : List A) : Prop :=
  mqs.Pairwise fun a b => m.qid a < m.qid b

theorem Sorted.congr {m m' : PoolMemory A T U} {mqs : List A} (h : Sorted m mqs)
    (hid : ∀ a ∈ mqs, m'.qid a = m.qid a) : Sorted m' mqs := by
  refine List.Pairwise.imp_of_mem ?_ h
  intro a b ha hb hlt
  rw [hid a ha, hid b hb]
  exact hlt

/-- **The assertion at the insertion holds**, for a queue with an id of its own. -/
theorem insertQueue_sorted {m : PoolMemory A T U} {control a : A} {rest : List A}
    (h : Sorted m (control :: rest)) (hlt : m.qid control < m.qid a)
    (hne : ∀ b ∈ rest, m.qid b ≠ m.qid a) :
    ∃ mqs, insertQueue m (control :: rest) a = some mqs ∧ Sorted m mqs := by
  obtain ⟨hcontrol, hrest⟩ := List.pairwise_cons.mp h
  have hs := insert_ascending hrest hne
  have hafter := (List.pairwise_cons.mp (List.pairwise_append.mp hs).2.1).1
  refine ⟨_, if_pos fun b hb => hafter b (List.mem_of_mem_head? hb), ?_⟩
  refine List.pairwise_cons.mpr ⟨?_, hs⟩
  intro b hb
  rcases mem_of_mem_insert hb with rfl | hb
  · exact hlt
  · exact hcontrol b hb

/-! ### What the handler has processed -/

section Enrolled

variable [DecidableEq A]

def enroll (mqs : List A) : Label A T H U → List A
  | .control msg (some _) =>
    match msg.body with
    | .add mq _ => if msg.mid = addQueueMessageId then mq :: mqs else mqs
    | .remove mq _ => if msg.mid = removeQueueMessageId then mqs.erase mq else mqs
    | _ => mqs
  | _ => mqs

def enrolled (ls : List (Label A T H U)) : List A := ls.foldl enroll []

@[simp] theorem enrolled_snoc (ls : List (Label A T H U)) (x : Label A T H U) :
    enrolled (ls ++ [x]) = enroll (enrolled ls) x := by
  simp [enrolled]

theorem controlQueueHandler_enroll {m : PoolMemory A T U} {mqs mqs' : List A}
    {msg : Message (Body A T U)} {status : ExitStatus} {sem : Option T}
    (h : controlQueueHandler m mqs msg = some (status, mqs', sem)) :
    (mqs' = mqs ∧ ∀ as, enroll as (.control msg (some status) : Label A T H U) = as) ∨
    (∃ a u, request? msg = some (.add a u) ∧ insertQueue m mqs a = some mqs' ∧
      ∀ as, enroll as (.control msg (some status) : Label A T H U) = a :: as) ∨
    ∃ a u, request? msg = some (.remove a u) ∧ mqs' = mqs.erase a ∧
      ∀ as, enroll as (.control msg (some status) : Label A T H U) = as.erase a := by
  unfold controlQueueHandler at h
  split at h
  · rename_i hmid
    cases h
    refine .inl ⟨rfl, fun as => ?_⟩
    simp only [enroll, hmid]
    cases msg.body <;> rfl
  split at h
  · rename_i hmid
    cases h
    refine .inl ⟨rfl, fun as => ?_⟩
    simp only [enroll, hmid]
    cases msg.body <;> rfl
  split at h
  · rename_i hmid
    split at h
    · rename_i a u hb
      obtain ⟨v, hv, e⟩ := Option.map_eq_some_iff.mp h
      cases e
      exact .inr (.inl ⟨a, u, by simp [request?, hb], hv, fun as => by simp [enroll, hb, hmid]⟩)
    · cases h
  split at h
  · rename_i hmid
    split at h
    · rename_i a u hb
      cases h
      exact .inr (.inr ⟨a, u, by simp [request?, hb], rfl, fun as => by simp [enroll, hb, hmid]⟩)
    · cases h
  · rename_i hadd hremove
    cases h
    refine .inl ⟨rfl, fun as => ?_⟩
    simp only [enroll, hadd, hremove, if_false]
    cases msg.body <;> rfl

end Enrolled

/-! ### One step -/

section Step

variable [DecidableEq A] [DecidableEq T] [Semaphore σ]

/-- The pool among clients that move none of its queues. -/
def unmoved (mqControl : A) (capacity : ℕ) : System (State A T H U σ) (Label A T H U) :=
  (system mqControl capacity).restrict (Label.Unmoved mqControl)

structure Sorting (mqControl : A) (capacity : ℕ) (s : State A T H U σ) : Prop where
  slots : Slots mqControl capacity s
  born : ∀ a, s.pooled a = true → s.memory.object a ≠ .unborn
  /-- A queue that is asked out is still there. -/
  leaving : ∀ a u, Request.remove a u ∈ s.requests mqControl → a ∈ s.mqs
  sorted : Sorted s.memory s.mqs

variable {mqControl : A} {capacity : ℕ} {s t : State A T H U σ} {x : Label A T H U}

omit [DecidableEq A] [DecidableEq T] [Semaphore σ] in
theorem request_mem {rec : NotificationRec A} {msg : Message (Body A T U)}
    {mqlist : List (NotificationRec A)} {r : Request A T} (hw : s.worker = .call rec msg mqlist)
    (hr : request? msg = some r) : r ∈ s.requests mqControl := by
  rw [State.requests, hw]
  exact List.mem_filterMap.mpr ⟨msg, List.mem_cons_self, hr⟩

/-- **What a step does to `_mqs`.** -/
theorem Step.enroll (hs : Step mqControl s x t) :
    (t.mqs = s.mqs ∧ ∀ as, enroll as x = as) ∨
    (∃ a u, Request.add a u ∈ s.requests mqControl ∧
      insertQueue s.memory s.mqs a = some t.mqs ∧ t.memory = s.memory ∧
      ∀ as, enroll as x = a :: as) ∨
    ∃ a u, Request.remove a u ∈ s.requests mqControl ∧ t.mqs = s.mqs.erase a ∧
      ∀ as, enroll as x = as.erase a := by
  cases hs with
  | control hw _ hc =>
    rcases controlQueueHandler_enroll (H := H) hc with h | ⟨a, u, hr, hins, he⟩ |
      ⟨a, u, hr, hrem, he⟩
    · exact .inl h
    · exact .inr (.inl ⟨a, u, request_mem hw hr, hins, rfl, he⟩)
    · exact .inr (.inr ⟨a, u, request_mem hw hr, hrem, he⟩)
  | _ => exact .inl ⟨rfl, fun _ => rfl⟩

namespace Sorting

omit [DecidableEq A] [DecidableEq T] in
theorem head (h : Sorting mqControl capacity s) : ∃ rest, s.mqs = mqControl :: rest := by
  obtain ⟨rest, hrest⟩ := List.head?_eq_some_iff.mp h.slots.registry.ledger.head
  exact ⟨rest, hrest⟩

omit [DecidableEq A] [DecidableEq T] in
theorem insert (h : Sorting mqControl capacity s) {a : A} {u : T}
    (hr : Request.add a u ∈ s.requests mqControl) :
    ∃ mqs, insertQueue s.memory s.mqs a = some mqs ∧ Sorted s.memory mqs := by
  have hledger := h.slots.registry.ledger
  obtain ⟨rest, hrest⟩ := h.head
  have hu : ((s.ledger mqControl).client u).queue? = some a := by
    have hpc : (s.ledger mqControl).client u = .added a := (hledger.waits _ hr).1
    rw [hpc]
    rfl
  have hfresh : a ∉ s.mqs := hledger.fresh a u hr
  have hpool : s.pooled a = true := hledger.pooled a (.inr (.inr ⟨u, hu⟩))
  obtain ⟨q, hq⟩ := h.slots.registry.alive a (.inr ⟨u, hu⟩)
  have hqid := Memory.qid_of_alive hq
  rw [hrest] at hfresh ⊢
  refine insertQueue_sorted (hrest ▸ h.sorted) ?_ ?_
  · obtain ⟨c, hc, hid⟩ := h.slots.registry.control
    rw [hqid, Memory.qid_of_alive hc, hid]
    exact (h.slots.taken a q hpool hq).1
  · -- two queues of the pool have two slots
    intro b hb e
    have hmem : b ∈ s.mqs := hrest ▸ List.mem_cons_of_mem _ hb
    have hne : b ≠ mqControl := by
      rintro rfl
      have hnodup := hledger.nodup
      simp only [State.ledger, hrest] at hnodup
      exact (List.nodup_cons.mp hnodup).1 hb
    obtain ⟨p, hp⟩ := h.slots.registry.alive b (.inl hmem)
    have hpool' : s.pooled b = true := hledger.pooled b (.inl ⟨hmem, hne⟩)
    rw [Memory.qid_of_alive hp, hqid] at e
    obtain rfl := h.slots.distinct b a p q hpool' hpool hp hq e
    exact hfresh (List.mem_cons_of_mem _ hb)

omit [DecidableEq A] [DecidableEq T] in
theorem ne_control (h : Sorting mqControl capacity s) {a : A} {u : T}
    (hr : Request.remove a u ∈ s.requests mqControl) : a ≠ mqControl := by
  have hpc : (s.ledger mqControl).client u = .removed a :=
    (h.slots.registry.ledger.waits _ hr).1
  exact h.slots.registry.ledger.ne_control (t := u) (by rw [hpc]; rfl)

theorem id_before (h : Sorting mqControl capacity s) (hp : x.Unmoved mqControl s)
    (hs : Step mqControl s x t) {a : A} {q : MessageQueue (Body A T U) (Party T)}
    (ha : t.pooled a = true) (hq : t.memory.object a = .alive q) :
    (∃ p, s.memory.object a = .alive p ∧ p.id = q.id) ∨ ∃ u hd, x = .allocate u hd a q.id := by
  rcases hs.memory with e | ⟨l, -, e⟩ | ⟨o, r, hc, e⟩
  · exact .inl ⟨q, by rw [← e, hq], rfl⟩
  · rw [e] at hq
    exact .inl ⟨q, hq, rfl⟩
  · by_cases hm : Memory.Moves o
    · -- only a client moves queues, and not this one
      cases hc with
      | op o r =>
        have ha : s.pooled a = true := by cases hs with | op => exact ha
        rw [e.object_of_not_concerns (hp.2 hm a ha)] at hq
        exact .inl ⟨q, hq, rfl⟩
      | _ => exact hm.elim
    · rcases e.id_before hq hm with hb | rfl
      · exact .inl hb
      · cases hc with
        | construct u hd => exact .inr ⟨u, hd, rfl⟩
        | op =>
          cases hs with
          | op _ hrun =>
            obtain ⟨m, hm, -⟩ := Option.map_eq_some_iff.mp hrun
            exact absurd (Memory.construct_cases hm).1 (h.born a ha)

theorem born_step (h : Sorting mqControl capacity s) (hs : Step mqControl s x t) {a : A}
    (ha : t.pooled a = true) : t.memory.object a ≠ .unborn := by
  rcases hs.handler with ⟨-, hpool, -⟩ | ⟨u, hd, mq, rfl, -, -, -, hpool⟩
  · rw [hpool] at ha
    exact hs.born (h.born a ha)
  · rw [hpool, Function.update_apply] at ha
    split at ha
    · rename_i e
      subst e
      cases hs with
      | allocate _ _ hm =>
        obtain ⟨-, rfl⟩ := Memory.construct_cases hm
        simp [Memory.object_write_self]
    · exact hs.born (h.born a ha)

theorem step (h : Sorting mqControl capacity s) (hp : x.Unmoved mqControl s)
    (hs : Step mqControl s x t) : Sorting mqControl capacity t := by
  have hledger := hs.ledger h.slots.registry hp.guarded (h.slots.found hs)
  have hregistry := h.slots.registry.step hp.guarded (h.slots.found hs) hs
  refine ⟨h.slots.keep hregistry (fun a q ha hq => h.id_before hp hs ha hq) hs,
    fun a ha => h.born_step hs ha, h.slots.registry.ledger.leaving h.leaving hledger, ?_⟩
  have hold : Sorted t.memory s.mqs := h.sorted.congr fun a ha => h.slots.qid hp hs ha
  rcases hs.enroll with ⟨e, -⟩ | ⟨a, u, hr, hins, hm, -⟩ | ⟨a, u, -, e, -⟩
  · rw [e]
    exact hold
  · obtain ⟨mqs, hmqs, hsorted⟩ := h.insert hr
    obtain rfl := Option.some.inj (hmqs.symm.trans hins)
    rw [hm]
    exact hsorted
  · rw [e]
    exact List.Pairwise.sublist (List.erase_sublist ..) hold

omit [DecidableEq T] in
theorem initial (mqControl : A) (capacity : ℕ) :
    Sorting mqControl capacity (.initial mqControl capacity : State A T H U σ) where
  slots := slots_initial mqControl capacity
  born := by
    intro a ha
    cases ha
  leaving := by
    intro a u hr
    simp [State.requests, State.initial, WorkerPc.hand, Memory.messages] at hr
  sorted := List.pairwise_singleton _ _

end Sorting

/-! ### Runs -/

theorem sorting_run {ls : List (Label A T H U)}
    (hr : Run (unmoved mqControl capacity) (.initial mqControl capacity) ls s) :
    Sorting mqControl capacity s ∧ s.mqs.Perm (mqControl :: enrolled ls) := by
  refine hr.history_invariant (P := fun ls s => Sorting mqControl capacity s ∧
    s.mqs.Perm (mqControl :: enrolled ls)) (fun ls s x t h hx => ?_)
    ⟨.initial mqControl capacity, List.Perm.refl _⟩
  obtain ⟨hsort, hperm⟩ := h
  refine ⟨hsort.step hx.1 hx.2, ?_⟩
  rw [enrolled_snoc]
  rcases hx.2.enroll with ⟨e, he⟩ | ⟨a, u, -, hins, -, he⟩ | ⟨a, u, hr, e, he⟩
  · rw [e, he]
    exact hperm
  · rw [he]
    exact (insertQueue_perm hins).trans ((hperm.cons a).trans (List.Perm.swap ..))
  · rw [e, he]
    have hne : a ≠ mqControl := hsort.ne_control hr
    have := hperm.erase a
    rwa [List.erase_cons_tail (by simpa using hne.symm)] at this

/-- `_mqs` is the control queue and, once each, the queues that were asked in and not asked out
again, in the order of their ids. -/
structure InOrder (mqControl : A) (ls : List (Label A T H U)) (s : State A T H U σ) : Prop where
  control : ∃ rest, s.mqs = mqControl :: rest
  ascending : Sorted s.memory s.mqs
  once : s.mqs.Nodup
  registered : s.mqs.Perm (mqControl :: enrolled ls)

/-- **The registry stays sorted**, as long as no queue of the pool is moved: the handler's
assertion never fails, and what it takes out is the one queue it is asked to. -/
theorem registry_sorted (mqControl : A) (capacity : ℕ) {ls : List (Label A T H U)}
    {s : State A T H U σ}
    (hr : Run (unmoved mqControl capacity) (.initial mqControl capacity) ls s) :
    InOrder mqControl ls s ∧
    (∀ msg a u t, msg.mid = addQueueMessageId → msg.body = .add a u →
      ¬ (unmoved mqControl capacity).step s (.control msg none) t) ∧
    ∀ msg a u status t, msg.mid = removeQueueMessageId → msg.body = .remove a u →
      (unmoved mqControl capacity).step s (.control msg (some status)) t →
      a ∈ s.mqs ∧ a ≠ mqControl ∧ t.mqs = s.mqs.erase a := by
  obtain ⟨h, hperm⟩ := sorting_run hr
  refine ⟨⟨h.head, h.sorted, h.slots.registry.ledger.nodup, hperm⟩, ?_, ?_⟩
  · rintro msg a u t hmid hb ⟨-, hs⟩
    cases hs with
    | controlAborts hw _ hc =>
      have hmem : Request.add a u ∈ s.requests mqControl :=
        request_mem hw (by simp [request?, hb])
      obtain ⟨mqs, hmqs, -⟩ := h.insert hmem
      simp [controlQueueHandler, hmid, hb, hmqs, terminateMessageId, pollPauseMessageId,
        addQueueMessageId] at hc
  · rintro msg a u status t hmid hb ⟨-, hs⟩
    cases hs with
    | control hw _ hc =>
      have hmem : Request.remove a u ∈ s.requests mqControl :=
        request_mem hw (by simp [request?, hb])
      refine ⟨h.leaving a u hmem, h.ne_control hmem, ?_⟩
      simp only [controlQueueHandler, hmid, hb, terminateMessageId, pollPauseMessageId,
        addQueueMessageId, removeQueueMessageId, Nat.reduceEqDiff, if_false, if_true,
        Option.some.injEq, Prod.mk.injEq] at hc
      exact hc.2.1.symm

/-- Two queues are taken in, and the first of them out. -/
theorem registry_sorted_two : ∃ s : State ℕ Unit Unit Unit ℕ,
    Run (unmoved 0 2) (pool 2) (allocating 1 1 ++ (allocating 2 2 ++ deleting 1 3)) s ∧
      s.mqs = [0, 2] ∧ Sorted s.memory s.mqs := by
  have hrun : Run (unmoved 0 2) (pool 2) _ twoDeleted.1 :=
    ((oneAdded 1).2.append (twoAdded.2.append twoDeleted.2)).of_labels
      (by simp [allocating, deleting, taking, Label.Unmoved])
  exact ⟨_, hrun, rfl, (registry_sorted 0 2 hrun).1.ascending⟩

end Step

end Mqmx.Pool
