import Mathlib.Data.List.TakeWhile
import Mqmx.Pool.Registry

/-!
# The slots of the handler table

`allocate_queue` takes the first empty slot, and the slot is the id of the queue.  No
function of the pool ever empties one: `remove_queue` and the handler of the control queue
leave `_handler` alone.  So the number of slots taken is the number of calls so far
(`occupied_eq`), and the slots last for `capacity` calls, however many queues are alive
(`goodSlots_iff`).

The clients here only push; then a queue keeps its id, and `remove_queue` finds it
(`Slots.found`).
-/

namespace Mqmx.Pool

open Transition (System Run Reachable)

variable {A T H U σ : Type}

/-! ### The search for a slot -/

section Table

variable {handler : List (Option (Handler H))}

/-- How many slots are taken, with that of the control queue. -/
def occupied (handler : List (Option (Handler H))) : ℕ := handler.countP Option.isSome

theorem firstFree_pos (handler : List (Option (Handler H))) : 0 < firstFree handler := by
  unfold firstFree
  omega

theorem firstFree_empty (h : firstFree handler < handler.length) :
    handler[firstFree handler]? = some none := by
  cases handler with
  | nil => simp at h
  | cons c rest =>
    have hsplit : rest.takeWhile Option.isSome ++ rest.dropWhile Option.isSome = rest :=
      List.takeWhile_append_dropWhile
    have hget : (c :: rest)[firstFree (c :: rest)]? = (rest.dropWhile Option.isSome).head? := by
      unfold firstFree
      rw [Nat.add_comm, List.tail_cons, List.getElem?_cons_succ]
      have key : ∀ v w : List (Option (Handler H)), (v ++ w)[v.length]? = w.head? := fun v w => by
        rw [List.getElem?_append_right (Nat.le_refl _), Nat.sub_self, List.head?_eq_getElem?]
      have := key (rest.takeWhile Option.isSome) (rest.dropWhile Option.isSome)
      rwa [hsplit] at this
    rw [hget]
    cases hd : rest.dropWhile Option.isSome with
    | nil =>
      rw [hd, List.append_nil] at hsplit
      simp only [firstFree, List.tail_cons, hsplit, List.length_cons] at h
      omega
    | cons x v =>
      have hx := List.head?_dropWhile_not Option.isSome rest
      rw [hd] at hx
      cases x with
      | none => rfl
      | some c => cases hx

theorem firstFree_lt_iff (h : handler[0]? = some (some .control)) :
    firstFree handler < handler.length ↔ occupied handler < handler.length := by
  cases handler with
  | nil => simp at h
  | cons c rest =>
    obtain rfl : c = some .control := by simpa using h
    have hle : (rest.takeWhile Option.isSome).length ≤ rest.length :=
      (List.takeWhile_sublist _).length_le
    have hle' : rest.countP Option.isSome ≤ rest.length := List.countP_le_length
    have hiff : (rest.takeWhile Option.isSome).length = rest.length ↔
        rest.countP Option.isSome = rest.length := by
      rw [List.countP_eq_length]
      constructor
      · intro hl x hx
        have hall := (List.takeWhile_sublist Option.isSome).eq_of_length hl
        rw [← hall] at hx
        exact List.mem_takeWhile_imp hx
      · intro hall
        rw [List.takeWhile_eq_self_iff.mpr hall]
    simp only [firstFree, occupied, List.tail_cons, List.length_cons, List.countP_cons,
      Option.isSome_some, if_true]
    omega

theorem occupied_set {k : ℕ} (h : handler[k]? = some none) (c : Handler H) :
    occupied (handler.set k (some c)) = occupied handler + 1 := by
  obtain ⟨hk, he⟩ := List.getElem?_eq_some_iff.mp h
  rw [occupied, List.countP_set hk, he]
  simp [occupied]

end Table

/-! ### Clients that push -/

section Pushing

variable [DecidableEq A] [DecidableEq T] [Semaphore σ]

/-- Beside the functions of the pool clients only push, messages of their own into queues
that are theirs. -/
def Label.Pushes (mqControl : A) (_ : State A T H U σ) : Label A T H U → Prop
  | .op o _ => ∃ a msg, o = .push a msg ∧ a ≠ mqControl ∧ ∀ x, msg = some x → request? x = none
  | _ => True

omit [DecidableEq A] [DecidableEq T] [Semaphore σ] in
theorem Label.Pushes.public {mqControl : A} {s : State A T H U σ} {x : Label A T H U}
    (h : x.Pushes mqControl s) : x.Public mqControl s := by
  cases x with
  | op o r =>
    obtain ⟨a, msg, rfl, ha, hmsg⟩ := h
    exact ⟨fun e => ha e.symm, hmsg⟩
  | _ => trivial

/-- Beside the functions of the pool clients do with queues what they like, but have no access
to the control queue, delete queues of the pool through `mq_deleter` only, and move none of
those. -/
def Label.Unmoved (mqControl : A) (s : State A T H U σ) : Label A T H U → Prop
  | .op o r => (Label.op o r : Label A T H U).Guarded mqControl s ∧
      (Memory.Moves o → ∀ a, s.pooled a = true → ¬ Memory.Concerns a o)
  | _ => True

omit [DecidableEq A] [DecidableEq T] [Semaphore σ] in
theorem Label.Unmoved.guarded {mqControl : A} {s : State A T H U σ} {x : Label A T H U}
    (h : x.Unmoved mqControl s) : x.Guarded mqControl s := by
  cases x with
  | op o r => exact h.1
  | _ => trivial

omit [DecidableEq A] [DecidableEq T] [Semaphore σ] in
theorem Label.Pushes.unmoved {mqControl : A} {s : State A T H U σ} {x : Label A T H U}
    (h : x.Pushes mqControl s) : x.Unmoved mqControl s := by
  cases x with
  | op o r =>
    refine ⟨h.public.guarded, ?_⟩
    obtain ⟨b, msg, rfl, -⟩ := h
    exact False.elim
  | _ => trivial

/-- The pool among clients that push. -/
def pushing (mqControl : A) (capacity : ℕ) : System (State A T H U σ) (Label A T H U) :=
  (system mqControl capacity).restrict (Label.Pushes mqControl)

/-- The table, and the ids of the queues that were taken from it. -/
structure Slots (mqControl : A) (capacity : ℕ) (s : State A T H U σ) : Prop where
  registry : Registry mqControl s
  length : s.handler.length = capacity + 1
  control : s.handler[0]? = some (some .control)
  client : ∀ k, 0 < k → s.handler[k]? ≠ some (some .control)
  taken : ∀ a q, s.pooled a = true → s.memory.object a = .alive q →
    0 < q.id ∧ ∃ h, s.handler[q.id]? = some (some (.client h))
  distinct : ∀ a b p q, s.pooled a = true → s.pooled b = true → s.memory.object a = .alive p →
    s.memory.object b = .alive q → p.id = q.id → a = b

variable {mqControl : A} {capacity : ℕ} {s t : State A T H U σ} {x : Label A T H U}

theorem Step.handler (hs : Step mqControl s x t) :
    (t.handler = s.handler ∧ t.pooled = s.pooled ∧ ∀ u hd mq k, x ≠ .allocate u hd mq k) ∨
      ∃ u hd mq, x = .allocate u hd mq (firstFree s.handler) ∧ s.memory.object mq = .unborn ∧
        firstFree s.handler < s.handler.length ∧
        t.handler = s.handler.set (firstFree s.handler) (some (.client hd)) ∧
        t.pooled = Function.update s.pooled mq true := by
  cases hs with
  | allocate _ hlt hm =>
    exact .inr ⟨_, _, _, rfl, (Memory.construct_cases hm).1, hlt, rfl, rfl⟩
  | _ => exact .inl ⟨rfl, rfl, by simp⟩

theorem id_before (hp : x.Pushes mqControl s) (hs : Step mqControl s x t) {a : A}
    {q : MessageQueue (Body A T U) (Party T)} (hq : t.memory.object a = .alive q) :
    (∃ p, s.memory.object a = .alive p ∧ p.id = q.id) ∨ ∃ u hd, x = .allocate u hd a q.id := by
  rcases hs.memory with e | ⟨l, -, e⟩ | ⟨o, r, hc, e⟩
  · exact .inl ⟨q, by rw [← e, hq], rfl⟩
  · rw [e] at hq
    exact .inl ⟨q, hq, rfl⟩
  · have hmoves : ¬ Memory.Moves o := by
      cases hc with
      | op o r =>
        obtain ⟨b, msg, rfl, -⟩ := hp
        exact id
      | _ => exact id
    rcases e.id_before hq hmoves with hb | rfl
    · exact .inl hb
    · cases hc with
      | construct u hd => exact .inr ⟨u, hd, rfl⟩
      | op =>
        obtain ⟨b, msg, hb, -⟩ := hp
        cases hb

theorem Slots.found (h : Slots mqControl capacity s) (hs : Step mqControl s x t) :
    x.Found s := by
  cases hs with
  | @check u mq hpc =>
    have hu : ((s.ledger mqControl).client u).queue? = some mq := by
      show (s.client u).queue? = some mq
      rw [hpc]
      rfl
    obtain ⟨q, hq⟩ := h.registry.alive mq (.inr ⟨u, hu⟩)
    have hpool : s.pooled mq = true := h.registry.ledger.pooled mq (.inr (.inr ⟨u, hu⟩))
    obtain ⟨-, hd, hk⟩ := h.taken mq q hpool hq
    show registered s.handler (s.memory.qid mq) = true
    rw [Memory.qid_of_alive hq, registered, hk]
    rfl
  | _ => trivial

theorem Slots.keep (h : Slots mqControl capacity s) (hreg : Registry mqControl t)
    (hid : ∀ a q, t.pooled a = true → t.memory.object a = .alive q →
      (∃ p, s.memory.object a = .alive p ∧ p.id = q.id) ∨ ∃ u hd, x = .allocate u hd a q.id)
    (hs : Step mqControl s x t) : Slots mqControl capacity t := by
  rcases hs.handler with ⟨hh, hpool, hx⟩ | ⟨u, hd, mq, rfl, hunborn, hlt, hh, hpool⟩
  · have back : ∀ {a q}, s.pooled a = true → t.memory.object a = .alive q →
        ∃ p, s.memory.object a = .alive p ∧ p.id = q.id := by
      intro a q ha hq
      rw [← hpool] at ha
      rcases hid a q ha hq with hb | ⟨u, hd, e⟩
      · exact hb
      · exact absurd e (hx _ _ _ _)
    refine ⟨hreg, by rw [hh, h.length], by rw [hh, h.control], by rw [hh]; exact h.client, ?_, ?_⟩
    · intro a q ha hq
      rw [hpool] at ha
      obtain ⟨p, hp', e⟩ := back ha hq
      rw [hh, ← e]
      exact h.taken a p ha hp'
    · intro a b p q ha hb hp hq hpq
      rw [hpool] at ha hb
      obtain ⟨p', hp', e⟩ := back ha hp
      obtain ⟨q', hq', e'⟩ := back hb hq
      exact h.distinct a b p' q' ha hb hp' hq' (by omega)
  · have hempty := firstFree_empty hlt
    have hpos := firstFree_pos s.handler
    -- the slots of the other queues are others
    have old : ∀ {a q}, t.pooled a = true → t.memory.object a = .alive q → a ≠ mq →
        s.pooled a = true ∧ (∃ p, s.memory.object a = .alive p ∧ p.id = q.id) ∧
          q.id ≠ firstFree s.handler := by
      intro a q ha hq hne
      rcases hid a q ha hq with ⟨p, hp', e⟩ | ⟨u, hd, e⟩
      · rw [hpool, Function.update_of_ne hne] at ha
        refine ⟨ha, ⟨p, hp', e⟩, ?_⟩
        intro hk
        obtain ⟨-, c, hc⟩ := h.taken a p ha hp'
        rw [e, hk, hempty] at hc
        cases hc
      · injection e with _ _ e
        exact absurd e.symm hne
    have new : ∀ {q}, t.memory.object mq = .alive q → q.id = firstFree s.handler := by
      intro q hq
      have ha : t.pooled mq = true := by rw [hpool, Function.update_self]
      rcases hid mq q ha hq with ⟨p, hp', e⟩ | ⟨u, hd, e⟩
      · rw [hunborn] at hp'
        cases hp'
      · injection e with _ _ _ e
        exact e.symm
    refine ⟨hreg, by rw [hh, List.length_set, h.length], ?_, ?_, ?_, ?_⟩
    · rw [hh, List.getElem?_set_ne (by omega), h.control]
    · intro k hk
      rw [hh]
      by_cases hk' : firstFree s.handler = k
      · rw [← hk', List.getElem?_set_self hlt]
        simp
      · rw [List.getElem?_set_ne hk']
        exact h.client k hk
    · intro a q ha hq
      by_cases hne : a = mq
      · subst hne
        rw [new hq, hh, List.getElem?_set_self hlt]
        exact ⟨hpos, hd, rfl⟩
      · obtain ⟨ha', ⟨p, hp', e⟩, hk⟩ := old ha hq hne
        rw [hh, List.getElem?_set_ne (Ne.symm hk), ← e]
        exact h.taken a p ha' hp'
    · intro a b p q ha hb hp' hq hpq
      by_cases hne : a = mq
      · by_cases hne' : b = mq
        · rw [hne, hne']
        · subst hne
          exact absurd (hpq.symm.trans (new hp')) (old hb hq hne').2.2
      · by_cases hne' : b = mq
        · subst hne'
          exact absurd (hpq.trans (new hq)) (old ha hp' hne).2.2
        · obtain ⟨ha', ⟨p', hp'', e⟩, -⟩ := old ha hp' hne
          obtain ⟨hb', ⟨q', hq'', e'⟩, -⟩ := old hb hq hne'
          exact h.distinct a b p' q' ha' hb' hp'' hq'' (by omega)

theorem Slots.step (h : Slots mqControl capacity s) (hp : x.Pushes mqControl s)
    (hs : Step mqControl s x t) : Slots mqControl capacity t :=
  h.keep (h.registry.step hp.public.guarded (h.found hs) hs)
    (fun _ _ _ hq => id_before hp hs hq) hs

omit [DecidableEq T] in
theorem slots_initial (mqControl : A) (capacity : ℕ) :
    Slots mqControl capacity (.initial mqControl capacity : State A T H U σ) where
  registry := registry_initial mqControl capacity
  length := by simp [State.initial]
  control := rfl
  client := by
    intro k hk
    obtain ⟨k, rfl⟩ : ∃ j, k = j + 1 := ⟨k - 1, by omega⟩
    simp only [State.initial, List.getElem?_cons_succ, List.getElem?_replicate]
    split <;> simp
  taken := by
    intro a q ha
    cases ha
  distinct := by
    intro a b p q ha
    cases ha

theorem slots_run {ls : List (Label A T H U)}
    (hr : Run (pushing mqControl capacity) (.initial mqControl capacity) ls s) :
    Slots mqControl capacity s :=
  hr.invariant (S := pushing mqControl capacity) (P := Slots mqControl capacity)
    (fun _ _ _ h hs => h.step hs.1 hs.2) (slots_initial mqControl capacity)

/-! ### How long the slots last -/

def Label.slot? : Label A T H U → Option ℕ
  | .allocate _ _ _ slot => some slot
  | .overflow _ slot => some slot
  | _ => none

/-- How many calls of `allocate_queue` there were. -/
def calls (ls : List (Label A T H U)) : ℕ := (ls.filterMap Label.slot?).length

omit [DecidableEq A] [DecidableEq T] in
theorem calls_snoc (ls : List (Label A T H U)) (x : Label A T H U) :
    calls (ls ++ [x]) = calls ls + if x.slot?.isSome then 1 else 0 := by
  cases h : x.slot? <;> simp [calls, h]

/-- Every call finds a slot of the table, not that of the control queue, and no queue of the
pool that is alive has it. -/
def GoodSlots (mqControl : A) (capacity : ℕ) (i : State A T H U σ) (ls : List (Label A T H U)) :
    Prop :=
  ∀ ls₁ x ls₂ s t k, ls = ls₁ ++ x :: ls₂ → Run (pushing mqControl capacity) i ls₁ s →
    (pushing mqControl capacity).step s x t → x.slot? = some k → 1 ≤ k ∧ k ≤ capacity ∧
      ∀ a q, s.pooled a = true → s.memory.object a = .alive q → q.id ≠ k

theorem Step.slot (hs : Step mqControl s x t) {k : ℕ} (hk : x.slot? = some k) :
    k = firstFree s.handler := by
  cases hs with
  | allocate | overflow =>
    cases hk
    rfl
  | _ => cases hk

/-- **Every call takes a slot**, until none is left. -/
theorem occupied_eq {ls : List (Label A T H U)}
    (hr : Run (pushing mqControl capacity) (.initial mqControl capacity) ls s) :
    occupied s.handler = min (calls ls) capacity + 1 := by
  refine (hr.history_invariant (P := fun ls s => Slots mqControl capacity s ∧
    occupied s.handler = min (calls ls) capacity + 1) (fun ls s x t h hx => ?_)
    ⟨slots_initial mqControl capacity, ?_⟩).2
  · obtain ⟨hs, ho⟩ := h
    refine ⟨hs.step hx.1 hx.2, ?_⟩
    have hfull := firstFree_lt_iff hs.control
    rw [hs.length, ho] at hfull
    obtain ⟨hp, hx⟩ := hx
    rcases hx.handler with ⟨hh, -, hna⟩ | ⟨u, hd, mq, rfl, -, hlt, hh, -⟩
    · rw [hh, ho, calls_snoc]
      cases hx with
      | allocate => exact absurd rfl (hna _ _ _ _)
      | overflow _ hge =>
        rw [hs.length] at hge
        simp only [Label.slot?, Option.isSome_some, if_true]
        omega
      | _ => simp [Label.slot?]
    · have hset := occupied_set (firstFree_empty hlt) (.client hd)
      rw [hs.length] at hlt
      rw [hh, hset, ho, calls_snoc]
      simp only [Label.slot?, Option.isSome_some, if_true]
      omega
  · simp [calls, State.initial, occupied]

/-- **The slots last for `capacity` calls of `allocate_queue`**, whatever becomes of the
queues. -/
theorem goodSlots_iff {ls : List (Label A T H U)}
    (hr : Run (pushing mqControl capacity) (.initial mqControl capacity) ls s) :
    GoodSlots mqControl capacity (.initial mqControl capacity : State A T H U σ) ls ↔
      calls ls ≤ capacity := by
  -- a call finds a slot of the table as long as one is left
  have slot : ∀ {ls x s t k}, Run (pushing mqControl capacity)
      (.initial mqControl capacity : State A T H U σ) ls s → Step mqControl s x t →
      x.slot? = some k → (k ≤ capacity ↔ calls ls < capacity) := by
    intro ls x s t k hr hx hk
    have hs := slots_run hr
    have hfull := firstFree_lt_iff hs.control
    rw [hs.length, occupied_eq hr, ← hx.slot hk] at hfull
    omega
  constructor
  · refine (hr.history_invariant (P := fun ls s =>
      Run (pushing mqControl capacity) (.initial mqControl capacity) ls s ∧
        (GoodSlots mqControl capacity (.initial mqControl capacity : State A T H U σ) ls →
          calls ls ≤ capacity)) (fun ls s x t h hx => ?_) ⟨.nil _, ?_⟩).2
    · refine ⟨h.1.snoc hx, ?_⟩
      intro hg
      have hle := h.2 fun ls₁ y ls₂ u v k e => hg ls₁ y (ls₂ ++ [x]) u v k (by simp [e])
      rw [calls_snoc]
      cases hk : x.slot? with
      | none => simpa using hle
      | some k =>
        have := (slot h.1 hx.2 hk).mp (hg ls x [] s t k (by simp) h.1 hx hk).2.1
        simp only [Option.isSome_some, if_true]
        omega
    · intro _
      exact Nat.zero_le _
  · rintro hle ls₁ x ls₂ s t k rfl hr₁ hx hk
    have hlt : calls ls₁ < capacity := by
      simp only [calls, List.filterMap_append, List.filterMap_cons, hk, List.length_append,
        List.length_cons] at hle
      simp only [calls]
      omega
    have hkc := (slot hr₁ hx.2 hk).mpr hlt
    have hs := slots_run hr₁
    obtain rfl := hx.2.slot hk
    refine ⟨firstFree_pos _, hkc, ?_⟩
    intro a q ha hq e
    -- the slot is empty, and that of a queue that is alive is not
    obtain ⟨-, c, hc⟩ := hs.taken a q ha hq
    rw [e, firstFree_empty (by rw [hs.length]; omega)] at hc
    cases hc

/-- A queue comes and goes, and another one comes. -/
theorem goodSlots_iff_two :
    GoodSlots 0 2 (pool 2) (allocating 1 1 ++ (deleting 1 2 ++ [.allocate () () 2 2])) := by
  have hlast : Run (system 0 2) (oneDeleted 1).1 [.allocate () () 2 2] _ :=
    .single (.allocate rfl (by decide) rfl)
  have hrun : Run (pushing 0 2) (pool 2) _ _ :=
    ((oneAdded 1).2.append ((oneDeleted 1).2.append hlast)).of_labels
      (by simp [allocating, deleting, taking, Label.Pushes])
  exact (goodSlots_iff hrun).mpr (by decide)

/-- At no time more than `capacity` queues of the pool are alive, `n` at first. -/
def LiveAtMost (capacity : ℕ) : ℕ → List (Label A T H U) → Prop
  | _, [] => True
  | n, .allocate _ _ _ _ :: ls => n + 1 ≤ capacity ∧ LiveAtMost capacity (n + 1) ls
  | n, .free _ _ :: ls => LiveAtMost capacity (n - 1) ls
  | n, _ :: ls => LiveAtMost capacity n ls

/-- **One slot does not last for two queues**, one after the other. -/
theorem churn_not_goodSlots : ¬ ∀ ls s, Run (pushing 0 1) one ls s → LiveAtMost 1 0 ls →
    GoodSlots 0 1 one ls := by
  intro h
  have hrun : Run (pushing 0 1) one (allocating 1 1 ++ deleting 1 2) (oneDeleted 0).1 :=
    ((oneAdded 0).2.append (oneDeleted 0).2).of_labels
      (by simp [allocating, deleting, taking, Label.Pushes])
  have hlast : ∀ {s : State ℕ Unit Unit Unit ℕ}, s.client () = .idle →
      firstFree s.handler = 2 → s.handler.length = 2 →
      (pushing 0 1).step s (.overflow () 2) (s.goto () .aborted) := fun {s} hc hf hl => by
    refine ⟨trivial, ?_⟩
    rw [← hf]
    exact .overflow hc (by omega)
  have hgood := h _ _ (hrun.snoc (hlast rfl rfl rfl)) ⟨by decide, trivial⟩
  have hle := (hgood _ (.overflow () 2) [] _ _ 2 rfl hrun (hlast rfl rfl rfl) rfl).2.1
  omega

end Pushing

end Mqmx.Pool
