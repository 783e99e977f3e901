import Mathlib.Logic.Function.Basic
import Mqmx.WorkQueue.System

/-!
# The work queue as a map

To its clients the work queue is a map from work id to work item: `WorkMap`.  This
file says what each call does to that map, in `Schedules`, `Updates`, `Cancels`,
`CancelsClient`, `ReportsIdle` and `Iterates`, and proves it of the vector behind it.

In every part one case is the map operation and the others leave the whole queue as
it was, so an error path that has touched the container, an id counter or the change
flag would break the statement.

The new id `schedule_work` returns may, after the counter has wrapped, belong to a
record that is still pending.  `Schedules` therefore says what is added record by
record, and says it of the map where the id was free.
-/

namespace Mqmx.WorkQueue

variable {ω : Type} {w : ℕ}

/-- What the work queue is for its clients. -/
abbrev WorkMap (ω : Type) (w : ℕ) := BitVec w → Option (WqItem ω w)

/-- The map a queue stands for. -/
def Members.map (q : Members ω w) : WorkMap ω w := toMap q.wqItemContainer

/-- What `schedule_work` and `update_work` refuse whatever the state. -/
def BadRequest (clientId : BitVec w) (work : Option ω) : Prop :=
  clientId = invalidClientId w ∨ work = none

/-- `schedule_work` adds one entry under the id it returns. -/
def Schedules (h : Heap ω w) (q : Members ω w) : Prop :=
  ∀ now c wk st p,
    let r := scheduleWork h now c wk st p q
    (¬ BadRequest c wk ∧ q.workerStoppedFlag = false →
      r.1.1 = .success ∧ r.1.2 = r.2.nextWorkId ∧ r.2.nextClientId = q.nextClientId ∧
      r.2.workerStoppedFlag = q.workerStoppedFlag ∧
      r.2.wqItemContainer.Perm (q.wqItemContainer ++ [(scheduledItem now c wk st p, r.1.2)]) ∧
      (q.map r.1.2 = none →
        r.2.map = Function.update q.map r.1.2 (some (scheduledItem now c wk st p)))) ∧
    (BadRequest c wk → r = ((.invalidArgument, invalidWorkId w), q)) ∧
    (¬ BadRequest c wk → q.workerStoppedFlag = true → r = ((.notAllowed, invalidWorkId w), q))

/-- `update_work` replaces the entry of the given id. -/
def Updates (h : Heap ω w) (q : Members ω w) : Prop :=
  ∀ id c wk st p,
    let r := updateWork h id c wk st p q
    (¬ BadRequest c wk ∧ q.workerStoppedFlag = false ∧ q.map id ≠ none →
      r.1 = .success ∧ r.2.nextWorkId = q.nextWorkId ∧ r.2.nextClientId = q.nextClientId ∧
      r.2.workerStoppedFlag = q.workerStoppedFlag ∧ (ids r.2.wqItemContainer).Nodup ∧
      r.2.map = Function.update q.map id (some ⟨st, c, wk, p⟩)) ∧
    (BadRequest c wk → r = (.invalidArgument, q)) ∧
    (¬ BadRequest c wk → q.workerStoppedFlag = true → r = (.notAllowed, q)) ∧
    (¬ BadRequest c wk → q.workerStoppedFlag = false → q.map id = none → r = (.notFound, q))

/-- `cancel_work` removes the entry of the given id. -/
def Cancels (h : Heap ω w) (q : Members ω w) : Prop :=
  ∀ id,
    let r := cancelWork h id q
    (q.workerStoppedFlag = false ∧ q.map id ≠ none →
      r.1 = .success ∧ r.2.nextWorkId = q.nextWorkId ∧ r.2.nextClientId = q.nextClientId ∧
      r.2.workerStoppedFlag = q.workerStoppedFlag ∧ (ids r.2.wqItemContainer).Nodup ∧
      r.2.map = Function.update q.map id none) ∧
    (q.workerStoppedFlag = true → r = (.notAllowed, q)) ∧
    (q.workerStoppedFlag = false → q.map id = none → r = (.notFound, q))

/-- `cancel_client_works` removes every entry of the given client and no other. -/
def CancelsClient (h : Heap ω w) (q : Members ω w) : Prop :=
  ∀ c,
    let r := cancelClientWorks h c q
    (q.workerStoppedFlag = false ∧ (∃ id item, q.map id = some item ∧ item.clientId = c) →
      r.1 = .success ∧ r.2.nextWorkId = q.nextWorkId ∧ r.2.nextClientId = q.nextClientId ∧
      r.2.workerStoppedFlag = q.workerStoppedFlag ∧ (ids r.2.wqItemContainer).Nodup ∧
      r.2.map = fun id => (q.map id).filter fun item => item.clientId ≠ c) ∧
    (q.workerStoppedFlag = true → r = (.notAllowed, q)) ∧
    (q.workerStoppedFlag = false → (∀ id item, q.map id = some item → item.clientId ≠ c) →
      r = (.notFound, q))

/-- `is_idle` is emptiness of the map. -/
def ReportsIdle (q : Members ω w) : Prop := isIdle q = true ↔ ∀ id, q.map id = none

/-- A step of the worker changes at most the entry it runs, which was in the map; only
the last one of a stopped queue takes the terminator out. -/
def Iterates (plus : Int → Int → Int) (s : State ω w) : Prop :=
  ∀ l t, Step plus s l t → (∀ c reply, l ≠ .call c reply) →
    (∃ item outcome, l = .execute item outcome ∧ s.queue.map item.2 = some item.1 ∧
      (ids t.queue.wqItemContainer).Nodup ∧
      t.queue.map = Function.update s.queue.map item.2
        (if isTimePointEmpty (executeWork plus item outcome) then none
          else some { item.1 with timePoint := executeWork plus item outcome })) ∨
    (l = .exit ∧ s.queue.workerStoppedFlag = true ∧ ∃ id,
      s.queue.wqItemContainer = [(WqItem.empty, id)] ∧ t.queue.wqItemContainer = []) ∨
    t.queue.wqItemContainer = s.queue.wqItemContainer

/-! ### Maps of changed containers -/

theorem toMap_append_single (item : WqItem ω w) {v : List (Record ω w)} {id : BitVec w}
    (hn : (ids v).Nodup) (hfree : toMap v id = none) :
    (ids (v ++ [(item, id)])).Nodup ∧
      toMap (v ++ [(item, id)]) = Function.update (toMap v) id (some item) := by
  have hid := toMap_eq_none.mp hfree
  have hn' : (ids (v ++ [(item, id)])).Nodup := by
    rw [ids_append]
    exact List.nodup_append.mpr ⟨hn, by simp [ids], by
      intro a ha b hb
      rw [ids, List.map_singleton, List.mem_singleton] at hb
      rintro rfl
      rw [hb] at ha
      exact hid ha⟩
  refine ⟨hn', funext fun i => Option.ext fun x => ?_⟩
  rw [toMap_eq_some hn', List.mem_append, List.mem_singleton]
  by_cases hi : i = id
  · subst hi
    rw [Function.update_self]
    constructor
    · rintro (hm | he)
      · exact absurd (mem_ids.mpr ⟨x, hm⟩) hid
      · rw [(Prod.mk.inj he).1]
    · intro he; exact .inr (by rw [Option.some.inj he])
  · rw [Function.update_of_ne hi, toMap_eq_some hn]
    constructor
    · rintro (hm | he)
      · exact hm
      · exact absurd (Prod.mk.inj he).2 hi
    · exact Or.inl

theorem toMap_remove {a b : List (Record ω w)} {old : WqItem ω w} {id : BitVec w}
    (hn : (ids (a ++ (old, id) :: b)).Nodup) :
    (ids (a ++ b)).Nodup ∧ toMap (a ++ b) id = none ∧
      toMap (a ++ b) = Function.update (toMap (a ++ (old, id) :: b)) id none := by
  have hp : (ids (a ++ (old, id) :: b)).Perm (id :: ids (a ++ b)) := by
    rw [ids_append, ids_append, ids_cons]
    exact List.perm_middle
  obtain ⟨hid, hn'⟩ := List.nodup_cons.mp (hp.nodup_iff.mp hn)
  refine ⟨hn', toMap_eq_none.mpr hid, funext fun i => ?_⟩
  by_cases hi : i = id
  · subst hi
    rw [Function.update_self]
    exact toMap_eq_none.mpr hid
  · rw [Function.update_of_ne hi]
    apply Option.ext
    intro x
    rw [toMap_eq_some hn', toMap_eq_some hn, List.mem_append, List.mem_append, List.mem_cons]
    constructor
    · rintro (hm | hm)
      · exact .inl hm
      · exact .inr (.inr hm)
    · rintro (hm | he | hm)
      · exact .inl hm
      · exact absurd (Prod.mk.inj he).2 hi
      · exact .inr hm

theorem toMap_replace (item : WqItem ω w) {a b : List (Record ω w)} {old : WqItem ω w}
    {id : BitVec w}
    (hn : (ids (a ++ (old, id) :: b)).Nodup) :
    (ids (a ++ (item, id) :: b)).Nodup ∧
      toMap (a ++ (item, id) :: b) =
        Function.update (toMap (a ++ (old, id) :: b)) id (some item) := by
  obtain ⟨hn', hfree, hmap⟩ := toMap_remove hn
  obtain ⟨hn'', hadd⟩ := toMap_append_single item hn' hfree
  have hp : (a ++ b ++ [(item, id)]).Perm (a ++ (item, id) :: b) := by
    rw [List.append_assoc]
    exact List.Perm.append_left a (List.perm_append_singleton _ b)
  refine ⟨(ids_perm hp).nodup_iff.mp hn'', ?_⟩
  rw [← toMap_perm hp hn'', hadd, hmap, Function.update_idem]

theorem toMap_filter {v : List (Record ω w)} (hn : (ids v).Nodup) (c : BitVec w) :
    (ids (v.filter fun r => r.1.clientId ≠ c)).Nodup ∧
      toMap (v.filter fun r => r.1.clientId ≠ c) =
        fun id => (toMap v id).filter fun item => item.clientId ≠ c := by
  have hn' : (ids (v.filter fun r => r.1.clientId ≠ c)).Nodup :=
    hn.sublist (List.filter_sublist.map Prod.snd)
  refine ⟨hn', funext fun id => Option.ext fun x => ?_⟩
  rw [toMap_eq_some hn', List.mem_filter, Option.filter_eq_some_iff, toMap_eq_some hn]

theorem map_eq_none_iff {q : Members ω w} {id : BitVec w} :
    q.map id = none ↔ ∀ r ∈ q.wqItemContainer, r.2 ≠ id := by
  rw [Members.map, toMap_eq_none]
  constructor
  · rintro h r hr rfl; exact h (mem_ids.mpr ⟨r.1, hr⟩)
  · intro h hm
    obtain ⟨item, hi⟩ := mem_ids.mp hm
    exact h _ hi rfl

/-! ### The parts -/

section Parts

variable {h : Heap ω w} {q : Members ω w}

theorem schedules (hh : IsHeap q.wqItemContainer) (hn : (ids q.wqItemContainer).Nodup) :
    Schedules h q := by
  intro now c wk st p
  refine ⟨fun ⟨hg, hs⟩ => ?_, ?_, ?_⟩
  · have e : scheduleWork h now c wk st p q = postWork h (scheduledItem now c wk st p) q := by
      rcases scheduleWork_cases h q now c wk st p with ⟨hb, -⟩ | ⟨-, hs', -⟩ | ⟨-, -, e⟩
      · exact absurd hb hg
      · rw [hs] at hs'; cases hs'
      · exact e
    simp only [e, postWork_running h q _ hs]
    refine ⟨trivial, rfl, rfl, rfl, h.pushHeap_perm hh, ?_⟩
    intro hfree
    obtain ⟨hn', hadd⟩ := toMap_append_single (scheduledItem now c wk st p) hn hfree
    exact (toMap_perm (h.pushHeap_perm hh).symm hn').symm.trans hadd
  · intro hb
    rcases scheduleWork_cases h q now c wk st p with ⟨-, e⟩ | ⟨hg, -⟩ | ⟨hg, -⟩
    · exact e
    · exact absurd hb (not_or.mpr hg)
    · exact absurd hb (not_or.mpr hg)
  · intro hg hs
    rcases scheduleWork_cases h q now c wk st p with ⟨hb, -⟩ | ⟨-, -, e⟩ | ⟨-, hs', -⟩
    · exact absurd hb hg
    · exact e
    · rw [hs] at hs'; cases hs'

theorem updates (hn : (ids q.wqItemContainer).Nodup) : Updates h q := by
  intro id c wk st p
  rcases updateWork_cases h q id c wk st p with
    ⟨hb, e⟩ | ⟨hg, hs, e⟩ | ⟨hg, hs, hno, e⟩ | ⟨hg, hs, a, old, b, hv, e⟩
  · exact ⟨fun ⟨hg, _⟩ => absurd hb hg, fun _ => e, fun hg => absurd hb hg, fun hg => absurd hb hg⟩
  · exact ⟨fun ⟨_, hs', _⟩ => absurd hs' (by simp [hs]), fun hb => absurd hb (not_or.mpr hg),
      fun _ _ => e, fun _ hs' => absurd hs' (by simp [hs])⟩
  · exact ⟨fun ⟨_, _, hm⟩ => absurd (map_eq_none_iff.mpr hno) hm,
      fun hb => absurd hb (not_or.mpr hg), fun _ hs' => absurd hs' (by simp [hs]), fun _ _ _ => e⟩
  · refine ⟨?_, fun hb => absurd hb (not_or.mpr hg), fun _ hs' => absurd hs' (by simp [hs]), ?_⟩
    · intro _
      rw [hv] at hn
      obtain ⟨hn', hrep⟩ := toMap_replace ⟨st, c, wk, p⟩ hn
      have hp := h.makeHeap_perm (a ++ (⟨st, c, wk, p⟩, id) :: b)
      rw [e]
      refine ⟨rfl, rfl, rfl, rfl, (ids_perm hp).nodup_iff.mpr hn', ?_⟩
      rw [Members.map, Members.map, hv]
      exact (toMap_perm hp.symm hn').symm.trans hrep
    · intro _ _ hm
      have hmem : (old, id) ∈ q.wqItemContainer := by rw [hv]; simp
      exact absurd rfl (map_eq_none_iff.mp hm _ hmem)

theorem cancels (hn : (ids q.wqItemContainer).Nodup) : Cancels h q := by
  intro id
  rcases cancelWork_cases h q id with ⟨hs, e⟩ | ⟨hs, hno, e⟩ | ⟨hs, a, old, b, v, hv, hp, e⟩
  · exact ⟨fun ⟨hs', _⟩ => absurd hs' (by simp [hs]), fun _ => e,
      fun hs' => absurd hs' (by simp [hs])⟩
  · exact ⟨fun ⟨_, hm⟩ => absurd (map_eq_none_iff.mpr hno) hm, fun hs' => absurd hs' (by simp [hs]),
      fun _ _ => e⟩
  · refine ⟨?_, fun hs' => absurd hs' (by simp [hs]), ?_⟩
    · intro _
      rw [hv] at hn
      obtain ⟨hn', -, hrem⟩ := toMap_remove hn
      have hp' := (h.makeHeap_perm v).trans hp
      rw [e]
      refine ⟨rfl, rfl, rfl, rfl, (ids_perm hp').nodup_iff.mpr hn', ?_⟩
      rw [Members.map, Members.map, hv]
      exact (toMap_perm hp'.symm hn').symm.trans hrem
    · intro _ hm
      have hmem : (old, id) ∈ q.wqItemContainer := by rw [hv]; simp
      exact absurd rfl (map_eq_none_iff.mp hm _ hmem)

theorem cancelsClient (hn : (ids q.wqItemContainer).Nodup) : CancelsClient h q := by
  intro c
  rcases cancelClientWorks_cases h q c with ⟨hs, e⟩ | ⟨hs, hno, e⟩ | ⟨hs, ⟨r, hr, hc⟩, e⟩
  · exact ⟨fun ⟨hs', _⟩ => absurd hs' (by simp [hs]), fun _ => e,
      fun hs' => absurd hs' (by simp [hs])⟩
  · refine ⟨fun ⟨_, id, item, hm, hc⟩ => ?_, fun hs' => absurd hs' (by simp [hs]), fun _ _ => e⟩
    exact absurd hc (hno _ ((toMap_eq_some hn).mp hm))
  · refine ⟨?_, fun hs' => absurd hs' (by simp [hs]), ?_⟩
    · intro _
      obtain ⟨hn', hfil⟩ := toMap_filter hn c
      have hp := h.makeHeap_perm (q.wqItemContainer.filter fun r => r.1.clientId ≠ c)
      rw [e]
      refine ⟨rfl, rfl, rfl, rfl, (ids_perm hp).nodup_iff.mpr hn', ?_⟩
      exact (toMap_perm hp.symm hn').symm.trans hfil
    · intro _ hno
      exact absurd hc (hno r.2 r.1 ((toMap_eq_some hn).mpr hr))

theorem reportsIdle : ReportsIdle q := by
  constructor
  · intro hi id
    have : q.wqItemContainer = [] := by simpa [isIdle, isContainerEmpty] using hi
    rw [map_eq_none_iff, this]
    simp
  · intro hno
    have : q.wqItemContainer = [] :=
      List.eq_nil_iff_forall_not_mem.mpr fun r hr => map_eq_none_iff.mp (hno r.2) r hr rfl
    simp [isIdle, isContainerEmpty, this]

end Parts

theorem iterates {plus : Int → Int → Int} {s : State ω w} (hi : Inv s)
    (hn : (ids s.queue.wqItemContainer).Nodup) : Iterates plus s := by
  intro l t hs hl
  cases hs with
  | call h c _ _ => exact absurd rfl (hl _ _)
  | exit hw hc hnull =>
    refine .inr (.inl ⟨rfl, ?_⟩)
    have hstop : s.queue.workerStoppedFlag = true := by
      by_contra hns
      exact hi.valid.works (by simpa using hns) _ (hc ▸ List.mem_cons_self) hnull
    rcases hi.valid.stopped hstop with h0 | ⟨id, h1⟩
    · rw [hc] at h0; cases h0
    · exact ⟨hstop, id, h1, rfl⟩
  | @execute h _ d item q o hw hf hd hne hp _ =>
    obtain ⟨rest, u, hc, rfl, hperm, hheap⟩ := popRecord_eq_some hi.valid.heap hne hp
    refine .inl ⟨item, o, rfl, ?_, ?_⟩
    · exact (toMap_eq_some hn).mpr (by rw [hc]; exact List.mem_cons_self)
    · rw [hc] at hn
      obtain ⟨hn', hfree, hrem⟩ := toMap_remove (a := []) hn
      have hnu : (ids u).Nodup := (ids_perm hperm).nodup_iff.mpr hn'
      have hmu : toMap u = toMap rest := toMap_perm hperm hnu
      obtain ⟨-, hp'⟩ := reschedule_container h item (executeWork plus item o)
        (q := { s.queue with wqItemContainer := u }) hheap
      have hfree' : toMap u item.2 = none := by rw [hmu]; exact hfree
      have hmap : s.queue.map = toMap (item :: rest) := by rw [Members.map, hc]
      simp only [List.nil_append] at hrem
      simp only [Members.map] at hmap ⊢
      by_cases htp : isTimePointEmpty (executeWork plus item o)
      · rw [if_pos htp] at hp' ⊢
        rw [List.append_nil] at hp'
        refine ⟨(ids_perm hp').nodup_iff.mpr hnu, ?_⟩
        rw [toMap_perm hp'.symm hnu |>.symm, hmap, hmu, hrem]
      · rw [if_neg htp] at hp' ⊢
        obtain ⟨hn'', hadd⟩ := toMap_append_single
          { item.1 with timePoint := executeWork plus item o } hnu hfree'
        refine ⟨(ids_perm hp').nodup_iff.mpr hn'', ?_⟩
        rw [toMap_perm hp'.symm hn'' |>.symm, hmap, hadd, hmu, hrem, Function.update_idem]
  | startWorker => exact .inr (.inr rfl)
  | tick => exact .inr (.inr rfl)
  | lock => exact .inr (.inr rfl)
  | waitForWork => exact .inr (.inr rfl)
  | restart => exact .inr (.inr rfl)
  | waitForTime => exact .inr (.inr rfl)
  | wake => exact .inr (.inr rfl)
  | changed => exact .inr (.inr rfl)
  | spurious => exact .inr (.inr rfl)
  | drained => exact .inr (.inr rfl)

/-- **The work queue refines a map from work id to work item**, call by call, in every
reachable state with distinct ids. -/
theorem refines_map {plus : Int → Int → Int} {s : State ω w}
    (hr : Transition.Reachable (system ω w plus) s) (hn : (ids s.queue.wqItemContainer).Nodup)
    (h : Heap ω w) :
    Schedules h s.queue ∧ Updates h s.queue ∧ Cancels h s.queue ∧ CancelsClient h s.queue ∧
      ReportsIdle s.queue ∧ Iterates plus s :=
  have hi := inv_of_reachable hr
  ⟨schedules hi.valid.heap hn, updates hn, cancels hn, cancelsClient hn, reportsIdle,
    iterates hi hn⟩

/-- One of two records is cancelled, and the other one stays. -/
theorem refines_map_twoPosted :
    (cancelWork (siftHeap Unit 64) 0 (twoPosted [everyFour 3, onceLater])).2.map =
      Function.update (twoPosted [everyFour 3, onceLater]).map 0 none ∧
    (twoPosted [everyFour 3, onceLater]).map 1 = some onceLater.1 :=
  ⟨(((refines_map (twoPosted_reachable (· + ·)) (by decide) (siftHeap Unit 64)).2.2.1 0).1
    ⟨rfl, by decide⟩).2.2.2.2.2, by decide⟩

end Mqmx.WorkQueue
