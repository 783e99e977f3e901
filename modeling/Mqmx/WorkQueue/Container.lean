import Mqmx.WorkQueue.Model

/-!
# What the operations do to the container

The container is a vector that every operation reorders.  Each lemma here says what
an operation does to it up to order, and that it leaves a heap:

* `wqItemFindAndReplace_eq_some`, `wqItemFindAndRemove_eq_some`,
  `wqItemFindAndRemoveAll_eq_some`, and the three `_eq_none` lemmas.
* `popRecord_spec`: on a heap, the record popped is the front.
* `reschedule_container`: what is put back, and where nothing is.

`toMap` reads the container as the map from work id to work item that it stands
for.  While the ids are distinct, `toMap_eq_some` says it depends on the records
alone and not on their order.
-/

namespace Mqmx.WorkQueue

variable {ω : Type} {w : ℕ}

/-! ### Finding, replacing, removing -/

theorem wqItemFindAndReplace_eq_none {id : BitVec w} {item : WqItem ω w} {v : List (Record ω w)} :
    wqItemFindAndReplace id item v = none ↔ ∀ r ∈ v, r.2 ≠ id := by
  induction v with
  | nil => simp [wqItemFindAndReplace]
  | cons e v ih =>
    by_cases he : e.2 = id
    · simp [wqItemFindAndReplace, he]
    · simp [wqItemFindAndReplace, he, ih]

theorem wqItemFindAndReplace_eq_some {id : BitVec w} {item : WqItem ω w}
    {v v' : List (Record ω w)} (h : wqItemFindAndReplace id item v = some v') :
    ∃ a old b, v = a ++ (old, id) :: b ∧ v' = a ++ (item, id) :: b := by
  induction v generalizing v' with
  | nil => simp [wqItemFindAndReplace] at h
  | cons e v ih =>
    rw [wqItemFindAndReplace] at h
    split at h
    · rename_i he
      cases h
      subst he
      exact ⟨[], e.1, v, rfl, rfl⟩
    · obtain ⟨u, hu, rfl⟩ := Option.map_eq_some_iff.mp h
      obtain ⟨a, old, b, rfl, rfl⟩ := ih hu
      exact ⟨e :: a, old, b, rfl, rfl⟩

theorem wqItemFindAndRemove_eq_none {id : BitVec w} {v : List (Record ω w)} :
    wqItemFindAndRemove id v = none ↔ ∀ r ∈ v, r.2 ≠ id := by
  simp [wqItemFindAndRemove, List.findIdx?_eq_none_iff]

/-- Swapping an element with the last one and dropping that removes the element,
also when it is the last one itself. -/
theorem dropLast_swapAt_perm {α : Type} (a : List α) (x : α) (b : List α) :
    ((StdHeap.swapAt (a ++ x :: b) a.length ((a ++ x :: b).length - 1)).dropLast).Perm
      (a ++ b) := by
  rcases List.eq_nil_or_concat b with rfl | ⟨c, y, rfl⟩
  · simp [StdHeap.swapAt]
  · have hlast : (a ++ x :: (c ++ [y]))[(a ++ x :: (c ++ [y])).length - 1]? = some y := by
      simp
    have hx : (a ++ x :: (c ++ [y]))[a.length]? = some x := by simp
    have hlen : (a ++ x :: (c ++ [y])).length - 1 = (a ++ y :: c).length := by simp
    have hswap : StdHeap.swapAt (a ++ x :: (c ++ [y])) a.length ((a ++ x :: (c ++ [y])).length - 1)
        = (a ++ y :: c) ++ [x] := by
      simp only [StdHeap.swapAt, hx, hlast]
      rw [hlen]
      simp
    rw [List.concat_eq_append, hswap, List.dropLast_concat]
    exact List.Perm.append_left a (List.perm_append_singleton y c).symm

theorem wqItemFindAndRemove_eq_some {id : BitVec w} {v v' : List (Record ω w)}
    (h : wqItemFindAndRemove id v = some v') :
    ∃ a old b, v = a ++ (old, id) :: b ∧ v'.Perm (a ++ b) := by
  obtain ⟨i, hi, rfl⟩ := Option.map_eq_some_iff.mp h
  obtain ⟨hlt, hid, -⟩ := List.findIdx?_eq_some_iff_getElem.mp hi
  have hsplit : v = v.take i ++ v[i] :: v.drop (i + 1) := by
    rw [List.getElem_cons_drop, List.take_append_drop]
  have hlen : (v.take i).length = i := by simp; omega
  refine ⟨v.take i, v[i].1, v.drop (i + 1), ?_, ?_⟩
  · have : v[i] = (v[i].1, id) := Prod.ext rfl (by simpa using hid)
    rw [← this]
    exact hsplit
  · have := dropLast_swapAt_perm (v.take i) v[i] (v.drop (i + 1))
    rw [← hsplit, hlen] at this
    exact this

theorem wqItemFindAndRemoveAll_eq_none {c : BitVec w} {v : List (Record ω w)} :
    wqItemFindAndRemoveAll c v = none ↔ ∀ r ∈ v, r.1.clientId ≠ c := by
  simp [wqItemFindAndRemoveAll, List.length_filter_eq_length_iff]

theorem wqItemFindAndRemoveAll_eq_some {c : BitVec w} {v v' : List (Record ω w)}
    (h : wqItemFindAndRemoveAll c v = some v') :
    v' = v.filter (fun r => r.1.clientId ≠ c) ∧ ∃ r ∈ v, r.1.clientId = c := by
  simp only [wqItemFindAndRemoveAll] at h
  split at h
  · rename_i hne
    refine ⟨(Option.some.inj h).symm, ?_⟩
    by_contra hno
    push Not at hno
    exact hne (List.length_filter_eq_length_iff.mpr (by simpa using hno))
  · cases h

/-! ### Popping and putting back -/

theorem popRecord_spec (h : Heap ω w) {q : Members ω w} {front : Record ω w}
    {rest : List (Record ω w)} (hq : q.wqItemContainer = front :: rest)
    (hh : IsHeap q.wqItemContainer) :
    ∃ u, popRecord h q = some (front, { q with wqItemContainer := u }) ∧ u.Perm rest ∧
      IsHeap u := by
  rw [hq] at hh
  obtain ⟨u, hu, hp, hu'⟩ := h.popHeap_spec hh
  exact ⟨u, by simp [popRecord, hq, hu], hp, hu'⟩

theorem popRecord_eq_some {h : Heap ω w} {q q' : Members ω w} {item : Record ω w}
    (hh : IsHeap q.wqItemContainer) (hne : q.wqItemContainer ≠ [])
    (hp : popRecord h q = some (item, q')) :
    ∃ rest u, q.wqItemContainer = item :: rest ∧ q' = { q with wqItemContainer := u } ∧
      u.Perm rest ∧ IsHeap u := by
  obtain ⟨front, rest, hq⟩ := List.exists_cons_of_ne_nil hne
  obtain ⟨u, hu, hperm, hheap⟩ := popRecord_spec h hq hh
  rw [hu] at hp
  cases hp
  exact ⟨rest, u, hq, rfl, hperm, hheap⟩

theorem reschedule_container (h : Heap ω w) (item : Record ω w) (tp : Int)
    {q : Members ω w} (hh : IsHeap q.wqItemContainer) :
    IsHeap (reschedule h item tp q).wqItemContainer ∧
      (reschedule h item tp q).wqItemContainer.Perm
        (q.wqItemContainer ++
          if isTimePointEmpty tp then [] else [({ item.1 with timePoint := tp }, item.2)]) := by
  unfold reschedule
  split
  · exact ⟨hh, by simp⟩
  · exact ⟨h.pushHeap_isHeap hh, h.pushHeap_perm hh⟩

@[simp] theorem executeWork_returned_false (plus : Int → Int → Int) (item : Record ω w) :
    executeWork plus item (.returned false) = 0 := rfl

@[simp] theorem reschedule_zero (h : Heap ω w) (item : Record ω w) (q : Members ω w) :
    reschedule h item 0 q = q := if_pos rfl

theorem reschedule_eq (h : Heap ω w) (item : Record ω w) (tp : Int) (q : Members ω w) :
    reschedule h item tp q =
      { q with wqItemContainer := (reschedule h item tp q).wqItemContainer } := by
  unfold reschedule
  split <;> rfl

/-! ### The map behind the container -/

/-- The ids of the pending records. -/
def ids (v : List (Record ω w)) : List (BitVec w) := v.map Prod.snd

/-- The map from work id to work item that the container stands for. -/
def toMap (v : List (Record ω w)) (id : BitVec w) : Option (WqItem ω w) :=
  (v.find? fun r => r.2 = id).map Prod.fst

@[simp] theorem ids_cons (r : Record ω w) (v : List (Record ω w)) :
    ids (r :: v) = r.2 :: ids v := rfl

@[simp] theorem ids_append (u v : List (Record ω w)) : ids (u ++ v) = ids u ++ ids v :=
  List.map_append

theorem ids_perm {u v : List (Record ω w)} (h : u.Perm v) : (ids u).Perm (ids v) := h.map _

theorem mem_ids {v : List (Record ω w)} {id : BitVec w} : id ∈ ids v ↔ ∃ item, (item, id) ∈ v := by
  simp [ids]

theorem toMap_eq_none {v : List (Record ω w)} {id : BitVec w} : toMap v id = none ↔ id ∉ ids v := by
  simp only [toMap, Option.map_eq_none_iff, List.find?_eq_none, mem_ids, not_exists,
    decide_eq_true_eq, Prod.forall]
  constructor
  · intro h item hm; exact h item id hm rfl
  · rintro h item id' hm rfl; exact h item hm

/-- **While the ids are distinct the map holds exactly the records.** -/
theorem toMap_eq_some {v : List (Record ω w)} (hn : (ids v).Nodup) {id : BitVec w}
    {item : WqItem ω w} : toMap v id = some item ↔ (item, id) ∈ v := by
  induction v with
  | nil => simp [toMap]
  | cons e v ih =>
    rw [ids_cons, List.nodup_cons] at hn
    by_cases he : e.2 = id
    · have hmem : (item, id) ∉ v := fun hm => hn.1 (he ▸ mem_ids.mpr ⟨item, hm⟩)
      simp only [toMap, List.find?_cons, he, decide_true, Option.map_some, Option.some.injEq,
        List.mem_cons, hmem, or_false]
      constructor
      · rintro rfl; rw [← he]
      · rintro rfl; rfl
    · have hcons : toMap (e :: v) id = toMap v id := by simp [toMap, he]
      rw [hcons, ih hn.2, List.mem_cons]
      constructor
      · exact Or.inr
      · rintro (rfl | hm)
        · exact absurd rfl he
        · exact hm

theorem toMap_perm {u v : List (Record ω w)} (h : u.Perm v) (hn : (ids u).Nodup) :
    toMap u = toMap v := by
  funext id
  apply Option.ext
  intro item
  rw [toMap_eq_some hn, toMap_eq_some ((ids_perm h).nodup_iff.mp hn), h.mem_iff]

/-! ### The calls, case by case -/

theorem nextId_ne (hw : 0 < w) (invalid id : BitVec w) : nextId invalid id ≠ invalid := by
  unfold nextId
  split
  · rename_i h
    rw [h]
    intro h1
    have h0 : (1#w).toNat = 0 := congrArg BitVec.toNat (BitVec.add_right_eq_self.mp h1)
    rw [BitVec.toNat_one hw] at h0
    omega
  · rename_i h
    exact h

section Calls

variable (h : Heap ω w) (q : Members ω w)

theorem postWork_running (item : WqItem ω w) (hs : q.workerStoppedFlag = false) :
    postWork h item q =
      ((.success, nextId (invalidWorkId w) q.nextWorkId),
        signalContainerChange
          { q with
            nextWorkId := nextId (invalidWorkId w) q.nextWorkId
            wqItemContainer := h.pushHeap
              (q.wqItemContainer ++ [(item, nextId (invalidWorkId w) q.nextWorkId)]) }) := by
  simp [postWork, hs]

/-- The item `schedule_work` stores. -/
def scheduledItem (now : Int) (clientId : BitVec w) (work : Option ω)
    (startTime : Int) (repeatPeriod : Int) : WqItem ω w :=
  ⟨if isTimePointEmpty startTime then now else startTime, clientId, work, repeatPeriod⟩

theorem scheduleWork_cases (now : Int) (c : BitVec w) (wk : Option ω) (st : Int)
    (p : Int) :
    ((c = invalidClientId w ∨ wk = none) ∧
      scheduleWork h now c wk st p q = ((.invalidArgument, invalidWorkId w), q)) ∨
    ((c ≠ invalidClientId w ∧ wk ≠ none) ∧ q.workerStoppedFlag = true ∧
      scheduleWork h now c wk st p q = ((.notAllowed, invalidWorkId w), q)) ∨
    ((c ≠ invalidClientId w ∧ wk ≠ none) ∧ q.workerStoppedFlag = false ∧
      scheduleWork h now c wk st p q = postWork h (scheduledItem now c wk st p) q) := by
  by_cases hb : c = invalidClientId w ∨ wk = none
  · exact .inl ⟨hb, by simp [scheduleWork, hb]⟩
  · have hg : c ≠ invalidClientId w ∧ wk ≠ none := not_or.mp hb
    cases hs : q.workerStoppedFlag with
    | true => exact .inr (.inl ⟨hg, rfl, by simp [scheduleWork, hb, postWork, hs]⟩)
    | false => exact .inr (.inr ⟨hg, rfl, by simp [scheduleWork, hb, scheduledItem]⟩)

theorem updateWork_cases (id c : BitVec w) (wk : Option ω) (st : Int) (p : Int) :
    ((c = invalidClientId w ∨ wk = none) ∧
      updateWork h id c wk st p q = (.invalidArgument, q)) ∨
    ((c ≠ invalidClientId w ∧ wk ≠ none) ∧ q.workerStoppedFlag = true ∧
      updateWork h id c wk st p q = (.notAllowed, q)) ∨
    ((c ≠ invalidClientId w ∧ wk ≠ none) ∧ q.workerStoppedFlag = false ∧
      (∀ r ∈ q.wqItemContainer, r.2 ≠ id) ∧ updateWork h id c wk st p q = (.notFound, q)) ∨
    ((c ≠ invalidClientId w ∧ wk ≠ none) ∧ q.workerStoppedFlag = false ∧
      ∃ a old b, q.wqItemContainer = a ++ (old, id) :: b ∧
        updateWork h id c wk st p q = (.success, makeHeapAndNotifyWorker h
          { q with wqItemContainer := a ++ (⟨st, c, wk, p⟩, id) :: b })) := by
  by_cases hb : c = invalidClientId w ∨ wk = none
  · exact .inl ⟨hb, by simp [updateWork, hb]⟩
  have hg : c ≠ invalidClientId w ∧ wk ≠ none := not_or.mp hb
  cases hs : q.workerStoppedFlag with
  | true => exact .inr (.inl ⟨hg, rfl, by simp [updateWork, hb, hs]⟩)
  | false =>
    cases hf : wqItemFindAndReplace id ⟨st, c, wk, p⟩ q.wqItemContainer with
    | none =>
      exact .inr (.inr (.inl ⟨hg, rfl, wqItemFindAndReplace_eq_none.mp hf,
        by simp [updateWork, hb, hs, hf]⟩))
    | some v =>
      obtain ⟨a, old, b, hv, rfl⟩ := wqItemFindAndReplace_eq_some hf
      exact .inr (.inr (.inr ⟨hg, rfl, a, old, b, hv, by simp [updateWork, hb, hs, hf]⟩))

theorem cancelWork_cases (id : BitVec w) :
    (q.workerStoppedFlag = true ∧ cancelWork h id q = (.notAllowed, q)) ∨
    (q.workerStoppedFlag = false ∧ (∀ r ∈ q.wqItemContainer, r.2 ≠ id) ∧
      cancelWork h id q = (.notFound, q)) ∨
    (q.workerStoppedFlag = false ∧
      ∃ a old b v, q.wqItemContainer = a ++ (old, id) :: b ∧ v.Perm (a ++ b) ∧
        cancelWork h id q =
          (.success, makeHeapAndNotifyWorker h { q with wqItemContainer := v })) := by
  cases hs : q.workerStoppedFlag with
  | true => exact .inl ⟨rfl, by simp [cancelWork, hs]⟩
  | false =>
    cases hf : wqItemFindAndRemove id q.wqItemContainer with
    | none =>
      exact .inr (.inl ⟨rfl, wqItemFindAndRemove_eq_none.mp hf, by simp [cancelWork, hs, hf]⟩)
    | some v =>
      obtain ⟨a, old, b, hv, hp⟩ := wqItemFindAndRemove_eq_some hf
      exact .inr (.inr ⟨rfl, a, old, b, v, hv, hp, by simp [cancelWork, hs, hf]⟩)

theorem cancelClientWorks_cases (c : BitVec w) :
    (q.workerStoppedFlag = true ∧ cancelClientWorks h c q = (.notAllowed, q)) ∨
    (q.workerStoppedFlag = false ∧ (∀ r ∈ q.wqItemContainer, r.1.clientId ≠ c) ∧
      cancelClientWorks h c q = (.notFound, q)) ∨
    (q.workerStoppedFlag = false ∧ (∃ r ∈ q.wqItemContainer, r.1.clientId = c) ∧
      cancelClientWorks h c q = (.success, makeHeapAndNotifyWorker h
        { q with wqItemContainer := q.wqItemContainer.filter (fun r => r.1.clientId ≠ c) })) := by
  cases hs : q.workerStoppedFlag with
  | true => exact .inl ⟨rfl, by simp [cancelClientWorks, hs]⟩
  | false =>
    cases hf : wqItemFindAndRemoveAll c q.wqItemContainer with
    | none =>
      exact .inr (.inl ⟨rfl, wqItemFindAndRemoveAll_eq_none.mp hf,
        by simp [cancelClientWorks, hs, hf]⟩)
    | some v =>
      obtain ⟨rfl, hex⟩ := wqItemFindAndRemoveAll_eq_some hf
      exact .inr (.inr ⟨rfl, hex, by simp [cancelClientWorks, hs, hf]⟩)

theorem signalWorkerToStop_cases :
    (q.workerStoppedFlag = true ∧ signalWorkerToStop h q = (false, q)) ∨
    (q.workerStoppedFlag = false ∧
      signalWorkerToStop h q = (true,
        { (postWork h WqItem.empty { q with wqItemContainer := [] }).2 with
          workerStoppedFlag := true })) := by
  cases hs : q.workerStoppedFlag with
  | true => exact .inl ⟨rfl, by simp [signalWorkerToStop, hs]⟩
  | false => exact .inr ⟨rfl, by simp [signalWorkerToStop, hs, postWork]⟩

end Calls

end Mqmx.WorkQueue
