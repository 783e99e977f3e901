import Mqmx.WorkQueue.Cancelling
import Mqmx.WorkQueue.Rescheduling

/-!
# The series of a work

A work that nobody changes or cancels is run at its time, and one period later again, as long
as its calls ask for that: `left_alone`.  No call is skipped and none comes twice, whatever else
is in the queue, and whatever other clients do in the meantime; and when the series is not over
its record is pending.

`never_back`: from one execution on, works are run in the order of their times, until a call
asks for an earlier one.
-/

namespace Mqmx.WorkQueue

open Transition (Reachable Run)

variable {ω : Type} {w : ℕ}

/-! ### One work -/

/-- The item `k` periods later. -/
def WqItem.later (plus : Int → Int → Int) (item : WqItem ω w) (k : ℕ) : WqItem ω w :=
  { item with timePoint := (fun tp => plus tp item.period)^[k] item.timePoint }

/-- Call number `k` of the work is not the last one, when it ends so. -/
def GoesOn (plus : Int → Int → Int) (item : WqItem ω w) (k : ℕ) (o : Outcome) : Prop :=
  o = .returned true ∧ 0 < item.period ∧ ¬ isTimePointEmpty (item.later plus (k + 1)).timePoint

/-- The executions under an id, in their order. -/
def Label.runOf? (id : BitVec w) : Label ω w → Option (WqItem ω w × Outcome)
  | .execute item o => if item.2 = id then some (item.1, o) else none
  | _ => none

def runsOf (id : BitVec w) (ls : List (Label ω w)) : List (WqItem ω w × Outcome) :=
  ls.filterMap (Label.runOf? id)

/-- None of the calls so far was the last one. -/
def AllGoOn (plus : Int → Int → Int) (item : WqItem ω w) (runs : List (WqItem ω w × Outcome)) :
    Prop :=
  ∀ k i o, runs[k]? = some (i, o) → GoesOn plus item k o

section Lists

variable {plus : Int → Int → Int} {item : WqItem ω w} {runs : List (WqItem ω w × Outcome)}
  {i : WqItem ω w} {o : Outcome}

theorem later_succ (plus : Int → Int → Int) (item : WqItem ω w) (k : ℕ) :
    (item.later plus (k + 1)).timePoint = plus (item.later plus k).timePoint item.period :=
  Function.iterate_succ_apply' ..

/-- **What call number `k` puts back** is the item a period later, if the call is not the last. -/
theorem executeWork_later (plus : Int → Int → Int) (item : WqItem ω w) (k : ℕ) (id : BitVec w)
    (o : Outcome) :
    (GoesOn plus item k o ∧
      executeWork plus (item.later plus k, id) o = (item.later plus (k + 1)).timePoint) ∨
    (¬ GoesOn plus item k o ∧ isTimePointEmpty (executeWork plus (item.later plus k, id) o)) := by
  by_cases hr : RunsAgain (item.later plus k, id) o
  · have he : executeWork plus (item.later plus k, id) o = (item.later plus (k + 1)).timePoint :=
      (executeWork_of_runsAgain plus hr).trans (later_succ plus item k).symm
    by_cases h0 : isTimePointEmpty (item.later plus (k + 1)).timePoint
    · exact .inr ⟨fun h => h.2.2 h0, by rw [he]; exact h0⟩
    · exact .inl ⟨⟨hr.1, hr.2, h0⟩, he⟩
  · exact .inr ⟨fun h => hr ⟨h.1, h.2.1⟩, executeWork_of_not_runsAgain plus hr⟩

theorem runsOf_snoc (id : BitVec w) (ls : List (Label ω w)) (x : Label ω w) :
    runsOf id (ls ++ [x]) = runsOf id ls ++ (x.runOf? id).toList := by
  rw [runsOf, List.filterMap_append, runsOf]
  cases h : x.runOf? id <;> simp [h]

theorem getElem?_snoc (runs : List (WqItem ω w × Outcome)) {k : ℕ} {x y : WqItem ω w × Outcome}
    (h : (runs ++ [x])[k]? = some y) :
    runs[k]? = some y ∨ k = runs.length ∧ y = x := by
  rcases Nat.lt_or_ge k runs.length with hk | hk
  · rw [List.getElem?_append_left hk] at h
    exact .inl h
  · rw [List.getElem?_append_right hk, List.getElem?_singleton] at h
    split at h
    · exact .inr ⟨by omega, (Option.some.inj h).symm⟩
    · cases h

theorem allGoOn_snoc (h : AllGoOn plus item runs) :
    AllGoOn plus item (runs ++ [(i, o)]) ↔ GoesOn plus item runs.length o := by
  constructor
  · intro hall
    exact hall runs.length i o (by simp)
  · intro hgo k i' o' hk
    rcases getElem?_snoc _ hk with hk | ⟨rfl, he⟩
    · exact h k i' o' hk
    · cases he
      exact hgo

end Lists

/-! ### Its record -/

/-- The step may change or remove the record of the id, or make another one. -/
def Label.Disturbs (id c : BitVec w) : Label ω w → Prop
  | .call (.scheduleWork _ _ _ _ _) (.posted .success id') => id' = id
  | .call (.updateWork id' _ _ _ _) _ => id' = id
  | .call (.cancelWork id') _ => id' = id
  | .call (.cancelClientWorks c') _ => c' = c
  | .call .signalWorkerToStop _ => True
  | _ => False

section Records

variable {id c : BitVec w} {u v : List (Record ω w)}

theorem recordsOf_cons_of_ne {item : WqItem ω w} {id' : BitVec w} (h : id' ≠ id) :
    recordsOf id ((item, id') :: v) = recordsOf id v := by
  simp [recordsOf, h]

theorem recordsOf_run (h : Heap ω w) {q : Members ω w} (hh : IsHeap q.wqItemContainer)
    (hc : ∀ r ∈ recordsOf id q.wqItemContainer, r.1.clientId = c) (call : Call ω w)
    (hno : ¬ (Label.call call (call.run h q).1).Disturbs id c) :
    (recordsOf id (call.run h q).2.wqItemContainer).Perm (recordsOf id q.wqItemContainer) ∧
      (call.run h q).2.workerStoppedFlag = q.workerStoppedFlag := by
  have keeps : ∀ {q' : Members ω w}, q' = q →
      (recordsOf id q'.wqItemContainer).Perm (recordsOf id q.wqItemContainer) ∧
        q'.workerStoppedFlag = q.workerStoppedFlag := by
    rintro q' rfl
    exact ⟨.refl _, rfl⟩
  cases call with
  | scheduleWork now cl wk st p =>
    rcases scheduleWork_cases h q now cl wk st p with ⟨-, e⟩ | ⟨-, -, e⟩ | ⟨-, hs, e⟩
    · exact keeps (by simp only [Call.run, e])
    · exact keeps (by simp only [Call.run, e])
    · simp only [Call.run, e, postWork_running h q _ hs] at hno ⊢
      refine ⟨(recordsOf_perm (h.pushHeap_perm hh)).trans ?_, rfl⟩
      rw [recordsOf_append, recordsOf_cons_of_ne hno]
      simp [recordsOf]
  | updateWork id' cl wk st p =>
    have hne : id' ≠ id := hno
    rcases updateWork_cases h q id' cl wk st p with
      ⟨-, e⟩ | ⟨-, -, e⟩ | ⟨-, -, -, e⟩ | ⟨-, hs, a, old, b, hv, e⟩
    · exact keeps (by simp only [Call.run, e])
    · exact keeps (by simp only [Call.run, e])
    · exact keeps (by simp only [Call.run, e])
    · simp only [Call.run, e]
      refine ⟨(recordsOf_perm (h.makeHeap_perm _)).trans ?_, rfl⟩
      rw [hv, recordsOf_append, recordsOf_append, recordsOf_cons_of_ne hne,
        recordsOf_cons_of_ne hne]
  | cancelWork id' =>
    have hne : id' ≠ id := hno
    rcases cancelWork_cases h q id' with ⟨-, e⟩ | ⟨-, -, e⟩ | ⟨-, a, old, b, v, hv, hp, e⟩
    · exact keeps (by simp only [Call.run, e])
    · exact keeps (by simp only [Call.run, e])
    · simp only [Call.run, e]
      refine ⟨(recordsOf_perm ((h.makeHeap_perm v).trans hp)).trans ?_, rfl⟩
      rw [hv, recordsOf_append, recordsOf_append, recordsOf_cons_of_ne hne]
  | cancelClientWorks cl =>
    have hne : cl ≠ c := hno
    rcases cancelClientWorks_cases h q cl with ⟨-, e⟩ | ⟨-, -, e⟩ | ⟨-, -, e⟩
    · exact keeps (by simp only [Call.run, e])
    · exact keeps (by simp only [Call.run, e])
    · simp only [Call.run, e]
      refine ⟨(recordsOf_perm (h.makeHeap_perm _)).trans ?_, rfl⟩
      rw [recordsOf, List.filter_filter, recordsOf]
      refine (List.filter_congr fun r hr => ?_) ▸ List.Perm.refl _
      by_cases hid : r.2 = id
      · have hcl : r.1.clientId = c := hc r (List.mem_filter.mpr ⟨hr, by simp [hid]⟩)
        simp [hid, hcl, Ne.symm hne]
      · simp [hid]
  | signalWorkerToStop => exact absurd trivial hno
  | isIdle | getNearestTimePoint | getClientId => exact ⟨.refl _, rfl⟩

variable {plus : Int → Int → Int} {s t : State ω w} {l : Label ω w} {item : WqItem ω w}

/-- **What an execution does to the records of an id.** -/
theorem recordsOf_execute (id : BitVec w) (hi : Inv s) {rec : Record ω w} {o : Outcome}
    (hs : Step plus s (.execute rec o) t) :
    (∃ rest, recordsOf id s.queue.wqItemContainer = recordsOf id (rec :: rest) ∧
      (recordsOf id t.queue.wqItemContainer).Perm (recordsOf id rest ++
        recordsOf id (if isTimePointEmpty (executeWork plus rec o) then []
          else [({ rec.1 with timePoint := executeWork plus rec o }, rec.2)]))) ∧
    t.queue.workerStoppedFlag = s.queue.workerStoppedFlag := by
  cases hs with
  | execute h _ _ _ _ hne hp _ =>
    obtain ⟨rest, u, hc, rfl, hperm, hheap⟩ := popRecord_eq_some hi.valid.heap hne hp
    have hput := (reschedule_container (q := { s.queue with wqItemContainer := u }) h
      rec (executeWork plus rec o) hheap).2
    refine ⟨⟨rest, by rw [hc], ?_⟩, by rw [reschedule_eq]⟩
    refine (recordsOf_perm hput).trans ?_
    rw [recordsOf_append]
    exact (recordsOf_perm hperm).append (.refl _)

/-- **The work keeps to its series.**  Call number `k` is due `k` periods after the first one,
and all but the last call have asked for another; the next record is there until the last. -/
structure LeftAlone (plus : Int → Int → Int) (item : WqItem ω w) (id : BitVec w)
    (ls : List (Label ω w)) (t : State ω w) : Prop where
  due : ∀ k i o, (runsOf id ls)[k]? = some (i, o) → i = item.later plus k
  again : ∀ k i o, (runsOf id ls)[k]? = some (i, o) → k + 1 < (runsOf id ls).length →
    GoesOn plus item k o
  pending : AllGoOn plus item (runsOf id ls) →
    recordsOf id t.queue.wqItemContainer = [(item.later plus (runsOf id ls).length, id)]
  done : ¬ AllGoOn plus item (runsOf id ls) → recordsOf id t.queue.wqItemContainer = []

theorem LeftAlone.keep {ls : List (Label ω w)} (h : LeftAlone plus item id ls s)
    (hl : l.runOf? id = none)
    (hp : (recordsOf id t.queue.wqItemContainer).Perm (recordsOf id s.queue.wqItemContainer)) :
    LeftAlone plus item id (ls ++ [l]) t := by
  have hruns : runsOf id (ls ++ [l]) = runsOf id ls := by
    rw [runsOf_snoc, hl, Option.toList_none, List.append_nil]
  obtain ⟨h1, h2, h3, h4⟩ := h
  rw [← hruns] at h1 h2 h3 h4
  refine ⟨h1, h2, fun hall => ?_, fun hno => ?_⟩
  · rw [h3 hall] at hp
    exact List.perm_singleton.mp hp
  · rw [h4 hno] at hp
    exact List.perm_nil.mp hp

theorem LeftAlone.execute {ls : List (Label ω w)} (h : LeftAlone plus item id ls s) (hi : Inv s)
    {rec : Record ω w} {o : Outcome} (hs : Step plus s (.execute rec o) t) :
    LeftAlone plus item id (ls ++ [.execute rec o]) t := by
  obtain ⟨⟨rest, hbefore, hafter⟩, -⟩ := recordsOf_execute id hi hs
  obtain ⟨x, id'⟩ := rec
  by_cases hid : id' = id
  · subst hid
    have hhead : recordsOf id' ((x, id') :: rest) = (x, id') :: recordsOf id' rest := by
      simp [recordsOf]
    rw [hhead] at hbefore
    have hall : AllGoOn plus item (runsOf id' ls) := by
      by_contra hno
      rw [h.done hno] at hbefore
      cases hbefore
    rw [h.pending hall] at hbefore
    obtain ⟨he, hnil⟩ := List.cons.inj hbefore
    obtain rfl : item.later plus (runsOf id' ls).length = x := congrArg Prod.fst he
    rw [← hnil, List.nil_append] at hafter
    have hruns : runsOf id' (ls ++ [.execute (item.later plus (runsOf id' ls).length, id') o]) =
        runsOf id' ls ++ [(item.later plus (runsOf id' ls).length, o)] := by
      rw [runsOf_snoc]
      simp [Label.runOf?]
    have hlen : (runsOf id' ls ++ [(item.later plus (runsOf id' ls).length, o)]).length =
        (runsOf id' ls).length + 1 := List.length_append
    refine ⟨?_, ?_, ?_, ?_⟩
    · rw [hruns]
      intro k i o' hk
      rcases getElem?_snoc _ hk with hk | ⟨rfl, he⟩
      · exact h.due k i o' hk
      · exact congrArg Prod.fst he
    · rw [hruns, hlen]
      intro k i o' hk hlt
      rcases getElem?_snoc _ hk with hk | ⟨rfl, -⟩
      · exact hall k i o' hk
      · omega
    · rw [hruns, hlen, allGoOn_snoc hall]
      intro hgo
      rcases executeWork_later plus item (runsOf id' ls).length id' o with ⟨-, e⟩ | ⟨hno, -⟩
      · rw [e, if_neg hgo.2.2, recordsOf_single] at hafter
        exact List.perm_singleton.mp hafter
      · exact absurd hgo hno
    · rw [hruns, allGoOn_snoc hall]
      intro hno
      rcases executeWork_later plus item (runsOf id' ls).length id' o with ⟨hgo, -⟩ | ⟨-, h0⟩
      · exact absurd hgo hno
      · rw [if_pos h0] at hafter
        exact List.perm_nil.mp hafter
  · refine h.keep (by simp [Label.runOf?, hid]) (hafter.trans ?_)
    rw [hbefore, recordsOf_cons_of_ne hid]
    split <;> simp [recordsOf, hid]

theorem LeftAlone.step {ls : List (Label ω w)} (h : LeftAlone plus item id ls s) (hi : Inv s)
    (hrun : s.queue.workerStoppedFlag = false) (hs : Step plus s l t)
    (hno : ¬ l.Disturbs id item.clientId) :
    LeftAlone plus item id (ls ++ [l]) t ∧ t.queue.workerStoppedFlag = false := by
  cases hs with
  | call hp call _ _ =>
    have hc : ∀ r ∈ recordsOf id s.queue.wqItemContainer, r.1.clientId = item.clientId := by
      intro r hr
      by_cases hall : AllGoOn plus item (runsOf id ls)
      · rw [h.pending hall, List.mem_singleton] at hr
        rw [hr]
        rfl
      · rw [h.done hall] at hr
        cases hr
    obtain ⟨hperm, hflag⟩ := recordsOf_run hp hi.valid.heap hc call hno
    exact ⟨h.keep rfl hperm, hflag.trans hrun⟩
  | startWorker _ hstop =>
    rw [hrun] at hstop
    cases hstop
  | @exit _ front rest _ hc hnull =>
    exact absurd hnull (hi.valid.works hrun front (hc ▸ List.mem_cons_self))
  | execute hp o hw hf hd hne hpop hnull =>
    have hs : Step plus s _ _ := .execute hp o hw hf hd hne hpop hnull
    exact ⟨h.execute hi hs, (recordsOf_execute id hi hs).2.trans hrun⟩
  | _ => exact ⟨h.keep rfl (.refl _), hrun⟩

end Records

/-- **A work that is left alone is run on its series**, and no call of it is skipped or doubled,
whatever else happens in the queue. -/
theorem left_alone {plus : Int → Int → Int} {s t : State ω w} {item : WqItem ω w} {id : BitVec w}
    {ls : List (Label ω w)} (hr : Reachable (system ω w plus) s) (hwork : item.work ≠ none)
    (hone : recordsOf id s.queue.wqItemContainer = [(item, id)])
    (hrun : Run (system ω w plus) s ls t) (hno : ∀ x ∈ ls, ¬ x.Disturbs id item.clientId) :
    LeftAlone plus item id ls t := by
  have hi := inv_of_reachable hr
  have hflag : s.queue.workerStoppedFlag = false := by
    have hmem : (item, id) ∈ s.queue.wqItemContainer :=
      (List.mem_filter.mp (hone ▸ List.mem_singleton_self _ : (item, id) ∈ recordsOf id _)).1
    by_contra hstop
    rcases hi.valid.stopped (by simpa using hstop) with hnil | ⟨id', hempty⟩
    · rw [hnil] at hmem
      cases hmem
    · rw [hempty, List.mem_singleton] at hmem
      exact hwork (congrArg (fun r : Record ω w => r.1.work) hmem)
  have hrun' : Run ((system ω w plus).restrict fun _ x => ¬ x.Disturbs id item.clientId) s ls t :=
    hrun.of_labels fun x hx _ => hno x hx
  have hstart : LeftAlone plus item id [] s := by
    have hall : AllGoOn plus item [] := fun k i o hk => absurd hk (by simp)
    exact ⟨fun k i o hk => absurd hk (by simp [runsOf]),
      fun k i o hk => absurd hk (by simp [runsOf]),
      fun _ => hone, fun h => absurd hall h⟩
  refine (hrun'.history_invariant (P := fun ls t => LeftAlone plus item id ls t ∧ Inv t ∧
    t.queue.workerStoppedFlag = false) ?_ ⟨hstart, hi, hflag⟩).1
  rintro ls u l v ⟨h, hi, hflag⟩ ⟨hl, hs⟩
  obtain ⟨h', hflag'⟩ := h.step hi hflag hs hl
  exact ⟨h', hi.step hs, hflag'⟩

theorem everyFive_twice : ∃ t u v : State Unit 64,
    Step (· + ·) (everyFive 5) (.execute (⟨5, 0, some (), 5⟩, 0) (.returned true)) t ∧
    Run (system Unit 64 (· + ·)) t [.waitForTime, .tick] u ∧
    Step (· + ·) u (.execute (⟨10, 0, some (), 5⟩, 0) (.returned true)) v := by
  have h1 : Step (· + ·) (everyFive 5) (.execute (⟨5, 0, some (), 5⟩, 0) (.returned true))
      ⟨everyFiveQueue 10 false false, .loop, 9⟩ :=
    .execute (s := everyFive 5) (siftHeap Unit 64) (.returned true) rfl rfl (by decide)
      (List.cons_ne_nil _ _) rfl (by simp)
  have hwait : Run (system Unit 64 (· + ·)) ⟨everyFiveQueue 10 false false, .loop, 9⟩
      [.waitForTime, .tick] ⟨everyFiveQueue 10 false false, .waitForTimePoint 10, 10⟩ :=
    .cons (.waitForTime (s := ⟨everyFiveQueue 10 false false, .loop, 9⟩) rfl rfl
      (Option.some_ne_none _) rfl) (.single (.tick 10 (by decide)))
  have h2 : Step (· + ·) ⟨everyFiveQueue 10 false false, .waitForTimePoint 10, 10⟩
      (.execute (⟨10, 0, some (), 5⟩, 0) (.returned true))
      ⟨everyFiveQueue 15 false false, .loop, 10⟩ :=
    .execute (s := ⟨everyFiveQueue 10 false false, .waitForTimePoint 10, 10⟩) (siftHeap Unit 64)
      (.returned true) rfl rfl (Int.le_refl 10) (List.cons_ne_nil _ _) rfl (by simp)
  exact ⟨_, _, _, h1, hwait, h2⟩

/-- After the two calls the work is due at `15`. -/
theorem left_alone_everyFive : ∃ (ls : List (Label Unit 64)) (v : State Unit 64),
    Run (system Unit 64 (· + ·)) (everyFive 5) ls v ∧
    runsOf 0 ls = [(⟨5, 0, some (), 5⟩, .returned true), (⟨10, 0, some (), 5⟩, .returned true)] ∧
    recordsOf 0 v.queue.wqItemContainer = [(⟨15, 0, some (), 5⟩, 0)] := by
  obtain ⟨t, u, v, h1, hwait, h2⟩ := everyFive_twice
  have hrun : Run (system Unit 64 (· + ·)) (everyFive 5) _ v :=
    .cons h1 (hwait.append (.single h2))
  have hone : recordsOf 0 (everyFive 5).queue.wqItemContainer = [(⟨5, 0, some (), 5⟩, 0)] := rfl
  refine ⟨_, v, hrun, rfl, ?_⟩
  refine (left_alone (everyFive_reachable _ 5 (by decide)) (Option.some_ne_none ()) hone hrun
    (by simp [Label.Disturbs])).pending ?_
  intro k i o hk
  rcases getElem?_snoc [(⟨5, 0, some (), 5⟩, .returned true)] hk with hk | ⟨rfl, he⟩
  · rcases getElem?_snoc [] hk with hk | ⟨rfl, he⟩
    · cases hk
    · cases he
      exact ⟨rfl, by decide, by decide⟩
  · cases he
    exact ⟨rfl, by decide, by decide⟩

/-! ### The order of the calls -/

/-- The step puts in a record that is due before the time. -/
def Label.Early (plus : Int → Int → Int) (tp : Int) : Label ω w → Prop
  | .call (.scheduleWork now c wk st p) (.posted .success _) =>
    (scheduledItem now c wk st p).timePoint < tp
  | .call (.updateWork _ _ _ st _) (.status .success) => st < tp
  | .execute item o => ¬ isTimePointEmpty (executeWork plus item o) ∧ executeWork plus item o < tp
  | _ => False

def DueBefore (tp : Int) (r : Record ω w) : Prop := r.1.timePoint < tp

theorem Puts.early {plus : Int → Int → Int} {tp : Int} {q : Members ω w} {c : Call ω w}
    {reply : Reply w} (hp : Puts (DueBefore tp) q c reply) :
    Label.Early plus tp (.call c reply : Label ω w) := by
  cases hp with
  | schedule h => exact h
  | update _ _ h => exact h

section NotBefore

variable {plus : Int → Int → Int} {s t : State ω w} {l : Label ω w} {tp : Int}

/-- The record that is run is the earliest, and what a step puts in is not earlier. -/
theorem Members.Without.notEarly (hi : Inv s) (hq : s.queue.Without (DueBefore tp))
    (hs : Step plus s l t) (hno : ¬ l.Early plus tp) : t.queue.Without (DueBefore tp) := by
  cases hs with
  | call h c =>
    exact (hq.call h hi.valid.heap _).resolve_right fun hp => hno hp.early
  | exit =>
    intro r hr
    cases hr
  | execute h o hw hf hd hne hp _ =>
    obtain ⟨rest, u, hc, rfl, hperm, hheap⟩ := popRecord_eq_some hi.valid.heap hne hp
    intro r hr hwork
    rcases mem_reschedule hheap hr with hr | ⟨hne, rfl⟩
    · exact hq r (hc ▸ List.mem_cons_of_mem _ (hperm.mem_iff.mp hr)) hwork
    · exact fun hlt => hno ⟨hne, hlt⟩
  | _ => exact hq

theorem notEarly_run {ls : List (Label ω w)} (hi : Inv s) (hq : s.queue.Without (DueBefore tp))
    (hr : Run (system ω w plus) s ls t) (hno : ∀ x ∈ ls, ¬ x.Early plus tp) :
    Inv t ∧ t.queue.Without (DueBefore tp) := by
  induction hr with
  | nil => exact ⟨hi, hq⟩
  | cons hs _ ih =>
    rw [List.forall_mem_cons] at hno
    exact ih (hi.step hs) (hq.notEarly hi hs hno.1) hno.2

end NotBefore

/-- **Works are called in the order of their times**, from one call on for as long as nothing
earlier is put into the queue. -/
theorem never_back {plus : Int → Int → Int} {s t u v : State ω w} {rec rec' : Record ω w}
    {o o' : Outcome} {ls : List (Label ω w)} (hr : Reachable (system ω w plus) s)
    (hs : Step plus s (.execute rec o) t) (hrun : Run (system ω w plus) t ls u)
    (hs' : Step plus u (.execute rec' o') v)
    (hno : ∀ x ∈ .execute rec o :: ls, ¬ x.Early plus rec.1.timePoint) :
    rec.1.timePoint ≤ rec'.1.timePoint := by
  have hi := inv_of_reachable hr
  rw [List.forall_mem_cons] at hno
  -- the record that is run is the front of the heap
  have hq : s.queue.Without (DueBefore rec.1.timePoint) := by
    cases hs with
    | execute h _ _ _ _ hne hp _ =>
      intro r hr _
      exact Int.not_lt.mpr ((popRecord_le hi.valid.heap hne hp).2 r hr)
  obtain ⟨hi', hq'⟩ := notEarly_run (hi.step hs) (hq.notEarly hi hs hno.1) hrun hno.2
  exact Int.not_lt.mp (hq'.not_execute hi' hs')

/-- Two calls of the work that is to run every five ticks. -/
theorem never_back_everyFive : ∃ t u v : State Unit 64,
    Step (· + ·) (everyFive 5) (.execute (⟨5, 0, some (), 5⟩, 0) (.returned true)) t ∧
    Run (system Unit 64 (· + ·)) t [.waitForTime, .tick] u ∧
    Step (· + ·) u (.execute (⟨10, 0, some (), 5⟩, 0) (.returned true)) v ∧ (5 : Int) ≤ 10 := by
  obtain ⟨t, u, v, h1, hwait, h2⟩ := everyFive_twice
  refine ⟨t, u, v, h1, hwait, h2, ?_⟩
  exact never_back (everyFive_reachable _ 5 (by decide)) h1 hwait h2
    (by simp [Label.Early, executeWork])

end Mqmx.WorkQueue
