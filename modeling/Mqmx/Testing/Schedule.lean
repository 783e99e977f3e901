import Mqmx.Base.Interleave
import Mqmx.Testing.Invariant

/-!
# The schedule of the records

What the records of a container ask for, up to a time point `T`: each one is run at
its time point and then at every period, while its work returns true and as long as
the time is not later than `T`.

* `executions r os`: the executions of `r` when the calls of its work end as `os` says.
* `after r os`: what is left of `r` then.
* `Follows T r os`: these are the executions up to `T`, no more and no less.
* `Replay`: a history that runs every record of a container on its schedule, all of
  them merged by time.

`Played` is `Replay` on the way there, and `Played.execute` its one step: the worker runs
the earliest record and puts it back.
-/

namespace Mqmx.Testing

open WorkQueue (Record Outcome)

variable {ω : Type} {w : ℕ}

/-! ### One record -/

/-- The record at its `k`-th instance, counted from `0`. -/
def advance (r : Record (Work ω) w) (k : ℕ) : Record (Work ω) w :=
  ({ r.1 with timePoint := r.1.timePoint + k * r.1.period }, r.2)

/-- A call that ends like this is followed by another one. -/
def Again (r : Record (Work ω) w) (o : Outcome) : Prop := o = .returned true ∧ 0 < r.1.period

instance (r : Record (Work ω) w) (o : Outcome) : Decidable (Again r o) :=
  inferInstanceAs (Decidable (_ ∧ _))

/-- The record once its work has been called `os.length` times, unless it is done. -/
def after (r : Record (Work ω) w) (os : List Outcome) : Option (Record (Work ω) w) :=
  if ∀ o ∈ os, Again r o then some (advance r os.length) else none

/-- The executions of the record: the `k`-th call is that at the `k`-th instance. -/
def executions (r : Record (Work ω) w) (os : List Outcome) : List (Record (Work ω) w × Outcome) :=
  os.zipIdx.map fun x => (advance r x.2, x.1)

/-- None is run that should not be: only the last call may be without a successor, and no
instance is later than `T`. -/
structure Within (T : Int) (r : Record (Work ω) w) (os : List Outcome) : Prop where
  again : ∀ o ∈ os.dropLast, Again r o
  due : ∀ k < os.length, (advance r k).1.timePoint ≤ T

/-- And none is left out: what is left of the record is later than `T`. -/
structure Follows (T : Int) (r : Record (Work ω) w) (os : List Outcome) : Prop
    extends Within T r os where
  left : ∀ r' ∈ after r os, T < r'.1.timePoint

@[simp] theorem advance_zero (r : Record (Work ω) w) : advance r 0 = r := by simp [advance]

theorem advance_succ (r : Record (Work ω) w) (k : ℕ) :
    (advance r (k + 1)).1.timePoint = (advance r k).1.timePoint + r.1.period := by
  show r.1.timePoint + (k + 1 : ℕ) * r.1.period = r.1.timePoint + k * r.1.period + r.1.period
  rw [Int.natCast_add, Int.natCast_one, Int.add_mul, Int.one_mul, Int.add_assoc]

@[simp] theorem executions_nil (r : Record (Work ω) w) : executions r [] = [] := rfl

@[simp] theorem after_nil (r : Record (Work ω) w) : after r [] = some r := by simp [after]

theorem executions_append (r : Record (Work ω) w) (os : List Outcome) (o : Outcome) :
    executions r (os ++ [o]) = executions r os ++ [(advance r os.length, o)] := by
  simp [executions, List.zipIdx_append]

theorem after_eq_some {r r' : Record (Work ω) w} {os : List Outcome} (h : after r os = some r') :
    (∀ o ∈ os, Again r o) ∧ r' = advance r os.length := by
  unfold after at h
  split at h
  · rename_i hall
    exact ⟨hall, (Option.some.inj h).symm⟩
  · cases h

/-- **One more call**: what the worker puts back is what is left. -/
theorem after_append {r item : Record (Work ω) w} {os : List Outcome} (h : after r os = some item)
    (hpos : 0 < item.1.timePoint) (o : Outcome) :
    again item (WorkQueue.executeWork (· + ·) item o) = (after r (os ++ [o])).toList := by
  obtain ⟨hall, rfl⟩ := after_eq_some h
  have hiff : (∀ o' ∈ os ++ [o], Again r o') ↔ Again r o := by
    simp only [List.forall_mem_append, List.forall_mem_singleton]
    exact and_iff_right hall
  by_cases ho : Again r o
  · obtain ⟨rfl, hp⟩ := ho
    have hsucc := advance_succ r os.length
    have htp : WorkQueue.executeWork (· + ·) (advance r os.length) (.returned true) =
        (advance r (os.length + 1)).1.timePoint := (if_pos hp).trans hsucc.symm
    have hne : ¬ isTimePointEmpty (advance r (os.length + 1)).1.timePoint := by
      unfold isTimePointEmpty
      omega
    rw [htp, Testing.again, if_neg hne, after, if_pos (hiff.mpr ⟨rfl, hp⟩), List.length_append]
    rfl
  · have htp : WorkQueue.executeWork (· + ·) (advance r os.length) o = 0 := by
      cases o with
      | threw => rfl
      | returned b =>
        cases b with
        | false => rfl
        | true => exact if_neg fun hp => ho ⟨rfl, hp⟩
    rw [htp, after, if_neg fun h' => ho (hiff.mp h')]
    exact if_pos rfl

theorem Within.append {T : Int} {r item : Record (Work ω) w} {os : List Outcome}
    (hw : Within T r os) (h : after r os = some item) (hdue : item.1.timePoint ≤ T)
    (o : Outcome) : Within T r (os ++ [o]) := by
  obtain ⟨hall, rfl⟩ := after_eq_some h
  refine ⟨by simpa using hall, ?_⟩
  intro k hk
  rw [List.length_append, List.length_singleton] at hk
  rcases Nat.lt_or_eq_of_le (Nat.le_of_lt_succ hk) with hlt | rfl
  · exact hw.due k hlt
  · exact hdue

/-! ### All records -/

/-- What is left of all records. -/
def leftovers (plays : List (Record (Work ω) w × List Outcome)) : List (Record (Work ω) w) :=
  plays.filterMap fun p => after p.1 p.2

theorem leftovers_middle (a b : List (Record (Work ω) w × List Outcome))
    (p : Record (Work ω) w × List Outcome) :
    leftovers (a ++ p :: b) = leftovers a ++ ((after p.1 p.2).toList ++ leftovers b) := by
  unfold leftovers
  rw [List.filterMap_append, List.filterMap_cons]
  cases after p.1 p.2 <;> rfl

/-- **The exact schedule up to `T`.**  The history `es` runs the records `v₀` and leaves
`v`; `plays` has for every record of `v₀` how the calls of its work ended. -/
structure Replay (T : Int) (v₀ : List (Record (Work ω) w))
    (es : List (Record (Work ω) w × Outcome)) (v : List (Record (Work ω) w))
    (plays : List (Record (Work ω) w × List Outcome)) : Prop where
  records : plays.map Prod.fst = v₀
  follows : ∀ p ∈ plays, Follows T p.1 p.2
  merges : Interleaves (plays.map fun p => executions p.1 p.2) es
  once : es.Perm (plays.flatMap fun p => executions p.1 p.2)
  ordered : es.Pairwise fun e e' => e.1.1.timePoint ≤ e'.1.1.timePoint
  pending : v.Perm (leftovers plays)
  later : ∀ r ∈ v, T < r.1.timePoint

/-- The same on the way: nothing has been run that is later than what is pending. -/
structure Played (T : Int) (v₀ : List (Record (Work ω) w))
    (es : List (Record (Work ω) w × Outcome)) (v : List (Record (Work ω) w))
    (plays : List (Record (Work ω) w × List Outcome)) : Prop where
  records : plays.map Prod.fst = v₀
  within : ∀ p ∈ plays, Within T p.1 p.2
  merges : Interleaves (plays.map fun p => executions p.1 p.2) es
  ordered : es.Pairwise fun e e' => e.1.1.timePoint ≤ e'.1.1.timePoint
  latest : ∀ e ∈ es, ∀ r ∈ v, e.1.1.timePoint ≤ r.1.timePoint
  pending : v.Perm (leftovers plays)

section Played

variable {T : Int} {v₀ v : List (Record (Work ω) w)} {es : List (Record (Work ω) w × Outcome)}
  {plays : List (Record (Work ω) w × List Outcome)}

theorem played_nil (T : Int) (v₀ : List (Record (Work ω) w)) :
    Played T v₀ [] v₀ (v₀.map fun r => (r, [])) where
  records := by
    rw [List.map_map]
    exact List.map_id v₀
  within := by
    intro p hp
    obtain ⟨r, -, rfl⟩ := List.mem_map.mp hp
    exact ⟨by simp, by simp⟩
  merges := .nil (by simp)
  ordered := .nil
  latest := by simp
  pending := by
    rw [leftovers, List.filterMap_map]
    simp

theorem Played.perm (h : Played T v₀ es v plays) {v' : List (Record (Work ω) w)}
    (hp : v'.Perm v) : Played T v₀ es v' plays :=
  { h with
    latest := fun e he r hr => h.latest e he r (hp.mem_iff.mp hr)
    pending := hp.trans h.pending }

/-- **One execution.**  The earliest pending record is run and put back as it is to be. -/
theorem Played.execute (h : Played T v₀ es v plays) {item : Record (Work ω) w}
    {rest : List (Record (Work ω) w)} (hv : v.Perm (item :: rest))
    (hfirst : ∀ r ∈ rest, item.1.timePoint ≤ r.1.timePoint) (hdue : item.1.timePoint ≤ T)
    (hpos : 0 < item.1.timePoint) (o : Outcome) :
    ∃ plays', Played T v₀ (es ++ [(item, o)])
      (rest ++ again item (WorkQueue.executeWork (· + ·) item o)) plays' := by
  have hmem : item ∈ v := hv.mem_iff.mpr List.mem_cons_self
  obtain ⟨p, hp, hafter⟩ := List.mem_filterMap.mp (h.pending.mem_iff.mp hmem)
  obtain ⟨a, b, rfl⟩ := List.append_of_mem hp
  obtain ⟨r, os⟩ := p
  obtain ⟨-, hitem⟩ := after_eq_some hafter
  refine ⟨a ++ (r, os ++ [o]) :: b, ?_, ?_, ?_, ?_, ?_, ?_⟩
  · rw [← h.records]
    simp
  · intro q hq
    rcases List.mem_append.mp hq with hm | hm
    · exact h.within q (List.mem_append_left _ hm)
    rcases List.mem_cons.mp hm with rfl | hm
    · exact (h.within (r, os) hp).append hafter hdue o
    · exact h.within q (List.mem_append_right _ (List.mem_cons_of_mem _ hm))
  · have := h.merges
    rw [List.map_append, List.map_cons] at this ⊢
    rw [executions_append, ← hitem]
    exact this.snoc _
  · refine List.pairwise_append.mpr ⟨h.ordered, List.pairwise_singleton _ _, ?_⟩
    intro e he e' he'
    rw [List.mem_singleton.mp he']
    exact h.latest e he item hmem
  · intro e he q hq
    have hlast : e.1.1.timePoint ≤ item.1.timePoint := by
      rcases List.mem_append.mp he with hm | hm
      · exact h.latest e hm item hmem
      · rw [List.mem_singleton.mp hm]
    have hnext : item.1.timePoint ≤ q.1.timePoint := by
      rcases List.mem_append.mp hq with hm | hm
      · exact hfirst q hm
      · rw [after_append hafter hpos] at hm
        obtain ⟨hall, rfl⟩ := after_eq_some (Option.mem_toList.mp hm)
        have hp := (hall o (by simp)).2
        rw [List.length_append, List.length_singleton, advance_succ, hitem]
        exact Int.le_add_of_nonneg_right (Int.le_of_lt hp)
    exact Int.le_trans hlast hnext
  · have hrest : rest.Perm (leftovers a ++ leftovers b) := by
      have hall := hv.symm.trans h.pending
      rw [leftovers_middle, hafter] at hall
      exact (hall.trans List.perm_middle).cons_inv
    rw [after_append hafter hpos, leftovers_middle]
    apply (hrest.append_right _).trans
    rw [List.append_assoc]
    exact List.perm_append_comm.append_left _

theorem Played.replay (h : Played T v₀ es v plays) (hlater : ∀ r ∈ v, T < r.1.timePoint) :
    Replay T v₀ es v plays where
  records := h.records
  follows p hp := ⟨h.within p hp, fun r' hr' =>
    hlater r' (h.pending.mem_iff.mpr (List.mem_filterMap.mpr ⟨p, hp, hr'⟩))⟩
  merges := h.merges
  once := by
    rw [List.flatMap_def]
    exact h.merges.perm
  ordered := h.ordered
  pending := h.pending
  later := hlater

end Played

end Mqmx.Testing
