import Mqmx.Queue.Model

/-!
# The list of notifications

The list of a poll listener is in strictly ascending order of queue id
(`Ascending.notify`), so it is a map from id to record: `record`.  On such a list
`notify` changes the record of one id (`record_notify`): it adds a flag, and where there
was no record it makes one.  Everything about the list is said through `record`, since
`mem_iff_record` gives the list back.
-/

namespace Mqmx

variable {A : Type}

/-- The record of an id. -/
def record (notifications : List (NotificationRec A)) (i : ℕ) : Option (NotificationRec A) :=
  notifications.find? fun r => r.qid = i

/-- In strictly ascending order of queue id. -/
def Ascending (notifications : List (NotificationRec A)) : Prop :=
  notifications.Pairwise fun r s => r.qid < s.qid

@[simp] theorem ascending_nil : Ascending ([] : List (NotificationRec A)) := List.Pairwise.nil

@[simp] theorem record_nil (i : ℕ) : record ([] : List (NotificationRec A)) i = none := rfl

theorem record_cons (r : NotificationRec A) (v : List (NotificationRec A)) (i : ℕ) :
    record (r :: v) i = if r.qid = i then some r else record v i := by
  unfold record
  by_cases h : r.qid = i
  · rw [List.find?_cons_of_pos (by simpa using h), if_pos h]
  · rw [List.find?_cons_of_neg (by simpa using h), if_neg h]

theorem record_eq_none {v : List (NotificationRec A)} {i : ℕ} :
    record v i = none ↔ ∀ r ∈ v, r.qid ≠ i := by
  simp [record, List.find?_eq_none]

theorem record_qid {v : List (NotificationRec A)} {i : ℕ} {r : NotificationRec A}
    (h : record v i = some r) : r ∈ v ∧ r.qid = i :=
  ⟨List.mem_of_find?_eq_some h, by simpa using List.find?_some h⟩

/-- **The list is the set of its records.** -/
theorem mem_iff_record {v : List (NotificationRec A)} (hv : Ascending v) {r : NotificationRec A} :
    r ∈ v ↔ record v r.qid = some r := by
  refine ⟨?_, fun h => (record_qid h).1⟩
  intro hr
  induction v with
  | nil => simp at hr
  | cons s v ih =>
    obtain ⟨hs, hv'⟩ := List.pairwise_cons.mp hv
    rw [record_cons]
    rcases List.mem_cons.mp hr with rfl | hr
    · exact if_pos rfl
    · have := hs r hr
      rw [if_neg (by omega)]
      exact ih hv' hr

/-! ### One notification -/

/-- `notify`, as a recursion on a list in order. -/
theorem notify_cons {qid : ℕ} {mq : Option A} {flag : Flags} {r : NotificationRec A}
    {v : List (NotificationRec A)} (hv : Ascending (r :: v)) :
    notify qid mq flag (r :: v) =
      if qid < r.qid then ⟨qid, mq, flag⟩ :: r :: v
      else if r.qid = qid then { r with flags := r.flags ||| flag } :: v
      else r :: notify qid mq flag v := by
  obtain ⟨hr, -⟩ := List.pairwise_cons.mp hv
  by_cases hlt : qid < r.qid
  · have : ¬ r.qid ≤ qid := by omega
    rw [if_pos hlt]
    simp [notify, this]
  rw [if_neg hlt]
  have hle : r.qid ≤ qid := by omega
  by_cases heq : r.qid = qid
  · rw [if_pos heq]
    -- what follows is beyond the id
    have hnone : ∀ s ∈ v, ¬ s.qid ≤ qid := fun s hs => by have := hr s hs; omega
    have htake : v.takeWhile (fun s => s.qid ≤ qid) = [] := by
      cases v with
      | nil => rfl
      | cons s v => simp [hnone s List.mem_cons_self]
    have hdrop : v.dropWhile (fun s => s.qid ≤ qid) = v := by
      cases v with
      | nil => rfl
      | cons s v => simp [hnone s List.mem_cons_self]
    simp [notify, htake, hdrop, heq]
  · rw [if_neg heq]
    simp only [notify, List.takeWhile_cons, List.dropWhile_cons, hle, decide_true, if_true]
    cases hb : v.takeWhile (fun s => s.qid ≤ qid) with
    | nil => simp [heq]
    | cons s b =>
      have hlast : (r :: s :: b).getLast? = (s :: b).getLast? := List.getLast?_cons_cons
      obtain ⟨p, hp⟩ : ∃ p, (s :: b).getLast? = some p :=
        ⟨_, List.getLast?_eq_some_getLast (List.cons_ne_nil s b)⟩
      simp only [hlast, hp]
      split <;> rfl

@[simp] theorem notify_nil (qid : ℕ) (mq : Option A) (flag : Flags) :
    notify qid mq flag [] = [⟨qid, mq, flag⟩] := rfl

/-- What `notify` makes of the record of its id. -/
def merged (qid : ℕ) (mq : Option A) (flag : Flags) :
    Option (NotificationRec A) → NotificationRec A
  | some r => { r with flags := r.flags ||| flag }
  | none => ⟨qid, mq, flag⟩

theorem record_notify {v : List (NotificationRec A)} (hv : Ascending v) (qid : ℕ)
    (mq : Option A) (flag : Flags) (i : ℕ) :
    record (notify qid mq flag v) i =
      if i = qid then some (merged qid mq flag (record v qid)) else record v i := by
  induction v with
  | nil =>
    rw [notify_nil, record_cons, record_nil, record_nil]
    by_cases h : i = qid
    · rw [if_pos h, if_pos h.symm]; rfl
    · rw [if_neg h, if_neg (Ne.symm h)]
  | cons r v ih =>
    obtain ⟨hr, hv'⟩ := List.pairwise_cons.mp hv
    rw [notify_cons hv]
    by_cases hlt : qid < r.qid
    · have hnone : record (r :: v) qid = none := by
        rw [record_eq_none]
        intro s hs
        rcases List.mem_cons.mp hs with rfl | hs
        · omega
        · have := hr s hs; omega
      rw [if_pos hlt, record_cons, hnone]
      by_cases h : i = qid
      · rw [if_pos h, if_pos h.symm]; rfl
      · rw [if_neg h, if_neg (Ne.symm h)]
    rw [if_neg hlt]
    by_cases heq : r.qid = qid
    · rw [if_pos heq, record_cons, record_cons, record_cons, if_pos heq]
      by_cases h : i = qid
      · rw [if_pos h, if_pos (heq.trans h.symm)]; rfl
      · rw [if_neg h, if_neg (fun h' => h (h'.symm.trans heq)),
          if_neg (fun h' => h (h'.symm.trans heq))]
    · rw [if_neg heq, record_cons, record_cons, record_cons, if_neg heq, ih hv']
      by_cases h : i = qid
      · rw [if_pos h, if_pos h, if_neg (fun h' => heq (h'.trans h))]
      · rw [if_neg h, if_neg h]

theorem mem_notify {v : List (NotificationRec A)} (hv : Ascending v) {qid : ℕ} {mq : Option A}
    {flag : Flags} {r : NotificationRec A} (hr : r ∈ notify qid mq flag v) :
    r ∈ v ∨ r.qid = qid := by
  induction v with
  | nil =>
    rw [notify_nil, List.mem_singleton] at hr
    exact .inr (by rw [hr])
  | cons s v ih =>
    rw [notify_cons hv] at hr
    split at hr
    · rcases List.mem_cons.mp hr with rfl | hr
      · exact .inr rfl
      · exact .inl hr
    · split at hr
      · rename_i heq
        rcases List.mem_cons.mp hr with rfl | hr
        · exact .inr heq
        · exact .inl (List.mem_cons_of_mem _ hr)
      · rcases List.mem_cons.mp hr with rfl | hr
        · exact .inl List.mem_cons_self
        · rcases ih (List.pairwise_cons.mp hv).2 hr with h | h
          · exact .inl (List.mem_cons_of_mem _ h)
          · exact .inr h

/-- **The list stays in order.** -/
theorem Ascending.notify {v : List (NotificationRec A)} (hv : Ascending v) (qid : ℕ)
    (mq : Option A) (flag : Flags) : Ascending (notify qid mq flag v) := by
  induction v with
  | nil => exact List.pairwise_singleton _ _
  | cons r v ih =>
    obtain ⟨hr, hv'⟩ := List.pairwise_cons.mp hv
    rw [notify_cons hv]
    split
    · rename_i hlt
      refine List.pairwise_cons.mpr ⟨fun s hs => ?_, hv⟩
      rcases List.mem_cons.mp hs with rfl | hs
      · exact hlt
      · have := hr s hs
        show qid < s.qid
        omega
    · split
      · exact List.pairwise_cons.mpr ⟨hr, hv'⟩
      · refine List.pairwise_cons.mpr ⟨fun s hs => ?_, ih hv'⟩
        rcases mem_notify hv' hs with hs | hs
        · exact hr s hs
        · rw [hs]; omega

/-! ### Flags -/

@[simp] theorem Flags.has_or (f g k : Flags) :
    Flags.has (f ||| g) k = (f.has k || g.has k) := by
  have h : (f ||| g) &&& k = 0 ↔ f &&& k = 0 ∧ g &&& k = 0 := by
    rw [BitVec.and_or_distrib_right]
    exact BitVec.or_eq_zero_iff
  unfold Flags.has
  rw [← Bool.decide_or]
  exact decide_eq_decide.mpr ((not_congr h).trans not_and_or)

theorem Flags.has_flag_or (f g k : Flags) : f.has (g ||| k) = (f.has g || f.has k) := by
  have comm : ∀ f g : Flags, f.has g = g.has f := by
    intro f g
    rw [Flags.has, Flags.has, BitVec.and_comm]
  rw [comm f, Flags.has_or, comm g, comm k]

end Mqmx
