import Mathlib.Data.List.Induction
import Mathlib.Data.List.Sort
import Mqmx.Queue.Listener

/-!
# The list as a digest

A listener starts with an empty list and hears of notifications one after another:
`digest`.  What the list comes to is said without the list: of the calls for an id it has
the pointer of the first one and the flags of all, `summary`.

* `record_digest`: the record of an id is the summary of the calls for it.
* `sorted_digest`: so the list is the sorted digest of the calls, and their order does
  not matter to ids and flags.
-/

namespace Mqmx

variable {A : Type}

structure Notification (A : Type) where
  qid : ℕ
  mq : Option A
  flag : Flags
  deriving DecidableEq

/-- The list of a new `message_queue_poll_listener` after these calls. -/
def digest (calls : List (Notification A)) : List (NotificationRec A) :=
  calls.foldl (fun v n => notify n.qid n.mq n.flag v) []

/-- The calls for an id, in their order. -/
def callsFor (i : ℕ) (calls : List (Notification A)) : List (Notification A) :=
  calls.filter fun n => n.qid = i

/-- The flags of all calls together. -/
def allFlags (calls : List (Notification A)) : Flags := calls.foldl (fun f n => f ||| n.flag) 0

/-- What is to be known of an id: the first pointer, and all flags. -/
def summary (i : ℕ) (calls : List (Notification A)) : Option (NotificationRec A) :=
  (callsFor i calls).head?.map fun n => ⟨i, n.mq, allFlags (callsFor i calls)⟩

/-! ### The calls for an id -/

@[simp] theorem digest_nil : digest ([] : List (Notification A)) = [] := rfl

@[simp] theorem digest_snoc (calls : List (Notification A)) (n : Notification A) :
    digest (calls ++ [n]) = notify n.qid n.mq n.flag (digest calls) := by
  rw [digest, List.foldl_append]
  rfl

@[simp] theorem callsFor_snoc (i : ℕ) (calls : List (Notification A)) (n : Notification A) :
    callsFor i (calls ++ [n]) =
      if n.qid = i then callsFor i calls ++ [n] else callsFor i calls := by
  rw [callsFor, List.filter_append]
  by_cases h : n.qid = i
  · rw [if_pos h, List.filter_singleton]
    simp [callsFor, h]
  · rw [if_neg h, List.filter_singleton]
    simp [callsFor, h]

theorem callsFor_eq_nil {i : ℕ} {calls : List (Notification A)} :
    callsFor i calls = [] ↔ i ∉ calls.map Notification.qid := by
  simp [callsFor]

@[simp] theorem allFlags_snoc (calls : List (Notification A)) (n : Notification A) :
    allFlags (calls ++ [n]) = allFlags calls ||| n.flag := by
  rw [allFlags, List.foldl_append]
  rfl

theorem allFlags_has {calls : List (Notification A)} {k : Flags} :
    (allFlags calls).has k ↔ ∃ n ∈ calls, n.flag.has k := by
  induction calls using List.reverseRecOn with
  | nil => simp [allFlags, Flags.has]
  | append_singleton calls n ih => simp [ih, or_and_right, exists_or]

theorem allFlags_perm {calls calls' : List (Notification A)} (h : calls.Perm calls') :
    allFlags calls = allFlags calls' := by
  apply h.foldl_eq'
  intro n _ m _ f
  rw [BitVec.or_assoc, BitVec.or_assoc, BitVec.or_comm n.flag]

theorem summary_eq_none {i : ℕ} {calls : List (Notification A)} :
    summary i calls = none ↔ i ∉ calls.map Notification.qid := by
  rw [summary, Option.map_eq_none_iff, List.head?_eq_none_iff, callsFor_eq_nil]

/-! ### The list after the calls -/

theorem ascending_digest (calls : List (Notification A)) : Ascending (digest calls) := by
  induction calls using List.reverseRecOn with
  | nil => exact ascending_nil
  | append_singleton calls n ih =>
    rw [digest_snoc]
    exact ih.notify n.qid n.mq n.flag

/-- **The record of an id is the summary of the calls for it.** -/
theorem record_digest (calls : List (Notification A)) (i : ℕ) :
    record (digest calls) i = summary i calls := by
  induction calls using List.reverseRecOn with
  | nil => rfl
  | append_singleton calls n ih =>
    rw [digest_snoc, record_notify (ascending_digest calls)]
    by_cases hi : i = n.qid
    · subst hi
      rw [if_pos rfl, ih, summary, summary, callsFor_snoc, if_pos rfl]
      cases hc : callsFor n.qid calls with
      | nil => simp [merged, allFlags]
      | cons m rest =>
        have hsnoc := allFlags_snoc (m :: rest) n
        simp only [List.head?_cons, Option.map_some, merged, List.cons_append] at hsnoc ⊢
        rw [hsnoc]
    · rw [if_neg hi, ih, summary, summary, callsFor_snoc, if_neg (Ne.symm hi)]

theorem mem_digest {calls : List (Notification A)} {r : NotificationRec A} :
    r ∈ digest calls ↔ summary r.qid calls = some r := by
  rw [mem_iff_record (ascending_digest calls), record_digest]

theorem eq_of_ascending {β : Type} (key : β → ℕ) {u v : List β}
    (hu : u.Pairwise fun a b => key a < key b) (hv : v.Pairwise fun a b => key a < key b)
    (h : ∀ a, a ∈ u ↔ a ∈ v) : u = v := by
  have : Std.Irrefl fun a b : β => key a < key b := ⟨fun a => Nat.lt_irrefl _⟩
  have : Std.Antisymm fun a b : β => key a < key b :=
    ⟨fun a b hab hba => absurd hab (Nat.lt_asymm hba)⟩
  exact hu.eq_of_mem_iff hv h

def idsAndFlags (v : List (NotificationRec A)) : List (ℕ × Flags) := v.map fun r => (r.qid, r.flags)

theorem mem_idsAndFlags {calls : List (Notification A)} {i : ℕ} {f : Flags} :
    (i, f) ∈ idsAndFlags (digest calls) ↔
      i ∈ calls.map Notification.qid ∧ f = allFlags (callsFor i calls) := by
  rw [idsAndFlags, List.mem_map]
  constructor
  · rintro ⟨r, hr, e⟩
    cases e
    have hsum := mem_digest.mp hr
    have hmem : r.qid ∈ calls.map Notification.qid := by
      by_contra hno
      rw [summary_eq_none.mpr hno] at hsum
      cases hsum
    obtain ⟨n, -, e⟩ := Option.map_eq_some_iff.mp hsum
    exact ⟨hmem, by rw [← e]⟩
  · rintro ⟨hi, rfl⟩
    cases hs : summary i calls with
    | none => exact absurd hi (summary_eq_none.mp hs)
    | some r =>
      obtain ⟨n, -, e⟩ := Option.map_eq_some_iff.mp hs
      subst e
      exact ⟨⟨i, n.mq, allFlags (callsFor i calls)⟩, mem_digest.mpr hs, rfl⟩

/-- **The list is the sorted digest of the calls**: in strictly ascending order it has the
ids that were notified, each with all its flags and its first pointer.  Neither ids nor
flags depend on the order of the calls, nor does the list on how the calls for different
ids are ordered; and no flag is ever dropped. -/
theorem sorted_digest (calls : List (Notification A)) :
    Ascending (digest calls) ∧
    (∀ i, i ∈ (digest calls).map NotificationRec.qid ↔ i ∈ calls.map Notification.qid) ∧
    (∀ r ∈ digest calls, r.flags = allFlags (callsFor r.qid calls) ∧
      some r.mq = (callsFor r.qid calls).head?.map Notification.mq) ∧
    (∀ calls' : List (Notification A), calls'.Perm calls →
      idsAndFlags (digest calls') = idsAndFlags (digest calls)) ∧
    (∀ calls' : List (Notification A), (∀ i, callsFor i calls' = callsFor i calls) →
      digest calls' = digest calls) ∧
    (∀ n ∈ calls, n.flag.has Flag.data →
      ∃ r ∈ digest calls, r.qid = n.qid ∧ r.flags.has Flag.data) := by
  refine ⟨ascending_digest calls, ?_, ?_, ?_, ?_, ?_⟩
  · intro i
    constructor
    · intro hi
      obtain ⟨r, hr, rfl⟩ := List.mem_map.mp hi
      exact (mem_idsAndFlags.mp (List.mem_map.mpr ⟨r, hr, rfl⟩)).1
    · intro hi
      obtain ⟨r, hr, e⟩ := List.mem_map.mp (mem_idsAndFlags.mpr ⟨hi, rfl⟩)
      exact List.mem_map.mpr ⟨r, hr, congrArg Prod.fst e⟩
  · intro r hr
    obtain ⟨n, hn, e⟩ := Option.map_eq_some_iff.mp (mem_digest.mp hr)
    rw [← e, hn]
    exact ⟨rfl, rfl⟩
  · intro calls' hp
    have hasc : ∀ c : List (Notification A),
        (idsAndFlags (digest c)).Pairwise fun a b => a.1 < b.1 := fun c =>
      List.pairwise_map.mpr (ascending_digest c)
    apply eq_of_ascending Prod.fst (hasc calls') (hasc calls)
    rintro ⟨i, f⟩
    rw [mem_idsAndFlags, mem_idsAndFlags, (hp.map _).mem_iff, callsFor, callsFor,
      allFlags_perm (hp.filter _)]
  · intro calls' h
    apply eq_of_ascending NotificationRec.qid (ascending_digest calls') (ascending_digest calls)
    intro r
    rw [mem_digest, mem_digest, summary, summary, h]
  · intro n hn hd
    have hi : n.qid ∈ calls.map Notification.qid := List.mem_map_of_mem hn
    obtain ⟨r, hr, e⟩ := List.mem_map.mp (mem_idsAndFlags.mpr ⟨hi, rfl⟩)
    obtain ⟨hq, hf⟩ := Prod.mk.inj e
    refine ⟨r, hr, hq, ?_⟩
    rw [hf, allFlags_has]
    exact ⟨n, by simp [callsFor, hn], hd⟩

/-- Closed may come before data or after it. -/
theorem sorted_digest_closed :
    idsAndFlags (digest [⟨7, some 1, Flag.data⟩, ⟨3, some 2, Flag.data⟩, ⟨7, none, Flag.closed⟩]) =
      idsAndFlags
        (digest [⟨7, none, Flag.closed⟩, ⟨7, some 1, Flag.data⟩, ⟨3, some 2, Flag.data⟩]) :=
  (sorted_digest _).2.2.2.1 _ (by decide)

end Mqmx
