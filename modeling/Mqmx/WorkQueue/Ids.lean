import Mathlib.Data.List.Nodup
import Mathlib.Data.List.Perm.Basic
import Mathlib.Data.Nat.ModEq
import Mqmx.WorkQueue.Rescheduling

/-!
# Ids

`post_work` and `get_client_id` count, and step over the invalid id.  So their ids come
round again after all `2^w - 1` valid ones: the `n`th is `nthId n`.

A pending record keeps the id it was posted with for as long as it is put back.  `History`
numbers the calls, and says of every pending record which call has posted it.  As long as
that was within the last round the pending ids are distinct (`ids_repeat_late`), and a call
that names one of them finds the record it means.
-/

namespace Mqmx.WorkQueue

open Transition (System Reachable Run)

variable {ω : Type} {w : ℕ}

/-! ### The ids in their order -/

def nthId (w n : ℕ) : BitVec w := BitVec.ofNat w (n % (2 ^ w - 1))

/-- What the counter holds after `n` calls. -/
def counter (w : ℕ) : ℕ → BitVec w
  | 0 => BitVec.allOnes w
  | n + 1 => nthId w n

theorem ofNat_inj {a b : ℕ} (ha : a < 2 ^ w) (hb : b < 2 ^ w)
    (h : BitVec.ofNat w a = BitVec.ofNat w b) : a = b := by
  have := congrArg BitVec.toNat h
  rwa [BitVec.toNat_ofNat, BitVec.toNat_ofNat, Nat.mod_eq_of_lt ha, Nat.mod_eq_of_lt hb] at this

theorem allOnes_eq_ofNat : BitVec.allOnes w = BitVec.ofNat w (2 ^ w - 1) := by
  apply BitVec.eq_of_toNat_eq
  have : 0 < 2 ^ w := Nat.two_pow_pos w
  rw [BitVec.toNat_allOnes, BitVec.toNat_ofNat, Nat.mod_eq_of_lt (by omega)]

theorem ofNat_succ (n : ℕ) : BitVec.ofNat w n + 1 = BitVec.ofNat w (n + 1) := by
  rw [BitVec.ofNat_add]
  rfl

/-- **The counter goes round the valid ids.** -/
theorem nextId_counter (n : ℕ) : nextId (BitVec.allOnes w) (counter w n) = counter w (n + 1) := by
  rcases Nat.eq_zero_or_pos w with rfl | hw
  · exact Subsingleton.elim _ _
  have h2 : 2 ≤ 2 ^ w := by
    calc 2 = 2 ^ 1 := rfl
      _ ≤ 2 ^ w := Nat.pow_le_pow_right (by decide) hw
  have hwrap : BitVec.allOnes w + 1 = nthId w 0 := by
    rw [allOnes_eq_ofNat, ofNat_succ, Nat.sub_add_cancel (by omega), nthId, Nat.zero_mod]
    apply BitVec.eq_of_toNat_eq
    rw [BitVec.toNat_ofNat, BitVec.toNat_ofNat, Nat.mod_self, Nat.zero_mod]
  have hvalid : ∀ k, k < 2 ^ w - 1 → BitVec.ofNat w k ≠ BitVec.allOnes w := by
    intro k hk he
    rw [allOnes_eq_ofNat] at he
    have := ofNat_inj (by omega) (by omega) he
    omega
  cases n with
  | zero =>
    have hne : BitVec.allOnes w + 1 ≠ BitVec.allOnes w := by
      rw [hwrap, nthId, Nat.zero_mod]
      exact hvalid 0 (by omega)
    rw [counter, nextId, if_neg hne, hwrap]
    rfl
  | succ n =>
    have hlt : n % (2 ^ w - 1) < 2 ^ w - 1 := Nat.mod_lt _ (by omega)
    rw [counter, counter, nthId, nextId, ofNat_succ]
    have hsucc : (n + 1) % (2 ^ w - 1) = (n % (2 ^ w - 1) + 1) % (2 ^ w - 1) := by
      rw [Nat.mod_add_mod]
    by_cases hlast : n % (2 ^ w - 1) + 1 = 2 ^ w - 1
    · have hzero : nthId w (n + 1) = nthId w 0 := by
        rw [nthId, nthId, hsucc, hlast, Nat.mod_self, Nat.zero_mod]
      rw [hlast, ← allOnes_eq_ofNat, if_pos rfl, hwrap, hzero]
    · have hsmall : n % (2 ^ w - 1) + 1 < 2 ^ w - 1 := by omega
      rw [if_neg (hvalid _ hsmall), nthId, hsucc, Nat.mod_eq_of_lt hsmall]

/-- **Two calls less than a round apart have different ids.** -/
theorem nthId_inj {a b : ℕ} (hab : a ≤ b) (hb : b < a + (2 ^ w - 1))
    (h : nthId w a = nthId w b) : a = b := by
  have hpos : 0 < 2 ^ w := Nat.two_pow_pos w
  have hlt : ∀ n, n % (2 ^ w - 1) < 2 ^ w := by
    intro n
    have := Nat.mod_lt n (show 0 < 2 ^ w - 1 by omega)
    omega
  have hmod : a ≡ b [MOD 2 ^ w - 1] := ofNat_inj (hlt a) (hlt b) h
  have hdvd : 2 ^ w - 1 ∣ b - a := (Nat.modEq_iff_dvd' hab).mp hmod
  have := Nat.eq_zero_of_dvd_of_lt hdvd (by omega)
  omega

theorem nthId_ne (n : ℕ) (hw : 0 < 2 ^ w - 1) : nthId w n ≠ BitVec.allOnes w := by
  intro h
  have hlt := Nat.mod_lt n hw
  rw [allOnes_eq_ofNat] at h
  have := ofNat_inj (by omega) (by omega) h
  omega

/-- Any `2^w - 1` ids in a row are distinct, and valid. -/
def RepeatsLate (issued : List (BitVec w)) : Prop :=
  ∀ k, ((issued.drop k).take (2 ^ w - 1)).Nodup ∧
    BitVec.allOnes w ∉ (issued.drop k).take (2 ^ w - 1)

/-- **The ids of the calls in their order repeat late.** -/
theorem repeatsLate_range (n : ℕ) : RepeatsLate ((List.range n).map (nthId w)) := by
  intro k
  obtain ⟨m, hm, hwindow⟩ : ∃ m ≤ 2 ^ w - 1, (((List.range n).map (nthId w)).drop k).take
      (2 ^ w - 1) = (List.range' k m).map (nthId w) := by
    rw [← List.map_drop, ← List.map_take, List.range_eq_range', List.drop_range', Nat.mul_one,
      Nat.zero_add]
    rcases Nat.le_total (n - k) (2 ^ w - 1) with hle | hle
    · exact ⟨_, hle, by rw [List.take_range'_of_length_le hle]⟩
    · exact ⟨_, le_rfl, by rw [List.take_range'_of_length_ge hle]⟩
  rw [hwindow]
  constructor
  · refine List.Nodup.map_on ?_ List.nodup_range'
    intro a ha b hb h
    rw [List.mem_range'_1] at ha hb
    rcases Nat.le_total a b with hle | hle
    · exact nthId_inj hle (by omega) h
    · exact (nthId_inj hle (by omega) h.symm).symm
  · intro hmem
    obtain ⟨a, ha, he⟩ := List.mem_map.mp hmem
    rw [List.mem_range'_1] at ha
    exact nthId_ne a (by omega) he

/-! ### What has been issued -/

/-- The ids of the successful calls of `post_work`, those of `get_client_id`, and the number
of the call that has posted each pending record. -/
structure History (ω : Type) (w : ℕ) where
  workIds : List (BitVec w)
  clientIds : List (BitVec w)
  pending : List (Record ω w × ℕ)

def History.none : History ω w := ⟨[], [], []⟩

/-- The id of a successful `post_work`; that of a stop is the id of the terminator. -/
def Label.workIds (t : State ω w) : Label ω w → List (BitVec w)
  | .call (.scheduleWork ..) (.posted .success id) => [id]
  | .call .signalWorkerToStop (.stopped true) => ids t.queue.wqItemContainer
  | _ => []

def Label.clientIds : Label ω w → List (BitVec w)
  | .call .getClientId (.clientId id) => [id]
  | _ => []

/-- How the pending records go on.  `n` calls of `post_work` have been successful before. -/
inductive Carries (n : ℕ) (p : List (Record ω w × ℕ)) :
    Label ω w → List (Record ω w × ℕ) → Prop
  | drops {a : Label ω w} {p' : List (Record ω w × ℕ)} : p'.Subperm p → Carries n p a p'
  | posts {now st per : Int} {c id : BitVec w} {wk : Option ω} {p' : List (Record ω w × ℕ)} :
      p'.Perm (((scheduledItem now c wk st per, id), n) :: p) →
      Carries n p (.call (.scheduleWork now c wk st per) (.posted .success id)) p'
  | updates {st per : Int} {c id : BitVec w} {wk : Option ω} {old : WqItem ω w} {k : ℕ}
      {rest p' : List (Record ω w × ℕ)} : p.Perm (((old, id), k) :: rest) →
      p'.Perm (((⟨st, c, wk, per⟩, id), k) :: rest) →
      Carries n p (.call (.updateWork id c wk st per) (.status .success)) p'
  | stops {id : BitVec w} :
      Carries n p (.call .signalWorkerToStop (.stopped true)) [((WqItem.empty, id), n)]
  | again (tp : Int) {item : Record ω w} {outcome : Outcome} {k : ℕ}
      {rest p' : List (Record ω w × ℕ)} : p.Perm ((item, k) :: rest) →
      p'.Perm ((({ item.1 with timePoint := tp }, item.2), k) :: rest) →
      Carries n p (.execute item outcome) p'

structure Follows (g : History ω w) (a : Label ω w) (t : State ω w) (g' : History ω w) : Prop where
  workIds : g'.workIds = g.workIds ++ a.workIds t
  clientIds : g'.clientIds = g.clientIds ++ a.clientIds
  carries : Carries g.workIds.length g.pending a g'.pending
  pending : (g'.pending.map Prod.fst).Perm t.queue.wqItemContainer

/-- The work queue with its history. -/
def recorded (ω : Type) (w : ℕ) (plus : Int → Int → Int) :
    System (State ω w × History ω w) (Label ω w) :=
  (system ω w plus).record .none Follows

/-! ### Every run has a history -/

theorem exists_perm_of_map {α β : Type} {f : α → β} {p : List α} {v : List β}
    (h : (p.map f).Perm v) : ∃ p' : List α, p'.Perm p ∧ p'.map f = v := by
  generalize hu : p.map f = u at h
  induction h generalizing p with
  | nil => exact ⟨p, .refl p, hu⟩
  | cons x _ ih =>
    obtain ⟨y, q, rfl, rfl, hq⟩ := List.map_eq_cons_iff.mp hu
    obtain ⟨q', hp, he⟩ := ih hq
    exact ⟨y :: q', hp.cons y, by rw [List.map_cons, he]⟩
  | swap x y l =>
    obtain ⟨a, q, rfl, rfl, hq⟩ := List.map_eq_cons_iff.mp hu
    obtain ⟨b, q', rfl, rfl, hq'⟩ := List.map_eq_cons_iff.mp hq
    exact ⟨b :: a :: q', .swap _ _ _, by rw [List.map_cons, List.map_cons, hq']⟩
  | trans _ _ ih ih' =>
    obtain ⟨q, hq, he⟩ := ih hu
    obtain ⟨q', hq', he'⟩ := ih' he
    exact ⟨q', hq'.trans hq, he'⟩

theorem exists_subperm_of_map {α β : Type} {f : α → β} {p : List α} {u v : List β}
    (h : (p.map f).Perm v) (hu : u.Sublist v) : ∃ p' : List α, p'.Subperm p ∧ p'.map f = u := by
  obtain ⟨q, hq, rfl⟩ := exists_perm_of_map h
  obtain ⟨p', hp', rfl⟩ := List.sublist_map_iff.mp hu
  exact ⟨p', hp'.subperm.trans hq.subperm, rfl⟩

variable {plus : Int → Int → Int}

theorem exists_carries_call {h : Heap ω w} {q : Members ω w} (hh : IsHeap q.wqItemContainer)
    (n : ℕ) {p : List (Record ω w × ℕ)} (hp : (p.map Prod.fst).Perm q.wqItemContainer)
    (c : Call ω w) :
    ∃ p', Carries n p (.call c (c.run h q).1) p' ∧
      (p'.map Prod.fst).Perm (c.run h q).2.wqItemContainer := by
  generalize hv : (c.run h q).2.wqItemContainer = v
  have hc := run_changes h hh c
  rw [hv] at hc
  generalize hreply : (c.run h q).1 = reply at hc
  cases hc with
  | removes hsub hperm =>
    obtain ⟨p', hp', rfl⟩ := exists_subperm_of_map hp hsub
    exact ⟨p', .drops hp', hperm.symm⟩
  | adds hperm =>
    refine ⟨_, .posts (.refl _), ?_⟩
    refine (List.Perm.cons _ hp).trans ?_
    exact (List.perm_append_singleton _ _).symm.trans hperm.symm
  | @replaces st per cl id wk old a b _ _ hsplit hperm =>
    have hmid : (p.map Prod.fst).Perm ((old, id) :: (a ++ b)) := by
      rw [hsplit] at hp
      exact hp.trans List.perm_middle
    obtain ⟨p₁, hp₁, he⟩ := exists_perm_of_map hmid
    obtain ⟨⟨_, k⟩, rest, rfl, rfl, hrest⟩ := List.map_eq_cons_iff.mp he
    refine ⟨((⟨st, cl, wk, per⟩, id), k) :: rest, .updates hp₁.symm (.refl _), ?_⟩
    rw [List.map_cons, hrest]
    exact List.perm_middle.symm.trans hperm.symm
  | stops =>
    rcases signalWorkerToStop_cases h q with ⟨-, e⟩ | ⟨-, e⟩
    · rw [Call.run, e] at hv
      exact ⟨p, .drops (List.Subperm.refl p), hv ▸ hp⟩
    · rw [Call.run, e] at hreply
      obtain rfl := hreply
      exact ⟨_, .stops, .refl _⟩

theorem exists_carries {s t : State ω w} {a : Label ω w} (hi : Inv s) (hs : Step plus s a t)
    (n : ℕ) {p : List (Record ω w × ℕ)} (hp : (p.map Prod.fst).Perm s.queue.wqItemContainer) :
    ∃ p', Carries n p a p' ∧ (p'.map Prod.fst).Perm t.queue.wqItemContainer := by
  cases hs with
  | call h c _ _ => exact exists_carries_call hi.valid.heap n hp c
  | exit _ _ _ => exact ⟨[], .drops List.nil_subperm, .refl _⟩
  | @execute h _ _ item _ outcome _ _ _ hne hpop _ =>
    obtain ⟨rest, u, hc, rfl, hperm, hheap⟩ := popRecord_eq_some hi.valid.heap hne hpop
    obtain ⟨-, hput⟩ := reschedule_container (q := { s.queue with wqItemContainer := u }) h item
      (executeWork plus item outcome) hheap
    rw [hc] at hp
    obtain ⟨p₁, hp₁, he⟩ := exists_perm_of_map hp
    obtain ⟨⟨front, k⟩, rest', rfl, rfl, rfl⟩ := List.map_eq_cons_iff.mp he
    split at hput
    · rw [List.append_nil] at hput
      refine ⟨rest', .drops ?_, hperm.symm.trans hput.symm⟩
      exact (List.sublist_cons_self _ _).subperm.trans hp₁.subperm
    · refine ⟨_, .again (executeWork plus front outcome) hp₁.symm (.refl _), ?_⟩
      refine (List.Perm.cons _ hperm.symm).trans ?_
      exact (List.perm_append_singleton _ _).symm.trans hput.symm
  | startWorker | tick | lock | waitForWork | restart | waitForTime | wake | changed | spurious
    | drained => exact ⟨p, .drops (List.Subperm.refl p), hp⟩

/-- A counter stays, or it goes on to the next id and issues it. -/
def Issues (next : BitVec w) (new : List (BitVec w)) (next' : BitVec w) : Prop :=
  (new = [] ∧ next' = next) ∨ (new = [next'] ∧ next' = nextId (BitVec.allOnes w) next)

theorem Issues.refl (next : BitVec w) : Issues next [] next := .inl ⟨rfl, rfl⟩

theorem Issues.next (next : BitVec w) :
    Issues next [nextId (BitVec.allOnes w) next] (nextId (BitVec.allOnes w) next) :=
  .inr ⟨rfl, rfl⟩

/-- **What a call does to the two counters.** -/
theorem run_issues (h : Heap ω w) (s t : State ω w) (c : Call ω w)
    (ht : t.queue = (c.run h s.queue).2) :
    Issues s.queue.nextWorkId ((Label.call c (c.run h s.queue).1).workIds t) t.queue.nextWorkId ∧
      Issues s.queue.nextClientId (Label.call c (c.run h s.queue).1).clientIds
        t.queue.nextClientId := by
  rw [ht]
  cases c with
  | scheduleWork now c wk st p =>
    rcases scheduleWork_cases h s.queue now c wk st p with ⟨-, e⟩ | ⟨-, -, e⟩ | ⟨-, hrun, e⟩
    · simp only [Call.run, e]
      exact ⟨.refl _, .refl _⟩
    · simp only [Call.run, e]
      exact ⟨.refl _, .refl _⟩
    · simp only [Call.run, e, postWork_running h _ _ hrun]
      exact ⟨.next _, .refl _⟩
  | updateWork id c wk st p =>
    rcases updateWork_cases h s.queue id c wk st p with
      ⟨-, e⟩ | ⟨-, -, e⟩ | ⟨-, -, -, e⟩ | ⟨-, -, a, old, b, -, e⟩
    all_goals
      simp only [Call.run, e]
      exact ⟨.refl _, .refl _⟩
  | cancelWork id =>
    rcases cancelWork_cases h s.queue id with ⟨-, e⟩ | ⟨-, -, e⟩ | ⟨-, a, old, b, v, -, -, e⟩
    all_goals
      simp only [Call.run, e]
      exact ⟨.refl _, .refl _⟩
  | cancelClientWorks c =>
    rcases cancelClientWorks_cases h s.queue c with ⟨-, e⟩ | ⟨-, -, e⟩ | ⟨-, -, e⟩
    all_goals
      simp only [Call.run, e]
      exact ⟨.refl _, .refl _⟩
  | isIdle | getNearestTimePoint => exact ⟨.refl _, .refl _⟩
  | getClientId => exact ⟨.refl _, .next _⟩
  | signalWorkerToStop =>
    rcases signalWorkerToStop_cases h s.queue with ⟨-, e⟩ | ⟨hrun, e⟩
    · simp only [Call.run, e]
      exact ⟨.refl _, .refl _⟩
    · rw [postWork_running h { s.queue with wqItemContainer := [] } _ hrun] at e
      -- the terminator is the only record, and has the new id
      have hone :
          h.pushHeap ([] ++ [(WqItem.empty, nextId (invalidWorkId w) s.queue.nextWorkId)]) =
          [(WqItem.empty, nextId (invalidWorkId w) s.queue.nextWorkId)] :=
        List.perm_singleton.mp (h.pushHeap_perm StdHeap.isHeap_nil)
      have hids : ids t.queue.wqItemContainer =
          [nextId (invalidWorkId w) s.queue.nextWorkId] := by
        rw [ht, Call.run, e]
        exact congrArg ids hone
      simp only [Call.run, e, Label.workIds, hids]
      exact ⟨.next _, .refl _⟩

theorem step_issues {s t : State ω w} {a : Label ω w} (hi : Inv s) (hs : Step plus s a t) :
    Issues s.queue.nextWorkId (a.workIds t) t.queue.nextWorkId ∧
      Issues s.queue.nextClientId a.clientIds t.queue.nextClientId := by
  cases hs with
  | call h c _ _ => exact run_issues h s _ c rfl
  | execute h outcome _ _ _ hne hpop _ =>
    obtain ⟨rest, u, hc, rfl, -⟩ := popRecord_eq_some hi.valid.heap hne hpop
    rw [reschedule_eq]
    exact ⟨.refl _, .refl _⟩
  | startWorker | tick | lock | waitForWork | restart | waitForTime | wake | changed | spurious
    | drained | exit => exact ⟨.refl _, .refl _⟩

/-- The ids issued so far are those of a counter, which is where it is. -/
structure Counted (issued : List (BitVec w)) (next : BitVec w) : Prop where
  ids : issued = (List.range issued.length).map (nthId w)
  next : next = counter w issued.length

theorem counted_initial : Counted ([] : List (BitVec w)) (BitVec.allOnes w) := ⟨rfl, rfl⟩

theorem Counted.issues {issued new : List (BitVec w)} {next next' : BitVec w}
    (h : Counted issued next) (hn : Issues next new next') : Counted (issued ++ new) next' := by
  rcases hn with ⟨rfl, rfl⟩ | ⟨rfl, hnext⟩
  · rwa [List.append_nil]
  · rw [h.next, nextId_counter] at hnext
    constructor
    · rw [List.length_append, List.length_singleton, List.range_succ, List.map_append, ← h.ids,
        hnext]
      rfl
    · rw [List.length_append]
      exact hnext

theorem Counted.issued {issued : List (BitVec w)} {next next' id : BitVec w}
    (h : Counted issued next) (hn : Issues next [id] next') : id = nthId w issued.length := by
  rcases hn with ⟨hnil, -⟩ | ⟨hone, hnext⟩
  · cases hnil
  · obtain rfl := List.singleton_inj.mp hone
    rw [hnext, h.next, nextId_counter]
    rfl

structure Tagged (n : ℕ) (p : List (Record ω w × ℕ)) : Prop where
  distinct : (p.map Prod.snd).Nodup
  issued : ∀ r ∈ p, r.2 < n ∧ r.1.2 = nthId w r.2

theorem Tagged.subperm {n m : ℕ} {p p' : List (Record ω w × ℕ)} (h : Tagged n p)
    (hp : p'.Subperm p) (hnm : n ≤ m) : Tagged m p' := by
  obtain ⟨u, hu, hsub⟩ := hp
  constructor
  · exact (hu.map Prod.snd).nodup_iff.mp ((hsub.map Prod.snd).nodup h.distinct)
  · intro r hr
    obtain ⟨hlt, hid⟩ := h.issued r (hsub.subset (hu.mem_iff.mpr hr))
    exact ⟨by omega, hid⟩

theorem Tagged.cons {n : ℕ} {p : List (Record ω w × ℕ)} (h : Tagged n p) {r : Record ω w}
    (hr : r.2 = nthId w n) : Tagged (n + 1) ((r, n) :: p) := by
  constructor
  · rw [List.map_cons, List.nodup_cons]
    refine ⟨?_, h.distinct⟩
    intro hm
    obtain ⟨r', hr', he⟩ := List.mem_map.mp hm
    have hlt := (h.issued r' hr').1
    rw [he] at hlt
    exact absurd hlt (Nat.lt_irrefl n)
  · intro r' hr'
    rcases List.mem_cons.mp hr' with rfl | hr'
    · exact ⟨Nat.lt_succ_self n, hr⟩
    · obtain ⟨hlt, hid⟩ := h.issued r' hr'
      exact ⟨by omega, hid⟩

theorem Tagged.replace {n k : ℕ} {p : List (Record ω w × ℕ)} {r r' : Record ω w}
    (h : Tagged n ((r, k) :: p)) (hr : r'.2 = r.2) : Tagged n ((r', k) :: p) := by
  refine ⟨h.distinct, ?_⟩
  intro x hx
  rcases List.mem_cons.mp hx with rfl | hx
  · obtain ⟨hlt, hid⟩ := h.issued _ List.mem_cons_self
    exact ⟨hlt, hr.trans hid⟩
  · exact h.issued x (List.mem_cons_of_mem _ hx)

/-- **What every history says of the queue.** -/
structure Numbered (q : Members ω w) (g : History ω w) : Prop where
  work : Counted g.workIds q.nextWorkId
  client : Counted g.clientIds q.nextClientId
  pending : (g.pending.map Prod.fst).Perm q.wqItemContainer
  tagged : Tagged g.workIds.length g.pending

theorem numbered_initial : Numbered (Members.initial : Members ω w) .none :=
  ⟨counted_initial, counted_initial, .refl _, List.nodup_nil, fun _ h => absurd h List.not_mem_nil⟩

theorem Numbered.step {s t : State ω w} {a : Label ω w} {g g' : History ω w} (hi : Inv s)
    (hg : Numbered s.queue g) (hs : Step plus s a t) (hf : Follows g a t g') :
    Numbered t.queue g' := by
  obtain ⟨hwork, hclient⟩ := step_issues hi hs
  have hlen : g.workIds.length ≤ g'.workIds.length := by
    rw [hf.workIds, List.length_append]
    exact Nat.le_add_right ..
  -- a post makes the number of ids one more, and its id is the last of them
  have hpost : ∀ id, a.workIds t = [id] →
      g'.workIds.length = g.workIds.length + 1 ∧ id = nthId w g.workIds.length := by
    intro id hid
    rw [hid] at hwork
    refine ⟨?_, hg.work.issued hwork⟩
    rw [hf.workIds, hid, List.length_append]
    rfl
  refine ⟨hf.workIds ▸ hg.work.issues hwork, hf.clientIds ▸ hg.client.issues hclient, hf.pending,
    ?_⟩
  have hcarries := hf.carries
  have hpending := hf.pending
  generalize g'.pending = p' at hcarries hpending
  cases hcarries with
  | drops hp => exact hg.tagged.subperm hp hlen
  | posts hp =>
    obtain ⟨hone, hid⟩ := hpost _ rfl
    rw [hone]
    exact (hg.tagged.cons hid).subperm hp.subperm le_rfl
  | updates hp hp' =>
    have hold := hg.tagged.subperm hp.symm.subperm hlen
    refine (hold.replace ?_).subperm hp'.subperm le_rfl
    rfl
  | @stops id =>
    obtain ⟨hone, hid⟩ := hpost id (congrArg ids (List.singleton_perm.mp hpending).symm)
    rw [hone]
    exact (hg.tagged.subperm List.nil_subperm le_rfl).cons hid
  | again _ hp hp' =>
    have hold := hg.tagged.subperm hp.symm.subperm hlen
    refine (hold.replace ?_).subperm hp'.subperm le_rfl
    rfl

theorem numbered_run {i s : State ω w × History ω w} {l : List (Label ω w)}
    (hi : (recorded ω w plus).init i) (hr : Run (recorded ω w plus) i l s) :
    Inv s.1 ∧ Numbered s.1.queue s.2 := by
  refine hr.invariant (P := fun s => Inv s.1 ∧ Numbered s.1.queue s.2) ?_ ?_
  · rintro s a t ⟨hi, hn⟩ ⟨hs, hf⟩
    exact ⟨hi.step hs, hn.step hi hs hf⟩
  · obtain ⟨hinit, hnone⟩ := hi
    refine ⟨inv_initial hinit, ?_⟩
    rw [hinit.1, hnone]
    exact numbered_initial

theorem exists_history {i s : State ω w} {l : List (Label ω w)} (hi : (system ω w plus).init i)
    (hr : Run (system ω w plus) i l s) : ∃ g, Run (recorded ω w plus) (i, .none) l (s, g) := by
  have hstep : ∀ s g a t, Inv s ∧ Numbered s.queue g → (system ω w plus).step s a t →
      ∃ g', Follows g a t g' ∧ Inv t ∧ Numbered t.queue g' := by
    rintro s g a t ⟨hi, hn⟩ hs
    obtain ⟨p', hc, hp⟩ := exists_carries hi hs g.workIds.length hn.pending
    have hf : Follows g a t ⟨g.workIds ++ a.workIds t, g.clientIds ++ a.clientIds, p'⟩ :=
      ⟨rfl, rfl, hc, hp⟩
    exact ⟨_, hf, hi.step hs, hn.step hi hs hf⟩
  have hnone : Inv i ∧ Numbered i.queue .none := ⟨inv_initial hi, hi.1 ▸ numbered_initial⟩
  obtain ⟨g, hg, -⟩ := hr.exists_record hstep .none hnone
  exact ⟨g, hg⟩

/-! ### Distinct ids -/

/-- Fewer than `2^w - 1` ids have been issued since the oldest pending record was posted. -/
def History.Recent (g : History ω w) : Prop :=
  ∀ r ∈ g.pending, g.workIds.length - (r.2 + 1) < 2 ^ w - 1

/-- **Pending records from the last round have distinct ids.** -/
theorem Numbered.nodup {q : Members ω w} {g : History ω w} (h : Numbered q g) (hrecent : g.Recent) :
    (ids q.wqItemContainer).Nodup := by
  have hids : (ids q.wqItemContainer).Perm ((g.pending.map Prod.snd).map (nthId w)) := by
    refine (ids_perm h.pending).symm.trans ?_
    rw [ids, List.map_map, List.map_map]
    refine List.Perm.of_eq (List.map_congr_left fun r hr => ?_)
    exact (h.tagged.issued r hr).2
  refine hids.nodup_iff.mpr (List.Nodup.map_on ?_ h.tagged.distinct)
  intro a ha b hb he
  obtain ⟨r, hr, rfl⟩ := List.mem_map.mp ha
  obtain ⟨r', hr', rfl⟩ := List.mem_map.mp hb
  have h1 := hrecent r hr
  have h2 := hrecent r' hr'
  have h3 := (h.tagged.issued r hr).1
  have h4 := (h.tagged.issued r' hr').1
  rcases Nat.le_total r.2 r'.2 with hle | hle
  · exact nthId_inj hle (by omega) he
  · exact (nthId_inj hle (by omega) he.symm).symm

/-- `v'` has `new` for the records of `v` with the id, and is else the same. -/
def Touches (id : BitVec w) (v v' new : List (Record ω w)) : Prop :=
  recordsOf id v' = new ∧ (othersOf id v').Perm (othersOf id v)

/-- The calls that name a record change that one, and it is one. -/
structure OnlyNamed (q : Members ω w) : Prop where
  one : ∀ id ∈ ids q.wqItemContainer, ∃ r, recordsOf id q.wqItemContainer = [r]
  cancelled : ∀ h id, (cancelWork h id q).1 = .success →
    Touches id q.wqItemContainer (cancelWork h id q).2.wqItemContainer []
  updated : ∀ h id c wk st p, (updateWork h id c wk st p q).1 = .success →
    Touches id q.wqItemContainer (updateWork h id c wk st p q).2.wqItemContainer
      [(⟨st, c, wk, p⟩, id)]
  failed : ∀ h id, (cancelWork h id q).1 ≠ .success → (cancelWork h id q).2 = q
  refused : ∀ h id c wk st p, (updateWork h id c wk st p q).1 ≠ .success →
    (updateWork h id c wk st p q).2 = q

theorem othersOf_perm {id : BitVec w} {u v : List (Record ω w)} (h : u.Perm v) :
    (othersOf id u).Perm (othersOf id v) := h.filter _

/-- Where the ids are distinct, a record has none of its id before or after it. -/
theorem recordsOf_of_split {id : BitVec w} {old : WqItem ω w} {a b : List (Record ω w)}
    (h : (ids (a ++ (old, id) :: b)).Nodup) : recordsOf id (a ++ b) = [] := by
  rw [ids_append, ids_cons, List.nodup_middle, List.nodup_cons, ← ids_append] at h
  exact recordsOf_eq_nil.mpr h.1

theorem recordsOf_replaced {id : BitVec w} {old : WqItem ω w} {a b : List (Record ω w)}
    (h : (ids (a ++ (old, id) :: b)).Nodup) (new : WqItem ω w) :
    recordsOf id (a ++ (new, id) :: b) = [(new, id)] := by
  have hnone := recordsOf_of_split h
  rw [recordsOf_append, List.append_eq_nil_iff] at hnone
  rw [← List.singleton_append, recordsOf_append, recordsOf_append, recordsOf_single, hnone.1,
    hnone.2]
  rfl

theorem othersOf_of_split (id : BitVec w) (item : WqItem ω w) (a b : List (Record ω w)) :
    othersOf id (a ++ (item, id) :: b) = othersOf id (a ++ b) := by
  rw [← List.singleton_append, othersOf_append, othersOf_append, othersOf_append, othersOf_single]
  rfl

theorem onlyNamed_of_nodup {q : Members ω w} (hn : (ids q.wqItemContainer).Nodup) :
    OnlyNamed q := by
  constructor
  · intro id hid
    obtain ⟨item, hm⟩ := mem_ids.mp hid
    obtain ⟨a, b, hv⟩ := List.append_of_mem hm
    rw [hv] at hn ⊢
    exact ⟨_, recordsOf_replaced hn item⟩
  · intro h id hsucc
    rcases cancelWork_cases h q id with ⟨-, e⟩ | ⟨-, -, e⟩ | ⟨-, a, old, b, v, hv, hp, e⟩
    · rw [e] at hsucc; cases hsucc
    · rw [e] at hsucc; cases hsucc
    · have hall := (h.makeHeap_perm v).trans hp
      rw [hv] at hn ⊢
      rw [e]
      constructor
      · exact List.perm_nil.mp (recordsOf_of_split hn ▸ recordsOf_perm hall)
      · rw [othersOf_of_split]
        exact othersOf_perm hall
  · intro h id c wk st p hsucc
    rcases updateWork_cases h q id c wk st p with
      ⟨-, e⟩ | ⟨-, -, e⟩ | ⟨-, -, -, e⟩ | ⟨-, -, a, old, b, hv, e⟩
    · rw [e] at hsucc; cases hsucc
    · rw [e] at hsucc; cases hsucc
    · rw [e] at hsucc; cases hsucc
    · have hall := h.makeHeap_perm (a ++ (⟨st, c, wk, p⟩, id) :: b)
      rw [hv] at hn ⊢
      rw [e]
      constructor
      · exact List.perm_singleton.mp (recordsOf_replaced hn _ ▸ recordsOf_perm hall)
      · refine (othersOf_perm hall).trans ?_
        rw [othersOf_of_split, othersOf_of_split]
  · intro h id hfail
    rcases cancelWork_cases h q id with ⟨-, e⟩ | ⟨-, -, e⟩ | ⟨-, a, old, b, v, -, -, e⟩
    · rw [e]
    · rw [e]
    · rw [e] at hfail; exact absurd rfl hfail
  · intro h id c wk st p hfail
    rcases updateWork_cases h q id c wk st p with
      ⟨-, e⟩ | ⟨-, -, e⟩ | ⟨-, -, -, e⟩ | ⟨-, -, a, old, b, -, e⟩
    · rw [e]
    · rw [e]
    · rw [e]
    · rw [e] at hfail; exact absurd rfl hfail

/-- **Ids repeat only after the whole id space.**  Every run has a history; in any history of
it `2^w - 1` ids in a row are distinct and valid, and while the pending records are from the
last round their ids are distinct, so that `cancel_work` and `update_work` touch the record
they name.  A step that issues no id leaves the counter alone. -/
theorem ids_repeat_late (ω : Type) (w : ℕ) (plus : Int → Int → Int) :
    (∀ i l s, (system ω w plus).init i → Run (system ω w plus) i l s →
      ∃ g, Run (recorded ω w plus) (i, .none) l (s, g)) ∧
    (∀ i l s g, (system ω w plus).init i → Run (recorded ω w plus) (i, .none) l (s, g) →
      RepeatsLate g.workIds ∧ RepeatsLate g.clientIds ∧
        (g.Recent → (ids s.queue.wqItemContainer).Nodup ∧ OnlyNamed s.queue)) ∧
    ∀ s a t, Reachable (system ω w plus) s → Step plus s a t →
      (a.workIds t = [] → t.queue.nextWorkId = s.queue.nextWorkId) ∧
        (a.clientIds = [] → t.queue.nextClientId = s.queue.nextClientId) := by
  refine ⟨fun i l s => exists_history, ?_, ?_⟩
  · intro i l s g hi hr
    obtain ⟨-, hn⟩ := numbered_run ⟨hi, rfl⟩ hr
    refine ⟨?_, ?_, ?_⟩
    · rw [hn.work.ids]
      exact repeatsLate_range _
    · rw [hn.client.ids]
      exact repeatsLate_range _
    · intro hrecent
      have hnodup := hn.nodup hrecent
      exact ⟨hnodup, onlyNamed_of_nodup hnodup⟩
  · intro s a t hr hs
    obtain ⟨hwork, hclient⟩ := step_issues (inv_of_reachable hr) hs
    constructor
    · intro hnil
      rcases hwork with ⟨-, h⟩ | ⟨h, -⟩
      · exact h
      · rw [hnil] at h
        cases h
    · intro hnil
      rcases hclient with ⟨-, h⟩ | ⟨h, -⟩
      · exact h
      · rw [hnil] at h
        cases h

/-- Two works are posted, the queue is stopped, and after a restart another one is posted; the
terminator has had an id too. -/
theorem ids_repeat_late_restarted : ∃ s g,
    Run (recorded Unit 64 Ticks.wrap) (⟨.initial, .notStarted, 9⟩, .none)
      [.startWorker, .call (.scheduleWork 9 0 (some ()) 5 5) (.posted .success 0),
        .call (.scheduleWork 9 0 (some ()) 7 0) (.posted .success 1),
        .call .getClientId (.clientId 0), .call .signalWorkerToStop (.stopped true), .lock, .exit,
        .startWorker, .call (.scheduleWork 9 0 (some ()) 5 5) (.posted .success 3)] (s, g) ∧
      RepeatsLate g.workIds ∧ RepeatsLate g.clientIds ∧ (g.Recent → OnlyNamed s.queue) := by
  have hrun : Run (system Unit 64 Ticks.wrap) ⟨.initial, .notStarted, 9⟩
      [.startWorker, .call (.scheduleWork 9 0 (some ()) 5 5) (.posted .success 0),
        .call (.scheduleWork 9 0 (some ()) 7 0) (.posted .success 1),
        .call .getClientId (.clientId 0), .call .signalWorkerToStop (.stopped true), .lock, .exit,
        .startWorker, .call (.scheduleWork 9 0 (some ()) 5 5) (.posted .success 3)] _ :=
    .cons (.startWorker (.inl rfl) rfl)
      (.cons (.call (siftHeap Unit 64) _ (by simp) (Int.le_refl 9))
      (.cons (.call (siftHeap Unit 64) _ (by simp) (Int.le_refl 9))
      (.cons (.call (siftHeap Unit 64) .getClientId (by simp) trivial)
      (.cons (.call (siftHeap Unit 64) .signalWorkerToStop (by simp) trivial)
      (.cons (.lock rfl)
      (.cons (.exit rfl rfl rfl)
      (.cons (.startWorker (.inr rfl) rfl)
      (.single (.call (siftHeap Unit 64) _ (by simp) (Int.le_refl 9))))))))))
  obtain ⟨hex, hall, -⟩ := ids_repeat_late Unit 64 Ticks.wrap
  obtain ⟨g, hg⟩ := hex _ _ _ ⟨rfl, rfl⟩ hrun
  obtain ⟨hwork, hclient, hrecent⟩ := hall _ _ _ g ⟨rfl, rfl⟩ hg
  exact ⟨_, g, hg, hwork, hclient, fun h => (hrecent h).2⟩

end Mqmx.WorkQueue
