import Mathlib.Algebra.BigOperators.Group.Finset.Basic
import Mathlib.Algebra.Order.BigOperators.Group.Finset
import Mathlib.Data.Fintype.Basic
import Mathlib.Order.WellFounded
import Mqmx.Base.Transition

/-!
# Locks with ranks, and condition variables

Threads that take and give back locks, each in an order of its own.  With each lock `k` there are a
predicate, which once true stays true, and a condition variable: `signal k` makes the predicate true
and wakes up one of those that sleep, and `wait k` sleeps while the predicate is false, without the
lock.  A timed wait ends when its time is over.

`Climbs rank` is the discipline: a thread takes only locks of a higher rank than those it has, waits
with one lock only, and ends with none.  Several locks that are taken at once need not be ordered
among themselves.

`ends_at_rest`: threads that climb never wait for each other's locks in a circle.  However they
are scheduled, each comes to its end or sleeps in a wait without a time limit.
-/

namespace Locks

open Transition (System Run)

universe u v w

variable {ι : Type u} {κ : Type v} {α : Type w}

inductive Action (κ : Type v)
  | acquire (ks : List κ)
  | release (k : κ)
  | signal (k : κ)
  | wait (k : κ) (timed : Bool)

/-- How far a thread is with a wait: `woken` it tests the predicate once more when it has the lock
again, and `late` it does not. -/
inductive Mode
  | running
  | asleep
  | woken
  | late
  deriving DecidableEq

/-- Who has each lock, which predicates are true, and what each thread still does. -/
structure State (ι : Type u) (κ : Type v) where
  owner : κ → Option ι
  ready : κ → Bool
  rest : ι → List (Action κ)
  mode : ι → Mode

def State.held (s : State ι κ) (i : ι) : Set κ := { k | s.owner k = some i }

def State.Sleeps (s : State ι κ) (i : ι) (k : κ) (timed : Bool) : Prop :=
  s.mode i = .asleep ∧ ∃ p, s.rest i = .wait k timed :: p

def State.Ended (s : State ι κ) (i : ι) : Prop := s.mode i = .running ∧ s.rest i = []

inductive Label (ι : Type u)
  | own (i : ι)
  /-- It wakes up for no reason. -/
  | stir (i : ι)

def Label.thread : Label ι → ι
  | .own i => i
  | .stir i => i

def Label.isStir : Label ι → Bool
  | .own _ => false
  | .stir _ => true

variable [DecidableEq ι] [DecidableEq κ]

def State.take (s : State ι κ) (i : ι) (ks : List κ) : State ι κ :=
  { s with owner := fun k => if k ∈ ks then some i else s.owner k }

def State.give (s : State ι κ) (k : κ) : State ι κ :=
  { s with owner := Function.update s.owner k none }

def State.tell (s : State ι κ) (k : κ) (mode : ι → Mode) : State ι κ :=
  { s with ready := Function.update s.ready k true, mode := mode }

def State.go (s : State ι κ) (i : ι) (p : List (Action κ)) (md : Mode) : State ι κ :=
  { s with rest := Function.update s.rest i p, mode := Function.update s.mode i md }

/-- One of those that sleep at `k` wakes up, where there is one. -/
inductive WakesOne (s : State ι κ) (k : κ) : (ι → Mode) → Prop
  | one {j : ι} {timed : Bool} : s.Sleeps j k timed →
      WakesOne s k (Function.update s.mode j .woken)
  | nobody : (∀ j timed, ¬ s.Sleeps j k timed) → WakesOne s k s.mode

inductive Step (s : State ι κ) : Label ι → State ι κ → Prop
  | acquire {i : ι} {ks : List κ} {p : List (Action κ)} : s.mode i = .running →
      s.rest i = .acquire ks :: p → (∀ k ∈ ks, s.owner k = none) →
      Step s (.own i) ((s.take i ks).go i p .running)
  | release {i : ι} {k : κ} {p : List (Action κ)} : s.mode i = .running →
      s.rest i = .release k :: p → Step s (.own i) ((s.give k).go i p .running)
  | signal {i : ι} {k : κ} {p : List (Action κ)} {mode : ι → Mode} : s.mode i = .running →
      s.rest i = .signal k :: p → WakesOne s k mode →
      Step s (.own i) ((s.tell k mode).go i p .running)
  | pass {i : ι} {k : κ} {timed : Bool} {p : List (Action κ)} : s.mode i = .running →
      s.rest i = .wait k timed :: p → s.ready k = true → Step s (.own i) (s.go i p .running)
  | sleep {i : ι} {k : κ} {timed : Bool} {p : List (Action κ)} : s.mode i = .running →
      s.rest i = .wait k timed :: p → s.ready k = false →
      Step s (.own i) ((s.give k).go i (.wait k timed :: p) .asleep)
  /-- Its time is over. -/
  | timeUp {i : ι} {k : κ} {p : List (Action κ)} : s.mode i = .asleep →
      s.rest i = .wait k true :: p → Step s (.own i) (s.go i (.wait k true :: p) .late)
  | retake {i : ι} {k : κ} {timed : Bool} {p : List (Action κ)} : s.mode i = .woken →
      s.rest i = .wait k timed :: p → s.owner k = none →
      Step s (.own i) ((s.take i [k]).go i (.wait k timed :: p) .running)
  | goOn {i : ι} {k : κ} {timed : Bool} {p : List (Action κ)} : s.mode i = .late →
      s.rest i = .wait k timed :: p → s.owner k = none →
      Step s (.own i) ((s.take i [k]).go i p .running)
  | stir {i : ι} : s.mode i = .asleep → Step s (.stir i) (s.go i (s.rest i) .woken)

def start (ready : κ → Bool) (p : ι → List (Action κ)) : State ι κ :=
  ⟨fun _ => none, ready, p, fun _ => .running⟩

def system (p : ι → List (Action κ)) : System (State ι κ) (Label ι) where
  init s := ∃ ready, s = start ready p
  step := Step

/-! ### What a step does -/

section Held

variable {s t : State ι κ} {i j : ι} {ks : List κ} {k : κ} {p : List (Action κ)} {md : Mode}

omit [DecidableEq κ] in
@[simp] theorem held_go : (s.go i p md).held j = s.held j := rfl

omit [DecidableEq ι] in
@[simp] theorem held_tell {mode : ι → Mode} : (s.tell k mode).held j = s.held j := rfl

omit [DecidableEq κ] in
@[simp] theorem rest_go_self : (s.go i p md).rest i = p := Function.update_self ..

omit [DecidableEq κ] in
@[simp] theorem mode_go_self : (s.go i p md).mode i = md := Function.update_self ..

omit [DecidableEq κ] in
theorem rest_go_of_ne (hij : j ≠ i) : (s.go i p md).rest j = s.rest j :=
  Function.update_of_ne hij ..

omit [DecidableEq κ] in
theorem mode_go_of_ne (hij : j ≠ i) : (s.go i p md).mode j = s.mode j :=
  Function.update_of_ne hij ..

omit [DecidableEq ι] in
theorem held_take_self : (s.take i ks).held i = s.held i ∪ { k | k ∈ ks } := by
  ext k
  by_cases hk : k ∈ ks
  · simp [State.held, State.take, hk]
  · simp [State.held, State.take, hk]

omit [DecidableEq ι] in
theorem held_take_of_ne (hij : j ≠ i) (hfree : ∀ k ∈ ks, s.owner k = none) :
    (s.take i ks).held j = s.held j := by
  ext k
  by_cases hk : k ∈ ks
  · simp [State.held, State.take, hk, hfree k hk, Ne.symm hij]
  · simp [State.held, State.take, hk]

omit [DecidableEq ι] in
theorem held_give_self : (s.give k).held i = s.held i \ {k} := by
  ext k'
  by_cases hk : k' = k
  · simp [State.held, State.give, hk]
  · simp [State.held, State.give, hk]

omit [DecidableEq ι] in
theorem held_give_of_ne (hij : j ≠ i) (hk : s.owner k = some i) :
    (s.give k).held j = s.held j := by
  ext k'
  by_cases hk' : k' = k
  · simp [State.held, State.give, hk', hk, Ne.symm hij]
  · simp [State.held, State.give, hk']

omit [DecidableEq κ] in
theorem WakesOne.mode {mode : ι → Mode} (h : WakesOne s k mode) (j : ι) :
    mode j = s.mode j ∨ (s.mode j = .asleep ∧ mode j = .woken) := by
  cases h with
  | nobody => exact .inl rfl
  | @one i _ hi =>
    by_cases hij : j = i
    · subst hij
      exact .inr ⟨hi.1, Function.update_self ..⟩
    · exact .inl (Function.update_of_ne hij ..)

omit [DecidableEq κ] in
theorem exists_wakesOne (s : State ι κ) (k : κ) : ∃ mode, WakesOne s k mode := by
  by_cases h : ∃ j timed, s.Sleeps j k timed
  · obtain ⟨j, timed, hj⟩ := h
    exact ⟨_, .one hj⟩
  · exact ⟨_, .nobody fun j timed hj => h ⟨j, timed, hj⟩⟩

theorem Step.rest_subset {a : Label ι} (hs : Step s a t) (j : ι) : t.rest j ⊆ s.rest j := by
  have key : ∀ {u : State ι κ} {i : ι} {p : List (Action κ)} {md : Mode}, u.rest = s.rest →
      p ⊆ s.rest i → (u.go i p md).rest j ⊆ s.rest j := by
    intro u i p md hu hp
    by_cases hij : j = i
    · subst hij
      rw [rest_go_self]
      exact hp
    · rw [rest_go_of_ne hij, hu]
      exact List.Subset.refl _
  cases hs with
  | acquire _ h | release _ h | signal _ h | pass _ h | goOn _ h =>
    exact key rfl (h ▸ List.subset_cons_self ..)
  | sleep _ h | timeUp _ h | retake _ h => exact key rfl (h ▸ List.Subset.refl _)
  | stir => exact key rfl (List.Subset.refl _)

theorem exists_step {x : Action κ} (hm : s.mode i = .running) (hrest : s.rest i = x :: p)
    (hfree : ∀ ks, x = .acquire ks → ∀ k ∈ ks, s.owner k = none) : ∃ t, Step s (.own i) t := by
  cases x with
  | acquire ks => exact ⟨_, .acquire hm hrest (hfree ks rfl)⟩
  | release k => exact ⟨_, .release hm hrest⟩
  | signal k =>
    obtain ⟨mode, hwake⟩ := exists_wakesOne s k
    exact ⟨_, .signal hm hrest hwake⟩
  | wait k timed =>
    cases hready : s.ready k with
    | false => exact ⟨_, .sleep hm hrest hready⟩
    | true => exact ⟨_, .pass hm hrest hready⟩

theorem State.Ended.no_step (h : s.Ended i) : ¬ Step s (.own i) t := by
  obtain ⟨hm, hrest⟩ := h
  intro hs
  cases hs with
  | acquire _ h | release _ h | signal _ h | pass _ h | sleep _ h =>
    rw [hrest] at h
    cases h
  | timeUp h | retake h | goOn h =>
    rw [hm] at h
    cases h

theorem State.Sleeps.no_step (h : s.Sleeps i k false) : ¬ Step s (.own i) t := by
  obtain ⟨hm, q, hrest⟩ := h
  intro hs
  cases hs with
  | acquire h | release h | signal h | pass h | sleep h | retake h | goOn h =>
    rw [hm] at h
    cases h
  | timeUp _ h =>
    rw [hrest] at h
    cases h

end Held

/-! ### How long it takes -/

section Weight

/-- The most steps a thread makes for it; a signal may make another thread take its lock and test
again. -/
def Action.weight : Action κ → ℕ
  | .acquire _ | .release _ => 1
  | .signal _ | .wait _ _ => 3

def Mode.weight : Mode → ℕ
  | .woken => 3
  | .running => 2
  | .asleep => 1
  | .late => 0

def weight : List (Action κ) → ℕ
  | [] => 0
  | x :: p => x.weight + weight p

def stirs (ls : List (Label ι)) : ℕ := ls.countP Label.isStir

variable [Fintype ι]

def State.weight (s : State ι κ) : ℕ := ∑ i, (Locks.weight (s.rest i) + (s.mode i).weight)

variable {s t : State ι κ} {i : ι}

omit [DecidableEq ι] [DecidableEq κ] in
@[simp] theorem weight_cons (x : Action κ) (p : List (Action κ)) :
    weight (x :: p) = x.weight + weight p := rfl

omit [DecidableEq κ] in
theorem weight_go (s : State ι κ) (i : ι) (p : List (Action κ)) (md : Mode) :
    (s.go i p md).weight + (weight (s.rest i) + (s.mode i).weight) =
      s.weight + (weight p + md.weight) := by
  have hothers : ∑ j ∈ Finset.univ.erase i,
      (weight ((s.go i p md).rest j) + ((s.go i p md).mode j).weight) =
      ∑ j ∈ Finset.univ.erase i, (weight (s.rest j) + (s.mode j).weight) := by
    refine Finset.sum_congr rfl fun j hj => ?_
    have hij := Finset.ne_of_mem_erase hj
    rw [rest_go_of_ne hij, mode_go_of_ne hij]
  have hgo := Finset.sum_erase_add Finset.univ
    (fun j => weight ((s.go i p md).rest j) + ((s.go i p md).mode j).weight) (Finset.mem_univ i)
  have hs := Finset.sum_erase_add Finset.univ
    (fun j => weight (s.rest j) + (s.mode j).weight) (Finset.mem_univ i)
  simp only [rest_go_self, mode_go_self, hothers] at hgo
  simp only [State.weight]
  omega

/-- Who wakes up weighs two more. -/
theorem weight_tell_le {k : κ} {mode : ι → Mode} (h : WakesOne s k mode) :
    (s.tell k mode).weight ≤ s.weight + 2 := by
  cases h with
  | nobody => exact Nat.le_add_right ..
  | @one j timed hj =>
    have hgo : (s.tell k (Function.update s.mode j .woken)).weight =
        (s.go j (s.rest j) .woken).weight := by
      simp [State.weight, State.tell, State.go]
    have hw := weight_go s j (s.rest j) .woken
    rw [hj.1] at hw
    simp only [Mode.weight] at hw
    omega

/-- **Each step of a thread's own lowers the weight**, and a spurious wake-up adds two. -/
theorem Step.weight {a : Label ι} (hs : Step s a t) :
    t.weight + 1 ≤ s.weight + if a.isStir then 3 else 0 := by
  -- the other parts of the state do not count
  have key : ∀ {u : State ι κ} {i : ι} (p : List (Action κ)) (md : Mode), u.rest = s.rest →
      u.mode = s.mode → (u.go i p md).weight + (Locks.weight (s.rest i) + (s.mode i).weight) =
        s.weight + (Locks.weight p + md.weight) := by
    intro u i p md hr hm
    have hw := weight_go u i p md
    rw [hr, hm] at hw
    have hu : u.weight = s.weight := by simp only [State.weight, hr, hm]
    rw [hu] at hw
    exact hw
  cases hs with
  | @acquire i ks p hm h _ =>
    have hw := key (u := s.take i ks) (i := i) p .running rfl rfl
    simp only [hm, h, weight_cons, Action.weight, Mode.weight] at hw
    simp only [Label.isStir]
    omega
  | @release i k p hm h =>
    have hw := key (u := s.give k) (i := i) p .running rfl rfl
    simp only [hm, h, weight_cons, Action.weight, Mode.weight] at hw
    simp only [Label.isStir]
    omega
  | @signal i k p mode hm h hwake =>
    have hw := weight_go (s.tell k mode) i p .running
    have hle := weight_tell_le hwake
    have hrun : mode i = .running := by
      rcases hwake.mode i with e | ⟨hsleep, -⟩
      · exact e.trans hm
      · rw [hm] at hsleep
        cases hsleep
    have hmode : (s.tell k mode).mode i = .running := hrun
    have hrest : (s.tell k mode).rest i = .signal k :: p := h
    simp only [hmode, hrest, weight_cons, Action.weight] at hw
    simp only [Label.isStir]
    omega
  | @pass i k timed p hm h _ =>
    have hw := key (u := s) (i := i) p .running rfl rfl
    simp only [hm, h, weight_cons, Action.weight, Mode.weight] at hw
    simp only [Label.isStir]
    omega
  | @sleep i k timed p hm h _ =>
    have hw := key (u := s.give k) (i := i) (.wait k timed :: p) .asleep rfl rfl
    simp only [hm, h, Mode.weight] at hw
    simp only [Label.isStir]
    omega
  | @timeUp i k p hm h =>
    have hw := key (u := s) (i := i) (.wait k true :: p) .late rfl rfl
    simp only [hm, h, Mode.weight] at hw
    simp only [Label.isStir]
    omega
  | @retake i k timed p hm h _ =>
    have hw := key (u := s.take i [k]) (i := i) (.wait k timed :: p) .running rfl rfl
    simp only [hm, h, Mode.weight] at hw
    simp only [Label.isStir]
    omega
  | @goOn i k timed p hm h _ =>
    have hw := key (u := s.take i [k]) (i := i) p .running rfl rfl
    simp only [hm, h, weight_cons, Action.weight, Mode.weight] at hw
    simp only [Label.isStir]
    omega
  | @stir i hm =>
    have hw := key (u := s) (i := i) (s.rest i) .woken rfl rfl
    simp only [hm, Mode.weight] at hw
    simp only [Label.isStir, if_true]
    omega

/-- **The spurious wake-ups apart, the length of a run is bounded.** -/
theorem length_le {p : ι → List (Action κ)} {ls : List (Label ι)}
    (hr : Run (system p) s ls t) : ls.length + t.weight ≤ s.weight + 3 * stirs ls := by
  induction hr with
  | nil => exact Nat.le_of_eq (by simp [stirs])
  | @cons s u t a ls hs _ ih =>
    have hw := Step.weight hs
    simp only [stirs, List.countP_cons, List.length_cons] at ih ⊢
    cases a with
    | own i =>
      simp only [Label.isStir, Bool.false_eq_true, if_false] at hw ⊢
      omega
    | stir i =>
      simp only [Label.isStir, if_true] at hw ⊢
      omega

end Weight

/-! ### The discipline -/

section Climbs

variable [Preorder α] (rank : κ → α)

/-- With the locks `H` the thread takes only higher ones, and has the locks `H'` at the end. -/
def Climbs (H : Set κ) (p : List (Action κ)) (H' : Set κ) : Prop :=
  match p with
  | [] => H = H'
  | .acquire ks :: p => (∀ h ∈ H, ∀ k ∈ ks, rank h < rank k) ∧ Climbs (H ∪ { k | k ∈ ks }) p H'
  | .release k :: p => k ∈ H ∧ Climbs (H \ {k}) p H'
  | .signal _ :: p => Climbs H p H'
  | .wait k _ :: p => H = {k} ∧ Climbs H p H'

/-- A thread that is in a wait has given its lock back. -/
def Keeps (H : Set κ) (p : List (Action κ)) : Mode → Prop
  | .running => Climbs rank H p ∅
  | _ => H = ∅ ∧ ∃ k timed q, p = .wait k timed :: q ∧ Climbs rank {k} p ∅

variable {rank} {s t : State ι κ} {i : ι} {H H' H'' : Set κ} {p q : List (Action κ)} {ks : List κ}
  {a : Label ι}

omit [DecidableEq ι] [DecidableEq κ] in
theorem Climbs.append (hp : Climbs rank H p H') (hq : Climbs rank H' q H'') :
    Climbs rank H (p ++ q) H'' := by
  induction p generalizing H with
  | nil =>
    obtain rfl : H = H' := hp
    exact hq
  | cons x p ih =>
    cases x with
    | acquire ks => exact ⟨hp.1, ih hp.2⟩
    | release k => exact ⟨hp.1, ih hp.2⟩
    | signal k => exact ih hp
    | wait k timed => exact ⟨hp.1, ih hp.2⟩

/-- A critical section: the locks, and what is done with them. -/
def locked (ks : List κ) (p : List (Action κ)) : List (Action κ) :=
  .acquire ks :: p ++ ks.reverse.map .release

omit [DecidableEq ι] [DecidableEq κ] in
theorem climbs_releases (hn : ks.Nodup) (hd : ∀ k ∈ ks, k ∉ H) :
    Climbs rank (H ∪ { k | k ∈ ks }) (ks.map .release) H := by
  induction ks with
  | nil =>
    show H ∪ { k | k ∈ [] } = H
    simp
  | cons k ks ih =>
    obtain ⟨hk, hn⟩ := List.nodup_cons.mp hn
    refine ⟨by simp, ?_⟩
    have hrest : (H ∪ { k' | k' ∈ k :: ks }) \ {k} = H ∪ { k' | k' ∈ ks } := by
      ext k'
      have := hd k List.mem_cons_self
      by_cases e : k' = k
      · subst e
        simp [this, hk]
      · simp [e]
    rw [hrest]
    exact ih hn fun k' hk' => hd k' (List.mem_cons_of_mem k hk')

omit [DecidableEq ι] [DecidableEq κ] in
/-- **A critical section climbs** where its locks are above all that are held. -/
theorem Climbs.locked (hn : ks.Nodup) (hup : ∀ h ∈ H, ∀ k ∈ ks, rank h < rank k)
    (hp : Climbs rank (H ∪ { k | k ∈ ks }) p (H ∪ { k | k ∈ ks })) :
    Climbs rank H (Locks.locked ks p) H := by
  refine ⟨hup, hp.append ?_⟩
  have hrev : { k | k ∈ ks } = { k | k ∈ ks.reverse } := by simp
  rw [hrev]
  refine climbs_releases (List.nodup_reverse.mpr hn) fun k hk hmem => ?_
  exact lt_irrefl _ (hup k hmem k (List.mem_reverse.mp hk))

/-- What holds of the threads `p` all along: each climbs, and who is asleep where the predicate is
true is not the only one that waits there. -/
structure Inv (rank : κ → α) (p : ι → List (Action κ)) (s : State ι κ) : Prop where
  keeps : ∀ i, Keeps rank (s.held i) (s.rest i) (s.mode i)
  subset : ∀ i, s.rest i ⊆ p i
  told : ∀ {i k timed}, s.Sleeps i k timed → s.ready k = true →
    ∃ j ≠ i, ∃ timed', .wait k timed' ∈ p j

omit [DecidableEq ι] [DecidableEq κ] in
theorem Inv.start {p : ι → List (Action κ)} {ready : κ → Bool}
    (hp : ∀ i, Climbs rank ∅ (p i) ∅) : Inv rank p (start ready p) where
  keeps i := by
    have hheld : (Locks.start ready p).held i = ∅ := by
      ext k
      simp [State.held, Locks.start]
    rw [hheld]
    exact hp i
  subset i := List.Subset.refl _
  told h _ := by
    have hm : Mode.running = .asleep := h.1
    cases hm

omit [DecidableEq ι] [DecidableEq κ] in
theorem Keeps.wakes {md md' : Mode} (h : Keeps rank H p md)
    (hmd : md' = md ∨ (md = .asleep ∧ md' = .woken)) : Keeps rank H p md' := by
  rcases hmd with rfl | ⟨rfl, rfl⟩
  · exact h
  · exact h

/-- A thread that does not move keeps its locks; at most it is woken. -/
theorem Inv.step_other {p : ι → List (Action κ)} (h : Inv rank p s) (hs : Step s a t) {j : ι}
    (hj : j ≠ a.thread) : t.held j = s.held j ∧ t.rest j = s.rest j ∧
      (t.mode j = s.mode j ∨ (s.mode j = .asleep ∧ t.mode j = .woken)) := by
  have key : ∀ {u : State ι κ} {i : ι} {q : List (Action κ)} {md : Mode}, j ≠ i →
      u.held j = s.held j → u.rest = s.rest →
      (u.mode j = s.mode j ∨ (s.mode j = .asleep ∧ u.mode j = .woken)) →
      (u.go i q md).held j = s.held j ∧ (u.go i q md).rest j = s.rest j ∧
        ((u.go i q md).mode j = s.mode j ∨
          (s.mode j = .asleep ∧ (u.go i q md).mode j = .woken)) := by
    intro u i q md hij hheld hrest hmode
    rw [held_go, rest_go_of_ne hij, mode_go_of_ne hij, hrest]
    exact ⟨hheld, rfl, hmode⟩
  cases hs with
  | acquire _ _ hfree => exact key hj (held_take_of_ne hj hfree) rfl (.inl rfl)
  | @release i k q hm hrest =>
    have hc := h.keeps i
    rw [hm, hrest] at hc
    exact key hj (held_give_of_ne hj hc.1) rfl (.inl rfl)
  | signal _ _ hwake => exact key hj held_tell rfl (hwake.mode j)
  | @sleep i k timed q hm hrest _ =>
    have hc := h.keeps i
    rw [hm, hrest] at hc
    have hk : k ∈ s.held i := by
      rw [hc.1]
      rfl
    exact key hj (held_give_of_ne hj hk) rfl (.inl rfl)
  | pass | timeUp | stir => exact key hj rfl rfl (.inl rfl)
  | retake _ _ hfree | goOn _ _ hfree =>
    exact key hj (held_take_of_ne hj (by simpa using hfree)) rfl (.inl rfl)

/-- The thread that moves keeps to the discipline. -/
theorem Inv.step_self {p : ι → List (Action κ)} (h : Inv rank p s) (hs : Step s a t) :
    Keeps rank (t.held a.thread) (t.rest a.thread) (t.mode a.thread) := by
  have key : ∀ {u : State ι κ} {i : ι} {q : List (Action κ)} {md : Mode},
      Keeps rank (u.held i) q md →
      Keeps rank ((u.go i q md).held i) ((u.go i q md).rest i) ((u.go i q md).mode i) := by
    intro u i q md hk
    rw [held_go, rest_go_self, mode_go_self]
    exact hk
  -- with one lock taken from none
  have hone : ∀ {u : State ι κ} {i : ι} {k : κ}, u.held i = ∅ → (u.take i [k]).held i = {k} := by
    intro u i k hempty
    rw [held_take_self, hempty]
    ext k'
    simp
  have hc := h.keeps a.thread
  cases hs with
  | acquire hm hrest _ =>
    rw [Label.thread, hm, hrest] at hc
    refine key ?_
    rw [held_take_self]
    exact hc.2
  | release hm hrest =>
    rw [Label.thread, hm, hrest] at hc
    refine key ?_
    rw [held_give_self]
    exact hc.2
  | signal hm hrest _ =>
    rw [Label.thread, hm, hrest] at hc
    exact key hc
  | pass hm hrest _ =>
    rw [Label.thread, hm, hrest] at hc
    exact key hc.2
  | @sleep i k timed q hm hrest _ =>
    rw [Label.thread, hm, hrest] at hc
    refine key ⟨?_, k, timed, q, rfl, rfl, hc.1 ▸ hc.2⟩
    rw [held_give_self, hc.1, Set.sdiff_self]
  | timeUp hm hrest =>
    rw [Label.thread, hm, hrest] at hc
    exact key hc
  | retake hm hrest _ =>
    rw [Label.thread, hm, hrest] at hc
    obtain ⟨hempty, _, _, _, e, hc⟩ := hc
    cases e
    refine key ?_
    rw [hone hempty]
    exact hc
  | goOn hm hrest _ =>
    rw [Label.thread, hm, hrest] at hc
    obtain ⟨hempty, _, _, _, e, hc⟩ := hc
    cases e
    refine key ?_
    rw [hone hempty]
    exact hc.2
  | stir hm =>
    rw [Label.thread, hm] at hc
    exact key hc

theorem Inv.step_keeps {p : ι → List (Action κ)} (h : Inv rank p s) (hs : Step s a t) (j : ι) :
    Keeps rank (t.held j) (t.rest j) (t.mode j) := by
  by_cases hj : j = a.thread
  · rw [hj]
    exact h.step_self hs
  · obtain ⟨hheld, hrest, hmode⟩ := h.step_other hs hj
    rw [hheld, hrest]
    exact (h.keeps j).wakes hmode

omit [DecidableEq κ] in
theorem sleeps_of_go {u : State ι κ} {k : κ} {j : ι} {timed : Bool} {md : Mode} (hmd : md ≠ .asleep)
    (h : (u.go i q md).Sleeps j k timed) : j ≠ i ∧ u.Sleeps j k timed := by
  have hij : j ≠ i := by
    rintro rfl
    exact hmd ((mode_go_self ..).symm.trans h.1)
  obtain ⟨hm, p, hp⟩ := h
  rw [mode_go_of_ne hij] at hm
  rw [rest_go_of_ne hij] at hp
  exact ⟨hij, hm, p, hp⟩

theorem Inv.step_told {p : ι → List (Action κ)} (h : Inv rank p s) (hs : Step s a t) {j : ι}
    {k : κ} {timed : Bool} (hj : t.Sleeps j k timed) (hk : t.ready k = true) :
    ∃ i ≠ j, ∃ timed', .wait k timed' ∈ p i := by
  cases hs with
  | acquire | release | pass | retake | goOn | timeUp | stir =>
    exact h.told (sleeps_of_go (by simp) hj).2 hk
  | @signal i k' q mode hm hrest hwake =>
    obtain ⟨-, hj⟩ := sleeps_of_go (by simp) hj
    have hsleeps : s.Sleeps j k timed := by
      refine ⟨?_, hj.2⟩
      rcases hwake.mode j with e | ⟨hs, -⟩
      · exact e ▸ hj.1
      · exact hs
    by_cases hkk : k = k'
    · subst hkk
      cases hwake with
      | nobody hno => exact absurd hsleeps (hno j timed)
      | @one i' timed' hi' =>
        -- another one was woken
        refine ⟨i', ?_, timed', ?_⟩
        · rintro rfl
          have hm' := hj.1
          simp [State.tell] at hm'
        · obtain ⟨q', hq'⟩ := hi'.2
          exact h.subset i' (hq' ▸ List.mem_cons_self)
    · refine h.told hsleeps ?_
      have hk' : Function.update s.ready k' true k = true := hk
      rw [Function.update_of_ne hkk] at hk'
      exact hk'
  | @sleep i k' timed' q hm hrest hno =>
    by_cases hij : j = i
    · subst hij
      obtain ⟨-, q', hq'⟩ := hj
      rw [rest_go_self] at hq'
      cases hq'
      rw [show s.ready k = true from hk] at hno
      cases hno
    · obtain ⟨hsleep, q', hq'⟩ := hj
      rw [mode_go_of_ne hij] at hsleep
      rw [rest_go_of_ne hij] at hq'
      exact h.told ⟨hsleep, q', hq'⟩ hk

theorem Inv.step {p : ι → List (Action κ)} (h : Inv rank p s) (hs : Step s a t) :
    Inv rank p t where
  keeps := h.step_keeps hs
  subset i := List.Subset.trans (hs.rest_subset i) (h.subset i)
  told := h.step_told hs

/-- **No circle**: who waits for a lock waits for one of a higher rank than all it has, so its
owner waits for a higher one still. -/
theorem Inv.free [WellFoundedGT α] {p : ι → List (Action κ)} (h : Inv rank p s)
    (hno : ∀ i t, ¬ Step s (.own i) t) : ∀ k, s.owner k = none := by
  have key : ∀ a, ∀ k, rank k = a → s.owner k = none := by
    intro a
    induction a using WellFoundedGT.induction with
    | ind a ih =>
      intro k hk
      by_contra howner
      obtain ⟨i, hi⟩ := Option.ne_none_iff_exists'.mp howner
      have hmem : k ∈ s.held i := hi
      have hc := h.keeps i
      cases hm : s.mode i with
      | asleep | woken | late =>
        rw [hm] at hc
        rw [hc.1] at hmem
        cases hmem
      | running =>
        rw [hm] at hc
        cases hrest : s.rest i with
        | nil =>
          rw [hrest] at hc
          rw [show s.held i = ∅ from hc] at hmem
          cases hmem
        | cons x q =>
          rw [hrest] at hc
          obtain ⟨t, hs⟩ := exists_step hm hrest fun ks e k' hk' => by
            subst e
            exact ih (rank k') (hk ▸ hc.1 k hi k' hk') k' rfl
          exact hno i t hs
  exact fun k => key _ k rfl

/-- Where all that can happen is a spurious wake-up. -/
structure State.AtRest (p : ι → List (Action κ)) (s : State ι κ) : Prop where
  free : ∀ k, s.owner k = none
  thread : ∀ i, s.Ended i ∨ ∃ k, s.Sleeps i k false ∧ .wait k false ∈ p i ∧
    (s.ready k = true → ∃ j ≠ i, ∃ timed, .wait k timed ∈ p j)

theorem Inv.atRest [WellFoundedGT α] {p : ι → List (Action κ)} (h : Inv rank p s)
    (hno : ∀ i t, ¬ Step s (.own i) t) : s.AtRest p where
  free := h.free hno
  thread i := by
    have hfree := h.free hno
    have hc := h.keeps i
    cases hm : s.mode i with
    | running =>
      left
      refine ⟨hm, ?_⟩
      cases hrest : s.rest i with
      | nil => rfl
      | cons x q =>
        obtain ⟨t, hs⟩ := exists_step hm hrest fun _ _ k _ => hfree k
        exact absurd hs (hno i t)
    | asleep =>
      rw [hm] at hc
      obtain ⟨-, k, timed, q, hrest, -⟩ := hc
      cases timed with
      | true => exact absurd (.timeUp hm hrest) (hno i _)
      | false =>
        have hmem : .wait k false ∈ p i := h.subset i (hrest ▸ List.mem_cons_self)
        exact .inr ⟨k, ⟨hm, q, hrest⟩, hmem, h.told ⟨hm, q, hrest⟩⟩
    | woken =>
      rw [hm] at hc
      obtain ⟨-, k, timed, q, hrest, -⟩ := hc
      exact absurd (.retake hm hrest (hfree k)) (hno i _)
    | late =>
      rw [hm] at hc
      obtain ⟨-, k, timed, q, hrest, -⟩ := hc
      exact absurd (.goOn hm hrest (hfree k)) (hno i _)

/-- **Threads that climb come to rest**, however they are scheduled. -/
theorem ends_at_rest [Fintype ι] [WellFoundedGT α] {p : ι → List (Action κ)} {ready : κ → Bool}
    {ls : List (Label ι)} (hp : ∀ i, Climbs rank ∅ (p i) ∅)
    (hr : Run (system p) (start ready p) ls t) :
    ls.length ≤ (start ready p).weight + 3 * stirs ls ∧
      ((∀ i u, ¬ Step t (.own i) u) → t.AtRest p) := by
  refine ⟨?_, ?_⟩
  · have := length_le hr
    omega
  · have hinv : Inv rank p t :=
      hr.invariant (fun s a t h hs => h.step hs) (.start hp)
    exact hinv.atRest

end Climbs

end Locks
