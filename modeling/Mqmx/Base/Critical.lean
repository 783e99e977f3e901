import Mathlib.Data.Set.Basic
import Mathlib.Data.Set.Insert
import Mqmx.Base.Transition

/-!
# Critical sections

Calls that take locks, access the data under them, and give them back, with the accesses of
several threads in any order.  `Prog` is the code of a call, `Prog.run` what it does where nobody
comes in between.

The discipline is that data is accessed under its lock only, and that no lock is taken after one
was given back: `Prog.Grows`.  `refines`: calls that follow it are atomic.  Each has its effect
at one instant between its start and its return, which is where it gives back its first lock.
The effect is stated on an abstract state `σ`, which the data stand for.
-/

namespace Critical

open Transition (System Run trace)

universe u v w z

/-! ### Code -/

section Code

variable {κ : Type u} {D : κ → Type v} {ρ : Type w}

inductive Prog (D : κ → Type v) (ρ : Type w)
  | ret (r : ρ)
  | acquire (k : κ) (p : Prog D ρ)
  | release (k : κ) (p : Prog D ρ)
  | access (k : κ) (f : D k → D k) (p : D k → Prog D ρ)

namespace Prog

def read (k : κ) (p : D k → Prog D ρ) : Prog D ρ := .access k id p

def write (k : κ) (f : D k → D k) (p : Prog D ρ) : Prog D ρ := .access k f fun _ => p

/-- What the code does where nobody comes in between. -/
def run [DecidableEq κ] : Prog D ρ → (∀ k, D k) → ρ × (∀ k, D k)
  | ret r, d => (r, d)
  | acquire _ p, d => p.run d
  | release _ p, d => p.run d
  | access k f p, d => (p (d k)).run (Function.update d k (f (d k)))

/-- With the locks `H`, and taking no more. -/
def Shrinks : Set κ → Prog D ρ → Prop
  | H, ret _ => H = ∅
  | _, acquire _ _ => False
  | H, release k p => k ∈ H ∧ p.Shrinks (H \ {k})
  | H, access k _ p => k ∈ H ∧ ∀ v, (p v).Shrinks H

/-- With the locks `H`, and taking no more after it has given one back. -/
def Grows : Set κ → Prog D ρ → Prop
  | H, ret _ => H = ∅
  | H, acquire k p => k ∉ H ∧ p.Grows (insert k H)
  | H, release k p => k ∈ H ∧ p.Shrinks (H \ {k})
  | H, access k _ p => k ∈ H ∧ ∀ v, (p v).Grows H

theorem Grows.read {H : Set κ} {k : κ} {p : D k → Prog D ρ} (hk : k ∈ H)
    (hp : ∀ v, (p v).Grows H) : (Prog.read k p).Grows H := ⟨hk, hp⟩

theorem Grows.write {H : Set κ} {k : κ} {f : D k → D k} {p : Prog D ρ} (hk : k ∈ H)
    (hp : p.Grows H) : (Prog.write k f p).Grows H := ⟨hk, fun _ => hp⟩

theorem Shrinks.grows {p : Prog D ρ} {H : Set κ} (h : p.Shrinks H) : p.Grows H := by
  induction p generalizing H with
  | ret r => exact h
  | acquire k p => exact h.elim
  | release k p => exact h
  | access k f p ih => exact ⟨h.1, fun v => ih v (h.2 v)⟩

variable [DecidableEq κ]

section Run

variable (d : ∀ k, D k) (k : κ)

@[simp] theorem run_acquire (p : Prog D ρ) : (acquire k p).run d = p.run d := rfl

@[simp] theorem run_read (p : D k → Prog D ρ) : (read k p).run d = (p (d k)).run d := by
  show (p (d k)).run (Function.update d k (d k)) = (p (d k)).run d
  rw [Function.update_eq_self]

@[simp] theorem run_write (f : D k → D k) (p : Prog D ρ) :
    (write k f p).run d = p.run (Function.update d k (f (d k))) := rfl

end Run

/-- **Only data under a lock it has is changed.** -/
theorem Shrinks.frame {p : Prog D ρ} {H : Set κ} (h : p.Shrinks H) (d : ∀ k, D k) {k : κ}
    (hk : k ∉ H) : (p.run d).2 k = d k := by
  induction p generalizing H d with
  | ret r => rfl
  | acquire k' p => exact h.elim
  | release k' p ih => exact ih h.2 d fun hmem => hk hmem.1
  | access k' f p ih =>
    have hne : k ≠ k' := fun e => hk (e ▸ h.1)
    exact (ih _ (h.2 _) _ hk).trans (Function.update_of_ne hne ..)

/-- **Only data under a lock it has is read.** -/
theorem Shrinks.congr {p : Prog D ρ} {H : Set κ} (h : p.Shrinks H) {d e : ∀ k, D k}
    (hde : ∀ k ∈ H, d k = e k) :
    (p.run d).1 = (p.run e).1 ∧ ∀ k ∈ H, (p.run d).2 k = (p.run e).2 k := by
  induction p generalizing H d e with
  | ret r => exact ⟨rfl, hde⟩
  | acquire k' p => exact h.elim
  | release k' p ih =>
    obtain ⟨hr, hd⟩ := ih h.2 fun k hk => hde k hk.1
    refine ⟨hr, fun k hk => ?_⟩
    by_cases hkk : k = k'
    · subst hkk
      have hno : k ∉ H \ {k} := fun hmem => hmem.2 rfl
      show (p.run d).2 k = (p.run e).2 k
      rw [h.2.frame d hno, h.2.frame e hno, hde k hk]
    · exact hd k ⟨hk, hkk⟩
  | access k' f p ih =>
    have he := hde k' h.1
    show ((p (d k')).run _).1 = ((p (e k')).run _).1 ∧ ∀ k ∈ H,
      ((p (d k')).run _).2 k = ((p (e k')).run _).2 k
    rw [he]
    refine ih _ (h.2 _) fun k hk => ?_
    by_cases hkk : k = k'
    · subst hkk
      rw [Function.update_self, Function.update_self]
    · rw [Function.update_of_ne hkk, Function.update_of_ne hkk, hde k hk]

end Prog

end Code

/-! ### Threads -/

section Threads

variable {ι : Type z} {κ : Type u} {D : κ → Type v} {ρ : Type w} {γ : Type w}

/-- The data, who has each lock, and the rest of the call of each thread that is in one. -/
structure State (ι : Type z) (D : κ → Type v) (ρ : Type w) where
  data : ∀ k, D k
  owner : κ → Option ι
  thread : ι → Option (Prog D ρ)

inductive Label (ι : Type z) (γ ρ : Type w)
  | call (i : ι) (c : γ)
  | work (i : ι)
  | ret (i : ι) (r : ρ)

def Label.event? : Label ι γ ρ → Option (ι × (γ ⊕ ρ))
  | call i c => some (i, .inl c)
  | work _ => none
  | ret i r => some (i, .inr r)

variable [DecidableEq ι] [DecidableEq κ]

def State.goto (i : ι) (p : Option (Prog D ρ)) (s : State ι D ρ) : State ι D ρ :=
  { s with thread := Function.update s.thread i p }

inductive Step (code : γ → Prog D ρ) : State ι D ρ → Label ι γ ρ → State ι D ρ → Prop
  | call {s : State ι D ρ} {i : ι} (c : γ) : s.thread i = none →
      Step code s (.call i c) (s.goto i (some (code c)))
  | acquire {s : State ι D ρ} {i : ι} {k : κ} {p : Prog D ρ} :
      s.thread i = some (.acquire k p) → s.owner k = none →
      Step code s (.work i)
        { s.goto i (some p) with owner := Function.update s.owner k (some i) }
  | release {s : State ι D ρ} {i : ι} {k : κ} {p : Prog D ρ} :
      s.thread i = some (.release k p) →
      Step code s (.work i) { s.goto i (some p) with owner := Function.update s.owner k none }
  | access {s : State ι D ρ} {i : ι} {k : κ} {f : D k → D k} {p : D k → Prog D ρ} :
      s.thread i = some (.access k f p) →
      Step code s (.work i)
        { s.goto i (some (p (s.data k))) with
          data := Function.update s.data k (f (s.data k)) }
  | ret {s : State ι D ρ} {i : ι} {r : ρ} : s.thread i = some (.ret r) →
      Step code s (.ret i r) (s.goto i none)

/-- Threads that call the code, from `d` on. -/
def threads (ι : Type z) [DecidableEq ι] (code : γ → Prog D ρ) (d : ∀ k, D k) :
    System (State ι D ρ) (Label ι γ ρ) where
  init s := s = ⟨d, fun _ => none, fun _ => none⟩
  step := Step code

end Threads

/-! ### Atomic calls -/

section Atomic

variable {ι : Type z} {σ : Type v} {ρ : Type w} {γ : Type w} [DecidableEq ι]

inductive Status (γ ρ : Type w)
  | idle
  | called (c : γ)
  | done (r : ρ)

structure Object (ι : Type z) (σ : Type v) (γ ρ : Type w) where
  data : σ
  thread : ι → Status γ ρ

def Object.goto (i : ι) (p : Status γ ρ) (s : Object ι σ γ ρ) : Object ι σ γ ρ :=
  { s with thread := Function.update s.thread i p }

/-- `effect c s r t`: the call `c` can lead from `s` to `t`, and return `r`. -/
inductive Object.Step (effect : γ → σ → ρ → σ → Prop) :
    Object ι σ γ ρ → Label ι γ ρ → Object ι σ γ ρ → Prop
  | call {s : Object ι σ γ ρ} {i : ι} (c : γ) : s.thread i = .idle →
      Object.Step effect s (.call i c) (s.goto i (.called c))
  /-- The whole call, at once. -/
  | commit {s : Object ι σ γ ρ} {i : ι} {c : γ} {r : ρ} {d : σ} : s.thread i = .called c →
      effect c s.data r d → Object.Step effect s (.work i) { s.goto i (.done r) with data := d }
  | ret {s : Object ι σ γ ρ} {i : ι} {r : ρ} : s.thread i = .done r →
      Object.Step effect s (.ret i r) (s.goto i .idle)

/-- The same calls, each with its effect at one instant between its start and its return. -/
def atomic (ι : Type z) [DecidableEq ι] (effect : γ → σ → ρ → σ → Prop) (d : σ) :
    System (Object ι σ γ ρ) (Label ι γ ρ) where
  init s := s = ⟨d, fun _ => .idle⟩
  step := Object.Step effect

end Atomic

/-! ### Refinement -/

section Refinement

variable {ι : Type z} {κ : Type u} {D : κ → Type v} {ρ γ : Type w} [DecidableEq ι]
  [DecidableEq κ]

def State.held (s : State ι D ρ) (i : ι) : Set κ := { k | s.owner k = some i }

/-- The data as the thread finds it: with what it has changed. -/
def State.view (s : State ι D ρ) (i : ι) (e : ∀ k, D k) : ∀ k, D k := fun k =>
  if s.owner k = some i then s.data k else e k

/-- Where the thread is in its call: it is still to have its effect, or has had it.  `a` has the
data as they are without the changes of the calls that are still to have theirs. -/
inductive Matches (code : γ → Prog D ρ) (s : State ι D ρ) (a : Object ι (∀ k, D k) γ ρ) (i : ι) :
    Prop
  | idle : s.thread i = none → a.thread i = .idle → s.held i = ∅ → Matches code s a i
  | growing (p : Prog D ρ) (c : γ) : s.thread i = some p → a.thread i = .called c →
      p.Grows (s.held i) →
      (∀ e, (∀ k ∈ s.held i, e k = a.data k) → (code c).run e = p.run (s.view i e)) →
      Matches code s a i
  | shrinking (p : Prog D ρ) : s.thread i = some p → a.thread i = .done (p.run s.data).1 →
      p.Shrinks (s.held i) → (∀ k ∈ s.held i, a.data k = (p.run s.data).2 k) →
      Matches code s a i

structure Simulates (code : γ → Prog D ρ) (s : State ι D ρ) (a : Object ι (∀ k, D k) γ ρ) :
    Prop where
  free : ∀ k, s.owner k = none → a.data k = s.data k
  thread : ∀ i, Matches code s a i

variable {code : γ → Prog D ρ} {s t : State ι D ρ} {a b : Object ι (∀ k, D k) γ ρ}
  {x : Label ι γ ρ} {i j : ι} {k : κ}

omit [DecidableEq κ] in
theorem view_of_mem {e : ∀ k, D k} (h : k ∈ s.held i) : s.view i e k = s.data k := if_pos h

omit [DecidableEq κ] in
theorem view_of_not_mem {e : ∀ k, D k} (h : k ∉ s.held i) : s.view i e k = e k := if_neg h

omit [DecidableEq κ] in
theorem view_of_empty (h : s.held i = ∅) (e : ∀ k, D k) : s.view i e = e := by
  funext k
  apply view_of_not_mem
  rw [h]
  exact fun hk => hk

/-! #### Who has a lock -/

section Owner

variable {d : ∀ k, D k} {th : ι → Option (Prog D ρ)}

omit [DecidableEq ι] in
theorem held_acquire (i : ι) :
    (⟨d, Function.update s.owner k (some i), th⟩ : State ι D ρ).held i = insert k (s.held i) := by
  ext k'
  by_cases hk : k' = k
  · simp [State.held, hk]
  · simp [State.held, hk]

omit [DecidableEq ι] in
theorem held_acquire_of_ne (hk : s.owner k = none) (hij : j ≠ i) :
    (⟨d, Function.update s.owner k (some i), th⟩ : State ι D ρ).held j = s.held j := by
  ext k'
  by_cases hk' : k' = k
  · simp [State.held, hk', hk, Ne.symm hij]
  · simp [State.held, hk']

omit [DecidableEq ι] in
theorem held_release (i : ι) :
    (⟨d, Function.update s.owner k none, th⟩ : State ι D ρ).held i = s.held i \ {k} := by
  ext k'
  by_cases hk : k' = k
  · simp [State.held, hk]
  · simp [State.held, hk]

omit [DecidableEq ι] in
theorem held_release_of_ne (hk : k ∈ s.held i) (hij : j ≠ i) :
    (⟨d, Function.update s.owner k none, th⟩ : State ι D ρ).held j = s.held j := by
  have hk : s.owner k = some i := hk
  ext k'
  by_cases hk' : k' = k
  · simp [State.held, hk', hk, Ne.symm hij]
  · simp [State.held, hk']

omit [DecidableEq ι] [DecidableEq κ] in
theorem not_mem_held (hk : k ∈ s.held i) (hij : j ≠ i) : k ∉ s.held j := by
  intro hk'
  have hk : s.owner k = some i := hk
  have hk' : s.owner k = some j := hk'
  exact hij (Option.some.inj (hk'.symm.trans hk))

omit [DecidableEq ι] [DecidableEq κ] in
theorem not_mem_held_of_free (hk : s.owner k = none) : k ∉ s.held i := by
  intro hk'
  have hk' : s.owner k = some i := hk'
  rw [hk] at hk'
  cases hk'

end Owner

theorem view_acquire {th : ι → Option (Prog D ρ)} {e : ∀ k, D k}
    (hno : k ∉ s.held i) (he : e k = s.data k) :
    (⟨s.data, Function.update s.owner k (some i), th⟩ : State ι D ρ).view i e = s.view i e := by
  funext k'
  by_cases hk : k' = k
  · subst hk
    rw [view_of_not_mem hno, he]
    exact if_pos (Function.update_self ..)
  · show ite (Function.update s.owner k (some i) k' = some i) _ _ = _
    rw [Function.update_of_ne hk]
    rfl

theorem view_access {th : ι → Option (Prog D ρ)} (e : ∀ k, D k)
    (hk : k ∈ s.held i) (v : D k) :
    (⟨Function.update s.data k v, s.owner, th⟩ : State ι D ρ).view i e =
      Function.update (s.view i e) k v := by
  funext k'
  by_cases hk' : k' = k
  · subst hk'
    rw [Function.update_self]
    exact (if_pos hk).trans (Function.update_self ..)
  · rw [Function.update_of_ne hk']
    show ite _ (Function.update s.data k v k') _ = _
    rw [Function.update_of_ne hk']
    rfl

/-! #### One lemma for each step of a thread -/

/-- **What others do leaves a thread where it is.** -/
theorem Matches.frame (h : Matches code s a i) (ht : t.thread i = s.thread i)
    (hb : b.thread i = a.thread i) (hheld : t.held i = s.held i)
    (hdata : ∀ k ∈ s.held i, t.data k = s.data k)
    (hcommit : ∀ k ∈ s.held i, b.data k = a.data k) : Matches code t b i := by
  cases h with
  | idle hs ha hno => exact .idle (ht.trans hs) (hb.trans ha) (hheld.trans hno)
  | growing p c hs ha hg hrun =>
    refine .growing p c (ht.trans hs) (hb.trans ha) (hheld ▸ hg) fun e he => ?_
    have hview : t.view i e = s.view i e := by
      funext k
      by_cases hk : k ∈ s.held i
      · rw [view_of_mem hk, view_of_mem (hheld ▸ hk), hdata k hk]
      · rw [view_of_not_mem hk, view_of_not_mem (hheld ▸ hk)]
    rw [hview]
    exact hrun e fun k hk => (he k (hheld ▸ hk)).trans (hcommit k hk)
  | shrinking p hs ha hg hrun =>
    obtain ⟨hr, hd⟩ := hg.congr hdata
    refine .shrinking p (ht.trans hs) (hb.trans (hr ▸ ha)) (hheld ▸ hg) fun k hk => ?_
    have hk : k ∈ s.held i := hheld ▸ hk
    rw [hcommit k hk, hrun k hk, hd k hk]

theorem Simulates.inside (h : Simulates code s a) {p : Prog D ρ} (hs : s.thread i = some p) :
    (∃ c, a.thread i = .called c ∧ p.Grows (s.held i) ∧
      ∀ e, (∀ k ∈ s.held i, e k = a.data k) → (code c).run e = p.run (s.view i e)) ∨
    (a.thread i = .done (p.run s.data).1 ∧ p.Shrinks (s.held i) ∧
      ∀ k ∈ s.held i, a.data k = (p.run s.data).2 k) := by
  cases h.thread i with
  | idle hs' =>
    rw [hs] at hs'
    cases hs'
  | growing q c hs' ha hg hrun =>
    obtain rfl := Option.some.inj (hs.symm.trans hs')
    exact .inl ⟨c, ha, hg, hrun⟩
  | shrinking q hs' ha hg hrun =>
    obtain rfl := Option.some.inj (hs.symm.trans hs')
    exact .inr ⟨ha, hg, hrun⟩

theorem Simulates.call (h : Simulates code s a) (hgrows : ∀ c, (code c).Grows ∅) {c : γ}
    (hs : s.thread i = none) :
    a.thread i = .idle ∧ Simulates code (s.goto i (some (code c))) (a.goto i (.called c)) := by
  cases h.thread i with
  | growing p c' hs' | shrinking p hs' =>
    rw [hs] at hs'
    cases hs'
  | idle _ ha hno =>
    refine ⟨ha, h.free, fun j => ?_⟩
    by_cases hj : j = i
    · subst hj
      refine .growing (code c) c (Function.update_self ..) (Function.update_self ..) ?_
        fun e _ => ?_
      · show (code c).Grows (s.held j)
        rw [hno]
        exact hgrows c
      · show (code c).run e = (code c).run (s.view j e)
        rw [view_of_empty hno]
    · exact (h.thread j).frame (Function.update_of_ne hj ..) (Function.update_of_ne hj ..) rfl
        (fun _ _ => rfl) fun _ _ => rfl

theorem Simulates.acquire (h : Simulates code s a) {p : Prog D ρ}
    (hs : s.thread i = some (.acquire k p)) (hk : s.owner k = none) :
    Simulates code { s.goto i (some p) with owner := Function.update s.owner k (some i) } a := by
  refine ⟨fun k' hk' => ?_, fun j => ?_⟩
  · have hk' : Function.update s.owner k (some i) k' = none := hk'
    by_cases hkk : k' = k
    · rw [hkk, Function.update_self] at hk'
      cases hk'
    · rw [Function.update_of_ne hkk] at hk'
      exact h.free k' hk'
  by_cases hj : j = i
  · subst hj
    rcases h.inside hs with ⟨c, ha, hg, hrun⟩ | ⟨-, hg, -⟩
    · refine .growing p c (Function.update_self ..) ha ?_ fun e he => ?_
      · rw [held_acquire]
        exact hg.2
      · rw [held_acquire] at he
        have hview : e k = s.data k := (he k (Set.mem_insert k _)).trans (h.free k hk)
        rw [hrun e fun k' hk' => he k' (Set.mem_insert_of_mem k hk')]
        exact congrArg p.run (view_acquire hg.1 hview).symm
    -- it takes no lock any more
    · exact hg.elim
  · exact (h.thread j).frame (Function.update_of_ne hj ..) rfl (held_acquire_of_ne hk hj)
      (fun _ _ => rfl) fun _ _ => rfl

theorem Simulates.access (h : Simulates code s a) {f : D k → D k} {p : D k → Prog D ρ}
    (hs : s.thread i = some (.access k f p)) :
    Simulates code { s.goto i (some (p (s.data k))) with
      data := Function.update s.data k (f (s.data k)) } a := by
  have hk : k ∈ s.held i := by
    rcases h.inside hs with ⟨c, -, hg, -⟩ | ⟨-, hg, -⟩
    · exact hg.1
    · exact hg.1
  refine ⟨fun k' hk' => ?_, fun j => ?_⟩
  · have hne : k' ≠ k := by
      rintro rfl
      exact not_mem_held_of_free hk' hk
    exact (h.free k' hk').trans (Function.update_of_ne hne ..).symm
  by_cases hj : j = i
  · subst hj
    rcases h.inside hs with ⟨c, ha, hg, hrun⟩ | ⟨ha, hg, hrun⟩
    · refine .growing (p (s.data k)) c (Function.update_self ..) ha (hg.2 _) fun e he => ?_
      rw [hrun e he]
      show (p (s.view j e k)).run (Function.update (s.view j e) k (f (s.view j e k))) = _
      rw [view_of_mem hk]
      exact congrArg (p (s.data k)).run (view_access e hk _).symm
    · exact .shrinking (p (s.data k)) (Function.update_self ..) ha (hg.2 _) hrun
  · refine (h.thread j).frame (Function.update_of_ne hj ..) rfl rfl (fun k' hk' => ?_)
      fun _ _ => rfl
    have hne : k' ≠ k := by
      rintro rfl
      exact not_mem_held hk hj hk'
    exact Function.update_of_ne hne ..

/-- The first lock that is given back is where the call has its effect. -/
theorem Simulates.commit (h : Simulates code s a) {p : Prog D ρ} {c : γ}
    (hk : k ∈ s.held i) (hp : p.Shrinks (s.held i \ {k}))
    (hrun : (code c).run a.data = p.run (s.view i a.data)) :
    Simulates code { s.goto i (some p) with owner := Function.update s.owner k none }
      { a.goto i (.done ((code c).run a.data).1) with data := ((code c).run a.data).2 } := by
  rw [hrun]
  -- what is left of the call has to do with the locks that it keeps
  have hframe : ∀ k', k' ∉ s.held i \ {k} → (p.run (s.view i a.data)).2 k' = s.view i a.data k' :=
    fun k' hk' => hp.frame _ hk'
  obtain ⟨hr, hd⟩ := hp.congr (d := s.view i a.data) (e := s.data)
    fun k' hk' => view_of_mem hk'.1
  refine ⟨fun k' hk' => ?_, fun j => ?_⟩
  · show (p.run (s.view i a.data)).2 k' = s.data k'
    have hk' : Function.update s.owner k none k' = none := hk'
    by_cases hkk : k' = k
    · subst hkk
      rw [hframe k' fun hmem => hmem.2 rfl, view_of_mem hk]
    · rw [Function.update_of_ne hkk] at hk'
      have hno : k' ∉ s.held i := not_mem_held_of_free hk'
      rw [hframe k' fun hmem => hno hmem.1, view_of_not_mem hno]
      exact h.free k' hk'
  by_cases hj : j = i
  · subst hj
    refine .shrinking p (Function.update_self ..) ?_ ?_ fun k' hk' => ?_
    · exact (Function.update_self ..).trans (congrArg Status.done hr)
    · rw [held_release]
      exact hp
    · rw [held_release] at hk'
      exact hd k' hk'
  · refine (h.thread j).frame (Function.update_of_ne hj ..) (Function.update_of_ne hj ..)
      (held_release_of_ne hk hj) (fun _ _ => rfl) fun k' hk' => ?_
    have hno : k' ∉ s.held i := not_mem_held hk' (Ne.symm hj)
    show (p.run (s.view i a.data)).2 k' = a.data k'
    rw [hframe k' fun hmem => hno hmem.1, view_of_not_mem hno]

theorem Simulates.release (h : Simulates code s a) {p : Prog D ρ}
    (hs : s.thread i = some (.release k p)) :
    (∃ c, a.thread i = .called c ∧
      Simulates code { s.goto i (some p) with owner := Function.update s.owner k none }
        { a.goto i (.done ((code c).run a.data).1) with data := ((code c).run a.data).2 }) ∨
    Simulates code { s.goto i (some p) with owner := Function.update s.owner k none } a := by
  rcases h.inside hs with ⟨c, ha, hg, hrun⟩ | ⟨ha, hg, hrun⟩
  · exact .inl ⟨c, ha, h.commit hg.1 hg.2 (hrun a.data fun _ _ => rfl)⟩
  -- it has had its effect
  · right
    refine ⟨fun k' hk' => ?_, fun j => ?_⟩
    · have hk' : Function.update s.owner k none k' = none := hk'
      by_cases hkk : k' = k
      · subst hkk
        rw [hrun k' hg.1]
        exact hg.2.frame s.data fun hmem => hmem.2 rfl
      · rw [Function.update_of_ne hkk] at hk'
        exact h.free k' hk'
    by_cases hj : j = i
    · subst hj
      refine .shrinking p (Function.update_self ..) ha ?_ fun k' hk' => ?_
      · rw [held_release]
        exact hg.2
      · rw [held_release] at hk'
        exact hrun k' hk'.1
    · exact (h.thread j).frame (Function.update_of_ne hj ..) rfl (held_release_of_ne hg.1 hj)
        (fun _ _ => rfl) fun _ _ => rfl

/-- A call that has taken no lock has its effect when it returns, and it is none. -/
theorem Simulates.ret (h : Simulates code s a) {r : ρ} (hs : s.thread i = some (.ret r)) :
    ((∃ c, a.thread i = .called c ∧ (code c).run a.data = (r, a.data)) ∨ a.thread i = .done r) ∧
      Simulates code (s.goto i none) (a.goto i .idle) := by
  have hno : s.held i = ∅ := by
    rcases h.inside hs with ⟨c, -, hg, -⟩ | ⟨-, hg, -⟩
    · exact hg
    · exact hg
  refine ⟨?_, h.free, fun j => ?_⟩
  · rcases h.inside hs with ⟨c, ha, -, hrun⟩ | ⟨ha, -, -⟩
    · refine .inl ⟨c, ha, ?_⟩
      rw [hrun a.data fun _ _ => rfl, view_of_empty hno]
      rfl
    · exact .inr ha
  · by_cases hj : j = i
    · subst hj
      exact .idle (Function.update_self ..) (Function.update_self ..) hno
    · exact (h.thread j).frame (Function.update_of_ne hj ..) (Function.update_of_ne hj ..) rfl
        (fun _ _ => rfl) fun _ _ => rfl

/-! #### Every run -/

section Abstract

variable {σ : Type v} {effect : γ → σ → ρ → σ → Prop} {abs : (∀ k, D k) → σ}

/-- The data that the calls which had their effect have left stand for the abstract state. -/
def Abstracts (code : γ → Prog D ρ) (abs : (∀ k, D k) → σ) (s : State ι D ρ)
    (o : Object ι σ γ ρ) : Prop :=
  ∃ d, o.data = abs d ∧ Simulates code s ⟨d, o.thread⟩

theorem Abstracts.step {o : Object ι σ γ ρ}
    (heffect : ∀ c d, effect c (abs d) ((code c).run d).1 (abs ((code c).run d).2))
    (hgrows : ∀ c, (code c).Grows ∅) (d : ∀ k, D k) (e : σ) (h : Abstracts code abs s o)
    (hs : (threads ι code d).step s x t) :
    ∃ o' m, Abstracts code abs t o' ∧ Run (atomic ι effect e) o m o' ∧
      trace Label.event? m = trace Label.event? [x] := by
  obtain ⟨o, th⟩ := o
  obtain ⟨b, rfl, h⟩ := h
  cases hs with
  | call c hs =>
    obtain ⟨ha, h'⟩ := h.call hgrows hs
    exact ⟨_, _, ⟨b, rfl, h'⟩, .single (.call c ha), rfl⟩
  | acquire hs hk => exact ⟨_, [], ⟨b, rfl, h.acquire hs hk⟩, .nil _, rfl⟩
  | access hs => exact ⟨_, [], ⟨b, rfl, h.access hs⟩, .nil _, rfl⟩
  | release hs =>
    rcases h.release hs with ⟨c, ha, h'⟩ | h'
    · exact ⟨_, _, ⟨_, rfl, h'⟩, .single (.commit ha (heffect c b)), rfl⟩
    · exact ⟨_, [], ⟨b, rfl, h'⟩, .nil _, rfl⟩
  | @ret i r hs =>
    obtain ⟨hor, h'⟩ := h.ret hs
    rcases hor with ⟨c, ha, hrun⟩ | ha
    · have hc : effect c (abs b) r (abs b) := by
        have := heffect c b
        rwa [show (code c).run b = (r, b) from hrun] at this
      let o : Object ι σ γ ρ := Object.goto i (.done r) ⟨abs b, th⟩
      have hret : o.goto i .idle = Object.goto i .idle ⟨abs b, th⟩ := by
        simp [o, Object.goto]
      refine ⟨Object.goto i .idle ⟨abs b, th⟩, [.work i, .ret i r], ⟨b, rfl, h'⟩,
        .cons (.commit ha hc) (.single ?_), rfl⟩
      rw [← hret]
      exact .ret (Function.update_self ..)
    · exact ⟨Object.goto i .idle ⟨abs b, th⟩, [.ret i r], ⟨b, rfl, h'⟩, .single (.ret ha), rfl⟩

/-- **Two-phase calls are atomic.**  What is seen of threads that make them can also be seen of
threads whose calls have their effects at once. -/
theorem refines (heffect : ∀ c d, effect c (abs d) ((code c).run d).1 (abs ((code c).run d).2))
    (hgrows : ∀ c, (code c).Grows ∅) (d : ∀ k, D k) {l : List (Label ι γ ρ)}
    (h : Run (threads ι code d) ⟨d, fun _ => none, fun _ => none⟩ l s) :
    ∃ o m, Run (atomic ι effect (abs d)) ⟨abs d, fun _ => .idle⟩ m o ∧
      trace Label.event? m = trace Label.event? l ∧
      ((∀ k, s.owner k = none) → o.data = abs s.data) := by
  have h0 : Abstracts code abs (⟨d, fun _ => none, fun _ => none⟩ : State ι D ρ)
      (⟨abs d, fun _ => .idle⟩ : Object ι σ γ ρ) := by
    refine ⟨d, rfl, fun _ _ => rfl, fun i => .idle rfl rfl ?_⟩
    ext k
    simp [State.held]
  obtain ⟨o, m, ⟨e, he, hsim⟩, hm, htrace⟩ := Transition.forward_simulation
    (fun s x t o hs ho => Abstracts.step heffect hgrows d (abs d) ho hs) h _ h0
  refine ⟨o, m, hm, htrace, fun hfree => ?_⟩
  rw [he]
  congr 1
  funext k
  exact hsim.free k (hfree k)

end Abstract

end Refinement

end Critical
