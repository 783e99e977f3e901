import Mathlib.Data.List.Basic
import Mathlib.Logic.Function.Iterate
import Mathlib.Tactic.Push

/-!
# Labelled transition systems

A concurrent program is a set of initial states and a labelled step relation;
one label is one atomic step of one party.  This file has the part of the theory
that the proofs about such programs use:

* `Run S s l t`: the steps `l` lead from `s` to `t`.  `Run.invariant` is the
  induction every safety proof goes through, and `Run.history_invariant` is the
  same induction for a property that also reads the labels passed so far.
* `Reachable`, and `Reachable.invariant`.
* `restrict`: the runs in which every step meets a condition.
* `record`: the system with a history beside its state; every run has one
  (`Run.exists_record`).
* `forward_simulation`: when every step of `S` can be matched by steps of `T` with the same
  observations, every trace of `S` is a trace of `T`.
* `backward_simulation`: when every step of `S` can be matched backwards by steps
  of `T` with the same observations, every trace of `S` is a trace of `T`.
* `Endless`, and `exists_of_decreasing`: an endless run along which a measure keeps
  falling reaches the goal; `exists_endless_within`: one that never leaves a set of states.
* `Settles`: all runs end, and they end well; `Settles.of_measure` shows it by a measure
  that every step lowers.
* `Fair`, and `Fair.reaches`: the same where one party's step is enough, that party is
  scheduled fairly, and the measure falls only while its steps are not possible.
* `Fair.descends`: the same where each of the party's steps lowers the measure, and no step
  raises it.
-/

namespace Transition

universe u v w z

/-- Initial states and labelled steps. -/
structure System (σ : Type u) (α : Type v) where
  init : σ → Prop
  step : σ → α → σ → Prop

variable {σ : Type u} {α : Type v} {τ : Type w} {β : Type z}

/-- `Run S s l t`: the labels `l`, one step each, lead from `s` to `t`. -/
inductive Run (S : System σ α) : σ → List α → σ → Prop
  | nil (s : σ) : Run S s [] s
  | cons {s t u : σ} {a : α} {l : List α} : S.step s a t → Run S t l u → Run S s (a :: l) u

/-- The states a run from an initial state passes through. -/
def Reachable (S : System σ α) (s : σ) : Prop := ∃ i l, S.init i ∧ Run S i l s

/-- The same system with only the steps that meet `ok`. -/
def System.restrict (S : System σ α) (ok : σ → α → Prop) : System σ α where
  init := S.init
  step s a t := ok s a ∧ S.step s a t

/-- What an observer sees of a list of labels. -/
def trace {ε : Type*} (obs : α → Option ε) (l : List α) : List ε := l.filterMap obs

namespace Run

variable {S : System σ α} {s t u : σ} {a : α} {l m : List α}

theorem single (h : S.step s a t) : Run S s [a] t := .cons h (.nil t)

theorem append (h : Run S s l t) (g : Run S t m u) : Run S s (l ++ m) u := by
  induction h with
  | nil => exact g
  | cons hs _ ih => exact .cons hs (ih g)

theorem snoc (h : Run S s l t) (g : S.step t a u) : Run S s (l ++ [a]) u := h.append (single g)

@[simp] theorem nil_iff : Run S s [] t ↔ s = t := by
  constructor
  · intro h; cases h; rfl
  · rintro rfl; exact .nil s

@[simp] theorem cons_iff : Run S s (a :: l) u ↔ ∃ t, S.step s a t ∧ Run S t l u := by
  constructor
  · rintro (_ | ⟨h, g⟩); exact ⟨_, h, g⟩
  · rintro ⟨t, h, g⟩; exact .cons h g

theorem append_iff : Run S s (l ++ m) u ↔ ∃ t, Run S s l t ∧ Run S t m u := by
  constructor
  · intro h
    induction l generalizing s with
    | nil => exact ⟨s, .nil s, h⟩
    | cons a l ih =>
      obtain ⟨v, hv, hr⟩ := cons_iff.mp h
      obtain ⟨t, h1, h2⟩ := ih hr
      exact ⟨t, .cons hv h1, h2⟩
  · rintro ⟨t, h1, h2⟩; exact h1.append h2

/-- **What every step keeps, every run keeps.** -/
theorem invariant {P : σ → Prop} (hstep : ∀ s a t, P s → S.step s a t → P t)
    (h : Run S s l t) (hs : P s) : P t := by
  induction h with
  | nil => exact hs
  | cons ha _ ih => exact ih (hstep _ _ _ hs ha)

theorem history_invariant {P : List α → σ → Prop}
    (hstep : ∀ l s a t, P l s → S.step s a t → P (l ++ [a]) t)
    (h : Run S s l t) (hs : P [] s) : P l t := by
  have key : ∀ {s t : σ} {l : List α}, Run S s l t → ∀ k, P k s → P (k ++ l) t := by
    intro s t l h
    induction h with
    | nil => intro k hk; simpa using hk
    | cons ha _ ih => intro k hk; simpa using ih _ (hstep _ _ _ _ hk ha)
  simpa using key h [] hs

theorem strengthen {P : σ → Prop} (hstep : ∀ s a t, P s → S.step s a t → P t)
    (h : Run S s l t) (hs : P s) : Run (S.restrict fun s _ => P s) s l t := by
  induction h with
  | nil => exact .nil _
  | cons ha _ ih => exact .cons ⟨hs, ha⟩ (ih (hstep _ _ _ hs ha))

theorem of_labels {ok : σ → α → Prop} (h : Run S s l t) (hl : ∀ a ∈ l, ∀ s, ok s a) :
    Run (S.restrict ok) s l t := by
  induction h with
  | nil => exact .nil _
  | cons ha _ ih =>
    obtain ⟨hok, hl⟩ := List.forall_mem_cons.mp hl
    exact .cons ⟨hok _, ha⟩ (ih hl)

end Run

/-! ### Reachable states -/

section Reachable

variable {S : System σ α} {s t : σ} {a : α} {l : List α}

theorem Reachable.of_init (h : S.init s) : Reachable S s := ⟨s, [], h, .nil s⟩

theorem Reachable.step (h : Reachable S s) (hs : S.step s a t) : Reachable S t := by
  obtain ⟨i, l, hi, hr⟩ := h
  exact ⟨i, l ++ [a], hi, hr.snoc hs⟩

/-- **An inductive invariant holds in every reachable state.** -/
theorem Reachable.invariant {P : σ → Prop} (hinit : ∀ s, S.init s → P s)
    (hstep : ∀ s a t, P s → S.step s a t → P t) (h : Reachable S s) : P s := by
  obtain ⟨i, l, hi, hr⟩ := h
  exact hr.invariant hstep (hinit i hi)

end Reachable

/-! ### History variables -/

section History

variable {γ : Type w} {S : System σ α} {g₀ : γ} {follows : γ → α → σ → γ → Prop}

/-- The system with a history beside its state: `follows g a t g'` says how the history goes on
when the label `a` has led to the state `t`. -/
def System.record (S : System σ α) (g₀ : γ) (follows : γ → α → σ → γ → Prop) :
    System (σ × γ) α where
  init s := S.init s.1 ∧ s.2 = g₀
  step s a t := S.step s.1 a t.1 ∧ follows s.2 a t.1 t.2

/-- **Every run has a history**, when every step has one that goes on. -/
theorem Run.exists_record {P : σ → γ → Prop}
    (hstep : ∀ s g a t, P s g → S.step s a t → ∃ g', follows g a t g' ∧ P t g')
    {s t : σ} {l : List α} (h : Run S s l t) :
    ∀ g, P s g → ∃ g', Run (S.record g₀ follows) (s, g) l (t, g') ∧ P t g' := by
  induction h with
  | nil s => exact fun g hg => ⟨g, .nil _, hg⟩
  | cons ha _ ih =>
    intro g hg
    obtain ⟨g₁, hf, hg₁⟩ := hstep _ _ _ _ hg ha
    obtain ⟨g', hr, hg'⟩ := ih g₁ hg₁
    exact ⟨g', .cons ⟨ha, hf⟩ hr, hg'⟩

end History

/-! ### Simulation -/

section Simulation

variable {ε : Type*} {S : System σ α} {T : System τ β}

@[simp] theorem trace_nil (obs : α → Option ε) : trace obs [] = [] := rfl

@[simp] theorem trace_append (obs : α → Option ε) (l m : List α) :
    trace obs (l ++ m) = trace obs l ++ trace obs m := List.filterMap_append

theorem trace_cons (obs : α → Option ε) (a : α) (l : List α) :
    trace obs (a :: l) = trace obs [a] ++ trace obs l := trace_append obs [a] l

/-- **Forward simulation.**  Each step of `S` is matched by steps of `T` with the same
observations, from any related state on. -/
theorem forward_simulation {R : σ → τ → Prop} {obs : α → Option ε} {obs' : β → Option ε}
    (hstep : ∀ s a s' t, S.step s a s' → R s t →
      ∃ t' m, R s' t' ∧ Run T t m t' ∧ trace obs' m = trace obs [a])
    {s s' : σ} {l : List α} (h : Run S s l s') :
    ∀ t, R s t → ∃ t' m, R s' t' ∧ Run T t m t' ∧ trace obs' m = trace obs l := by
  induction h with
  | nil s => exact fun t ht => ⟨t, [], ht, .nil t, rfl⟩
  | @cons s u s' a l ha _ ih =>
    intro t ht
    obtain ⟨v, m, hv, hm, em⟩ := hstep s a u t ha ht
    obtain ⟨t', k, hR, hk, ek⟩ := ih v hv
    refine ⟨t', m ++ k, hR, hm.append hk, ?_⟩
    rw [trace_append, trace_cons obs a l, ek, em]

/-- **Backward simulation.**  Each step of `S` is matched from its end: whatever
state of `T` is related to the state after the step, some state of `T` related to
the state before it leads there with the same observations.  Then the whole run is
matched from its end, and `T` may resolve its choices with the future in view. -/
theorem backward_simulation {R : σ → τ → Prop} {obs : α → Option ε} {obs' : β → Option ε}
    (hstep : ∀ s a s' t', S.step s a s' → R s' t' →
      ∃ t m, R s t ∧ Run T t m t' ∧ trace obs' m = trace obs [a])
    {s s' : σ} {l : List α} (h : Run S s l s') :
    ∀ t', R s' t' → ∃ t m, R s t ∧ Run T t m t' ∧ trace obs' m = trace obs l := by
  induction h with
  | nil s => exact fun t' ht => ⟨t', [], ht, .nil t', rfl⟩
  | @cons s u s' a l ha _ ih =>
    intro t' ht
    obtain ⟨v, m, hv, hm, em⟩ := ih t' ht
    obtain ⟨t, k, hR, hk, ek⟩ := hstep s a u v ha hv
    refine ⟨t, k ++ m, hR, hk.append hm, ?_⟩
    rw [trace_append, trace_cons obs a l, ek, em]

end Simulation

/-! ### Endless runs -/

/-- An endless run: where some step is possible one is taken, and where none is the
state stays. -/
def Endless (S : System σ α) (ρ : ℕ → σ) : Prop :=
  ∀ k, (∃ a, S.step (ρ k) a (ρ (k + 1))) ∨ ((∀ a t, ¬ S.step (ρ k) a t) ∧ ρ (k + 1) = ρ k)

theorem exists_endless (S : System σ α) (s : σ) : ∃ ρ : ℕ → σ, ρ 0 = s ∧ Endless S ρ := by
  classical
  let next : σ → σ := fun s => if h : ∃ t a, S.step s a t then h.choose else s
  refine ⟨fun k => next^[k] s, rfl, ?_⟩
  intro k
  have hk : next^[k + 1] s = next (next^[k] s) := Function.iterate_succ_apply' next k s
  by_cases h : ∃ t a, S.step (next^[k] s) a t
  · have e : next (next^[k] s) = h.choose := dif_pos h
    obtain ⟨a, ha⟩ := h.choose_spec
    rw [← hk.trans e] at ha
    exact .inl ⟨a, ha⟩
  · exact .inr ⟨fun a t ha => h ⟨t, a, ha⟩, hk.trans (dif_neg h)⟩

theorem exists_endless_within {S : System σ α} {P : σ → Prop}
    (hstep : ∀ s, P s → ∃ a t, S.step s a t ∧ P t) {s : σ} (hs : P s) :
    ∃ ρ : ℕ → σ, ρ 0 = s ∧ Endless S ρ ∧ ∀ k, P (ρ k) := by
  classical
  choose a next hnext hP using hstep
  let ρ : ℕ → { s // P s } := fun k => (fun s => ⟨next s.1 s.2, hP s.1 s.2⟩)^[k] ⟨s, hs⟩
  refine ⟨fun k => (ρ k).1, rfl, fun k => .inl ⟨a (ρ k).1 (ρ k).2, ?_⟩, fun k => (ρ k).2⟩
  have hk : ρ (k + 1) = ⟨next (ρ k).1 (ρ k).2, hP (ρ k).1 (ρ k).2⟩ :=
    Function.iterate_succ_apply' ..
  show S.step (ρ k).1 _ (ρ (k + 1)).1
  rw [hk]
  exact hnext (ρ k).1 (ρ k).2

/-- **Progress by a measure.**  If along a sequence of states `P` holds, and every
state short of `Q` is followed by one with a smaller measure, `Q` is reached. -/
theorem exists_of_decreasing {P Q : σ → Prop} (measure : σ → ℕ) (ρ : ℕ → σ) (h0 : P (ρ 0))
    (hstep : ∀ k, P (ρ k) → ¬ Q (ρ k) →
      P (ρ (k + 1)) ∧ measure (ρ (k + 1)) < measure (ρ k)) : ∃ k, Q (ρ k) := by
  by_contra hne
  have hne' : ∀ k, ¬ Q (ρ k) := fun k hk => hne ⟨k, hk⟩
  have hinv : ∀ k, P (ρ k) := by
    intro k
    induction k with
    | zero => exact h0
    | succ k ih => exact (hstep k ih (hne' k)).1
  have hdec : ∀ k, measure (ρ k) + k ≤ measure (ρ 0) := by
    intro k
    induction k with
    | zero => exact Nat.le_refl _
    | succ k ih =>
      have := (hstep k (hinv k) (hne' k)).2
      omega
  have := hdec (measure (ρ 0) + 1)
  omega

theorem Endless.invariant {S : System σ α} {P : σ → Prop}
    (hstep : ∀ s a t, P s → S.step s a t → P t) {ρ : ℕ → σ} (h : Endless S ρ) (h0 : P (ρ 0)) :
    ∀ k, P (ρ k) := by
  intro k
  induction k with
  | zero => exact h0
  | succ k ih =>
    rcases h k with ⟨a, ha⟩ | ⟨-, he⟩
    · exact hstep _ _ _ ih ha
    · rw [he]; exact ih

/-! ### Runs that end -/

section Settling

variable {S : System σ α} {s t : σ} {l : List α} {n : ℕ} {Q : List α → σ → Prop}

/-- All runs from `s` end, within `n` steps, and where they end `Q` holds. -/
structure Settles (S : System σ α) (s : σ) (n : ℕ) (Q : List α → σ → Prop) : Prop where
  bounded : ∀ l t, Run S s l t → l.length ≤ n
  rests : ∀ l t, Run S s l t → (∀ a u, ¬ S.step t a u) → Q l t

/-- **What every step lowers bounds the length of a run.** -/
theorem Run.length_le {P : List α → σ → Prop} (measure : σ → ℕ)
    (hstep : ∀ l s a t, P l s → S.step s a t → P (l ++ [a]) t ∧ measure t < measure s)
    (h : Run S s l t) (hs : P [] s) : P l t ∧ l.length + measure t ≤ measure s := by
  refine h.history_invariant (P := fun l t => P l t ∧ l.length + measure t ≤ measure s) ?_
    ⟨hs, by simp⟩
  rintro l u a v ⟨hu, hle⟩ hstep'
  obtain ⟨hv, hlt⟩ := hstep l u a v hu hstep'
  refine ⟨hv, ?_⟩
  rw [List.length_append, List.length_singleton]
  omega

theorem Settles.of_measure {P : List α → σ → Prop} (measure : σ → ℕ)
    (hstep : ∀ l s a t, P l s → S.step s a t → P (l ++ [a]) t ∧ measure t < measure s)
    (hrest : ∀ l s, P l s → (∀ a t, ¬ S.step s a t) → Q l s) (hs : P [] s) :
    Settles S s (measure s) Q where
  bounded l t h := by
    have := (h.length_le measure hstep hs).2
    omega
  rests l t h := hrest l t (h.length_le measure hstep hs).1

end Settling

/-- Strong fairness: steps that are possible again and again are taken again and again. -/
def Fair (A : σ → α → σ → Prop) (ρ : ℕ → σ) : Prop :=
  (∀ k, ∃ j, k ≤ j ∧ ∃ a t, A (ρ j) a t) → ∀ k, ∃ j, k ≤ j ∧ ∃ a, A (ρ j) a (ρ (j + 1))

theorem exists_fair (S : System σ α) {A : σ → α → σ → Prop}
    (hA : ∀ s a t, A s a t → S.step s a t) (s : σ) :
    ∃ ρ : ℕ → σ, ρ 0 = s ∧ Endless S ρ ∧ Fair A ρ := by
  let first : System σ α :=
    { init := S.init
      step := fun s a t => A s a t ∨ (∀ b u, ¬ A s b u) ∧ S.step s a t }
  obtain ⟨ρ, h0, hρ⟩ := exists_endless first s
  refine ⟨ρ, h0, ?_, ?_⟩
  · intro k
    rcases hρ k with ⟨a, ha⟩ | ⟨hno, he⟩
    · rcases ha with ha | ⟨-, ha⟩
      · exact .inl ⟨a, hA _ _ _ ha⟩
      · exact .inl ⟨a, ha⟩
    · refine .inr ⟨fun a t ha => hno a t (.inr ⟨fun b u hb => hno b u (.inl hb), ha⟩), he⟩
  · intro hoften k
    obtain ⟨j, hj, a, t, ha⟩ := hoften k
    refine ⟨j, hj, ?_⟩
    rcases hρ j with ⟨b, hb⟩ | ⟨hno, -⟩
    · rcases hb with hb | ⟨hnone, -⟩
      · exact ⟨b, hb⟩
      · exact absurd ha (hnone a t)
    · exact absurd (.inl ha) (hno a t)

/-- **Progress by fairness.**  Every step of the favoured party reaches the goal, and
every other step that does not keeps `P`; while the party has no step, a measure falls. -/
theorem Fair.reaches {S : System σ α} {A : σ → α → σ → Prop} {ρ : ℕ → σ} (hfair : Fair A ρ)
    (hρ : Endless S ρ) {P : σ → Prop} {Q : σ → σ → Prop} (measure : σ → ℕ)
    (hgoal : ∀ s a t, P s → A s a t → Q s t)
    (hmore : ∀ s, P s → ∃ a t, S.step s a t)
    (hstep : ∀ s a t, P s → S.step s a t →
      Q s t ∨ P t ∧ ((∃ b u, A s b u) ∨ measure t < measure s))
    {k : ℕ} (hk : P (ρ k)) : ∃ j, k ≤ j ∧ P (ρ j) ∧ Q (ρ j) (ρ (j + 1)) := by
  by_contra hne
  push Not at hne
  have hnext : ∀ j, k ≤ j → P (ρ j) →
      P (ρ (j + 1)) ∧ ((∃ b u, A (ρ j) b u) ∨ measure (ρ (j + 1)) < measure (ρ j)) := by
    intro j hj hP
    rcases hρ j with ⟨a, ha⟩ | ⟨hno, -⟩
    · exact (hstep _ _ _ hP ha).resolve_left (hne j hj hP)
    · obtain ⟨a, t, ha⟩ := hmore _ hP
      exact absurd ha (hno a t)
  have hP : ∀ j, P (ρ (k + j)) := by
    intro j
    induction j with
    | zero => exact hk
    | succ j ih => exact (hnext _ (Nat.le_add_right k j) ih).1
  -- a measure cannot fall for ever, so the party has a step again and again
  have hoften : ∀ m, ∃ j, m ≤ j ∧ ∃ b u, A (ρ j) b u := by
    intro m
    by_contra hnever
    push Not at hnever
    refine (exists_of_decreasing (P := fun _ => True) (Q := fun _ => False)
      (fun j : ℕ => measure (ρ (k + (m + j)))) id trivial ?_).elim fun _ h => h
    intro j _ _
    refine ⟨trivial, ?_⟩
    rcases (hnext (k + (m + j)) (Nat.le_add_right k _) (hP _)).2 with ⟨b, u, h⟩ | h
    · exact absurd h (hnever _ (by omega) b u)
    · exact h
  obtain ⟨j, hj, a, ha⟩ := hfair hoften k
  have hPj : P (ρ j) := by
    have := hP (j - k)
    rwa [Nat.add_sub_cancel' hj] at this
  exact hne j hj hPj (hgoal _ _ _ hPj ha)

/-- **Progress by a measure that only the favoured party lowers.**  As long as the goal is not
reached no step raises it, and the party has a step again and again. -/
theorem Fair.descends {S : System σ α} {A : σ → α → σ → Prop} {ρ : ℕ → σ} (hfair : Fair A ρ)
    (hρ : Endless S ρ) {P : σ → Prop} {Q : σ → σ → Prop} (measure : σ → ℕ)
    (hstep : ∀ s a t, P s → S.step s a t → Q s t ∨ P t ∧ measure t ≤ measure s)
    (hlower : ∀ s a t, P s → A s a t → Q s t ∨ measure t < measure s) {k : ℕ}
    (hoften : (∀ j, k ≤ j → P (ρ j)) → ∀ m, ∃ j, m ≤ j ∧ ∃ a t, A (ρ j) a t) (hk : P (ρ k)) :
    ∃ j, k ≤ j ∧ P (ρ j) ∧ Q (ρ j) (ρ (j + 1)) := by
  by_contra hne
  push Not at hne
  have hall : ∀ i, P (ρ (k + i)) ∧ ∀ j, j ≤ i → measure (ρ (k + i)) ≤ measure (ρ (k + j)) := by
    intro i
    induction i with
    | zero =>
      refine ⟨hk, fun j hj => ?_⟩
      obtain rfl := Nat.le_zero.mp hj
      exact Nat.le_refl _
    | succ i ih =>
      obtain ⟨hP, hmono⟩ := ih
      have hnext : P (ρ (k + i + 1)) ∧ measure (ρ (k + i + 1)) ≤ measure (ρ (k + i)) := by
        rcases hρ (k + i) with ⟨a, ha⟩ | ⟨-, he⟩
        · exact (hstep _ _ _ hP ha).resolve_left (hne _ (Nat.le_add_right k i) hP)
        · rw [he]
          exact ⟨hP, Nat.le_refl _⟩
      refine ⟨hnext.1, fun j hj => ?_⟩
      rcases Nat.lt_or_eq_of_le hj with hj | rfl
      · exact Nat.le_trans hnext.2 (hmono j (Nat.lt_succ_iff.mp hj))
      · exact Nat.le_refl _
  have hP : ∀ j, k ≤ j → P (ρ j) := by
    intro j hj
    have := (hall (j - k)).1
    rwa [Nat.add_sub_cancel' hj] at this
  -- the party moves again and again, and the measure cannot follow
  have hlow : ∀ n, ∃ i, measure (ρ (k + i)) + n ≤ measure (ρ k) := by
    intro n
    induction n with
    | zero => exact ⟨0, Nat.le_refl _⟩
    | succ n ih =>
      obtain ⟨i, hi⟩ := ih
      obtain ⟨j, hj, a, ha⟩ := hfair (hoften hP) (k + i)
      have hkj : k ≤ j := by omega
      have hlt := (hlower _ _ _ (hP j hkj) ha).resolve_left (hne j hkj (hP j hkj))
      have hle := (hall (j - k)).2 i (by omega)
      rw [Nat.add_sub_cancel' hkj] at hle
      refine ⟨j + 1 - k, ?_⟩
      rw [Nat.add_sub_cancel' (by omega)]
      omega
  obtain ⟨i, hi⟩ := hlow (measure (ρ k) + 1)
  omega

end Transition
