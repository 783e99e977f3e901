import Mqmx.Poll.Model
import Mqmx.Queue.Listens

/-!
# Polls over the same queues

Ranges may overlap, and other threads may set and clear listeners themselves.
`set_listener` never replaces a listener, but `clear_listener` does not ask whose it is,
and the destructor of `set_listener_for_each_queue` calls it for its whole range: also
where the constructor got `AlreadyExist`.

So a queue keeps its listener until the first destructor that comes to it, of whatever
poll, and the destructor of every poll that ends has come to each queue of its range
(`listens_until`).  That need not be the poll that set the listener (`not_keptUntilOwn`).
-/

namespace Mqmx.Poll

open Transition (System Run Reachable)

variable {A β L : Type}

/-- So does the step: the operation, or the destructor of any poll that comes to the queue. -/
def Label.Releases (a : A) : Label A β L → Prop
  | .detach _ b => a = b
  | .op o _ => Mqmx.Releases a o
  | _ => False

/-- The same with the destructor of the one poll only. -/
def Label.OwnReleases (a : A) (l : L) : Label A β L → Prop
  | .detach k b => k = l ∧ a = b
  | .op o _ => Mqmx.Releases a o
  | _ => False

/-- The step calls `set_listener` on the queue. -/
def Label.Attaches (a : A) : Label A β L → Prop
  | .attach _ b => a = b
  | .op (.setListener b _) _ => a = b
  | _ => False

def Pc.Inside : Pc A → Prop
  | .attach .. => True
  | .wait => True
  | _ => False

/-- The destructor has still to come to the queue, of those in `range`. -/
def Pc.Ahead (range : List A) (a : A) : Pc A → Prop
  | .detach rest => a ∈ rest
  | .done => False
  | _ => a ∈ range

theorem Pc.Inside.ahead {range : List A} {a : A} {pc : Pc A} (h : pc.Inside) (ha : a ∈ range) :
    pc.Ahead range a := by
  cases pc with
  | attach => exact ha
  | wait => exact ha
  | _ => exact h.elim

theorem Label.releases_of_calls {x : Label A β L} {o : Op A β L} {r : Op.Reply β} {a : A}
    (hx : x.Calls o r) (h : Mqmx.Releases a o) : x.Releases a := by
  cases hx with
  | attach => exact h
  | detach => exact h
  | op => exact h

variable [DecidableEq A] [DecidableEq L]

/-- `set_listener (l)` on the queue succeeds, of a poll or of another thread. -/
def Sets (range : L → List A) (s : State A β L) (a : A) (l : L) (t : State A β L) : Prop :=
  (Step range s (.attach l a) t ∧ Unheard s.memory a) ∨
    Step range s (.op (.setListener a l) (.status .success)) t

/-- A listener is on its queue until its own poll, or a thread, takes it off. -/
def KeptUntilOwn (range : L → List A) (i : State A β L) : Prop :=
  ∀ ls s a l s' ls' t, Run (system range) i ls s → Sets range s a l s' →
    Run (system range) s' ls' t → (∀ x ∈ ls', ¬ x.OwnReleases a l) → Listens t.memory a l

/-! ### Steps -/

section Run

variable {range : L → List A} {s t u : State A β L} {a : A} {l : L}

theorem Step.attach_effect {k : L} (h : Step range s (.attach k a) t)
    (ha : ∃ q, s.memory.object a = .alive q) :
    ∃ r, Memory.Effect s.memory (.setListener a k) r t.memory := by
  obtain ⟨q, hq⟩ := ha
  cases h with
  | attach =>
    rcases Memory.touch_cases (.setListener a k) s.memory with ⟨hn, -⟩ | he
    · exact absurd hq (Memory.setListener_run_eq_none hn q)
    · exact he

theorem Step.detach_effect {k : L} (h : Step range s (.detach k a) t)
    (ha : ∃ q, s.memory.object a = .alive q) :
    ∃ r, Memory.Effect s.memory (.clearListener a) r t.memory := by
  obtain ⟨q, hq⟩ := ha
  cases h with
  | detach =>
    rcases Memory.touch_cases (.clearListener a) s.memory with ⟨hn, -⟩ | he
    · exact absurd hq (Memory.clearListener_run_eq_none hn q)
    · exact he

theorem Step.op_effect {o : Op A β L} {r : Op.Reply β} (h : Step range s (.op o r) t) :
    Memory.Effect s.memory o r t.memory := by
  cases h with
  | op _ hrun => exact Memory.run_effect hrun

theorem listens_keep {x : Label A β L} (h : Listens s.memory a l) (hx : Step range s x t)
    (hne : ¬ x.Releases a) : Listens t.memory a l := by
  rcases hx.memory with e | ⟨o, r, hc, e⟩
  · rw [e]
    exact h
  · exact h.effect e fun ho => hne (x.releases_of_calls hc ho)

theorem listens_run {ls : List (Label A β L)} (h : Listens s.memory a l)
    (hr : Run (system range) s ls t) (hls : ∀ x ∈ ls, ¬ x.Releases a) : Listens t.memory a l := by
  induction hr with
  | nil => exact h
  | @cons s u t x ls hx _ ih =>
    apply ih (listens_keep h hx (hls x List.mem_cons_self))
    intro y hy
    exact hls y (List.mem_cons_of_mem _ hy)

theorem Sets.listens (h : Sets range s a l t) : Listens t.memory a l := by
  have key : ∀ {r}, Memory.Effect s.memory (.setListener a l) r t.memory →
      Unheard s.memory a ∨ r = .status .success → Listens t.memory a l := by
    intro r e hfree
    generalize t.memory = m at e
    cases e with
    | setListener => exact ⟨_, Memory.object_write_self .., rfl⟩
    | alreadyExist hp hn =>
      rcases hfree with ⟨q, hq, hl⟩ | hr
      · obtain rfl : _ = q := Object.alive.inj (hp.symm.trans hq)
        exact absurd hl hn
      · cases hr
  rcases h with ⟨hs, hfree⟩ | hs
  · obtain ⟨r, e⟩ := hs.attach_effect (hfree.imp fun q hq => hq.1)
    exact key e (.inl hfree)
  · exact key hs.op_effect (.inr rfl)

/-! ### The end of a poll -/

/-- No listener is on the queue, if it is there at all. -/
def NoListener (m : Memory A β L) (a : A) : Prop :=
  ∀ q, m.object a = .alive q → q.listener = none

theorem Step.noListener {x : Label A β L} (hn : NoListener s.memory a) (h : Step range s x t)
    (hx : ¬ x.Attaches a) : NoListener t.memory a := by
  intro q hq
  by_contra hne
  obtain ⟨l, hl⟩ := Option.ne_none_iff_exists'.mp hne
  rcases h.memory with e | ⟨o, r, hc, e⟩
  · rw [e] at hq
    exact hne (hn q hq)
  · obtain ⟨p, hp, -, ⟨hpl, -⟩ | ⟨rfl, -⟩⟩ := listener_before e hq hl
    · rw [hn p hp] at hpl
      cases hpl
    · cases hc with
      | attach => exact hx rfl
      | op => exact hx rfl

theorem noListener_run {ls : List (Label A β L)} (hr : Run (system range) s ls t)
    (hn : NoListener s.memory a) (hls : ∀ x ∈ ls, ¬ x.Attaches a) : NoListener t.memory a := by
  induction hr with
  | nil => exact hn
  | @cons s u t x ls hx _ ih =>
    apply ih (Step.noListener hn hx (hls x List.mem_cons_self))
    intro y hy
    exact hls y (List.mem_cons_of_mem _ hy)

theorem Step.detach_noListener {k : L} (h : Step range s (.detach k a) t) :
    NoListener t.memory a := by
  intro q hq
  cases h with
  | detach =>
    rcases Memory.touch_cases (.clearListener a) s.memory with ⟨hn, e⟩ | ⟨r, e⟩
    · exact absurd (e ▸ hq) (Memory.clearListener_run_eq_none hn q)
    · obtain ⟨p, hp, hl⟩ := Listens.clearListener e
      obtain rfl : p = q := Object.alive.inj (hp.symm.trans hq)
      exact hl

theorem Step.ahead {k : L} {x : Label A β L} (ha : (s.pc k).Ahead (range k) a)
    (h : Step range s x t) : x = .detach k a ∨ (t.pc k).Ahead (range k) a := by
  have goto : ∀ {j : L} {pc : Pc A}, (j = k → pc.Ahead (range k) a) →
      ((s.goto j pc).pc k).Ahead (range k) a := by
    intro j pc hj
    by_cases hjk : k = j
    · subst hjk
      rw [goto_pc_self]
      exact hj rfl
    · rw [goto_pc_of_ne hjk]
      exact ha
  cases h with
  | begin l hl =>
    refine .inr (goto ?_)
    rintro rfl
    rw [hl] at ha
    exact ha
  | attach hl =>
    refine .inr (goto ?_)
    rintro rfl
    rw [hl] at ha
    exact ha
  | ready hl =>
    refine .inr (goto ?_)
    rintro rfl
    rw [hl] at ha
    exact ha
  | wake hl =>
    refine .inr (goto ?_)
    rintro rfl
    rw [hl] at ha
    exact ha
  | timeout hl =>
    refine .inr (goto ?_)
    rintro rfl
    rw [hl] at ha
    exact ha
  | @detach j b rest hl =>
    by_cases hjb : j = k ∧ b = a
    · obtain ⟨rfl, rfl⟩ := hjb
      exact .inl rfl
    · refine .inr (goto ?_)
      rintro rfl
      rw [hl] at ha
      exact (List.mem_cons.mp ha).resolve_left fun e => hjb ⟨rfl, e.symm⟩
  | finish hl =>
    refine .inr (goto ?_)
    rintro rfl
    rw [hl] at ha
    cases ha
  | op => exact .inr ha

/-- **A poll that ends has called `clear_listener` on every queue of its range.** -/
theorem detach_of_done {k : L} {ls : List (Label A β L)} (hr : Run (system range) s ls t)
    (ha : (s.pc k).Ahead (range k) a) (hd : t.pc k = .done) :
    ∃ xs u v ys, ls = xs ++ .detach k a :: ys ∧ Run (system range) s xs u ∧
      Step range u (.detach k a) v ∧ Run (system range) v ys t := by
  induction hr with
  | nil =>
    rw [hd] at ha
    exact ha.elim
  | @cons s u t x ls hx hr ih =>
    rcases hx.ahead ha with rfl | ha'
    · exact ⟨[], s, u, ls, rfl, .nil s, hx, hr⟩
    · obtain ⟨xs, v, v', ys, rfl, hr₁, hv, hr₂⟩ := ih ha' hd
      exact ⟨x :: xs, v, v', ys, rfl, .cons hx hr₁, hv, hr₂⟩

/-- What every listener has been told, and the queues a destructor still has before it. -/
structure Sound (range : L → List A) (s : State A β L) : Prop where
  reported : s.memory.Reported
  detach : ∀ l rest, s.pc l = .detach rest → ∀ a ∈ rest, a ∈ range l

theorem Sound.step {x : Label A β L} (h : Sound range s) (hx : Step range s x t) :
    Sound range t := by
  refine ⟨?_, ?_⟩
  · rcases hx.memory with e | ⟨o, r, -, e⟩
    · rw [e]
      exact h.reported
    · exact e.reported h.reported
  · have goto : ∀ {l : L} {pc : Pc A}, (∀ rest, pc = .detach rest → ∀ a ∈ rest, a ∈ range l) →
        ∀ k rest, (s.goto l pc).pc k = .detach rest → ∀ a ∈ rest, a ∈ range k := fun h' =>
      forall_goto (P := fun l pc => ∀ rest, pc = .detach rest → ∀ a ∈ rest, a ∈ range l) h.detach h'
    cases hx with
    | begin => exact goto (by simp)
    | attach => exact goto (by simp)
    | ready => exact goto (by simp)
    | wake => exact goto (by rintro rest ⟨⟩; exact fun _ h => h)
    | timeout => exact goto (by rintro rest ⟨⟩; exact fun _ h => h)
    | @detach l a rest hpc =>
      apply goto
      rintro _ ⟨⟩ b hb
      exact h.detach l _ hpc b (List.mem_cons_of_mem _ hb)
    | finish => exact goto (by simp)
    | op => exact h.detach

theorem sound_reachable (hs : Reachable (system range) s) : Sound range s := by
  refine hs.invariant (fun i hi => ⟨⟨fun l => ?_, fun a q l hq => ?_⟩, fun l rest hl => ?_⟩)
    fun _ _ _ h hx => h.step hx
  · rw [hi.2.1 l]
    exact ascending_nil
  · rw [hi.1 a] at hq
    cases hq
  · rw [hi.2.2 l] at hl
    cases hl

end Run

/-- **A listener is on its queue until some destructor comes to the queue, a thread clears
it, or the queue is moved from, assigned over or destroyed.**  Until then no
`set_listener` changes anything, and every push that is accepted wakes the poll.  The
destructor of any poll takes the listener off the queues in its range; and every poll that
ends calls `clear_listener` on each of them, so that it leaves the queue without a listener
unless one is set after that call. -/
theorem listens_until {range : L → List A} {s s' t : State A β L} {a : A} {l : L}
    {ls : List (Label A β L)} (hs : Reachable (system range) s) (hset : Sets range s a l s')
    (hr : Run (system range) s' ls t) (hls : ∀ x ∈ ls, ¬ x.Releases a) :
    Listens t.memory a l ∧
      (∀ k u, Step range t (.attach k a) u → u.memory = t.memory) ∧
      (∀ k r u, Step range t (.op (.setListener a k) r) u →
        r = .status .alreadyExist ∧ u.memory = t.memory) ∧
      (∀ x u, Step range t (.op (.push a (some x)) (.pushed .success none)) u →
        u.memory.notifications l ≠ [] ∧ (u.pc l = .wait → ∃ v, Step range u (.wake l) v)) ∧
      (∀ k u, Step range t (.detach k a) u → a ∈ range k ∧ Unheard u.memory a) ∧
      ∀ (k : L) (b : A) (i e : State A β L) (zs : List (Label A β L)), (i.pc k).Inside →
        Run (system range) i zs e → e.pc k = .done → b ∈ range k →
        ∃ xs u v ys, zs = xs ++ .detach k b :: ys ∧ Run (system range) i xs u ∧
          Step range u (.detach k b) v ∧ Run (system range) v ys e ∧ NoListener v.memory b ∧
          ((∀ y ∈ ys, ¬ y.Attaches b) → NoListener e.memory b) := by
  have ht : Listens t.memory a l := listens_run hset.listens hr hls
  have hreach : Reachable (system range) t := by
    have hs' : Reachable (system range) s' := by
      rcases hset with ⟨h, -⟩ | h
      · exact hs.step h
      · exact hs.step h
    obtain ⟨i, ls', hi, hr'⟩ := hs'
    exact ⟨i, ls' ++ ls, hi, hr'.append hr⟩
  have hsound := sound_reachable hreach
  have halive : ∃ q, t.memory.object a = .alive q := ht.imp fun q hq => hq.1
  refine ⟨ht, ?_, fun k r u hu => ht.setListener hu.op_effect, ?_, fun k u hu => ⟨?_, ?_⟩, ?_⟩
  · intro k u hu
    obtain ⟨r, e⟩ := hu.attach_effect halive
    exact (ht.setListener e).2
  · intro x u hu
    have hne := ht.push hsound.reported hu.op_effect
    exact ⟨hne, fun hpc => ⟨_, .wake hpc hne⟩⟩
  · cases hu with
    | detach hpc => exact hsound.detach k _ hpc a List.mem_cons_self
  · obtain ⟨r, e⟩ := hu.detach_effect halive
    exact Listens.clearListener e
  · intro k b i e zs hi hz he hb
    obtain ⟨xs, u, v, ys, hzs, hr₁, hv, hr₂⟩ := detach_of_done hz (hi.ahead hb) he
    exact ⟨xs, u, v, ys, hzs, hr₁, hv, hr₂, hv.detach_noListener,
      noListener_run hr₂ hv.detach_noListener⟩

/-- An empty memory, and neither of two polls under way. -/
def noPolls : State ℕ Unit Bool where
  memory := { object := fun _ => .unborn, notifications := fun _ => [] }
  pc := fun _ => .idle

/-- One queue, and the first of the two polls at it. -/
def beforeAttach : State ℕ Unit Bool :=
  State.goto true (.attach [] [0]) ⟨noPolls.memory.write 0 ⟨7, [], none⟩, noPolls.pc⟩

theorem run_beforeAttach :
    Run (system fun _ => [0]) noPolls [.op (.construct 0 7) .done, .begin true] beforeAttach :=
  .cons (.op (.construct 0 7) rfl) (.single (.begin true rfl))

theorem listens_until_secondPoll : ∃ t e, Run (system fun _ => [0]) beforeAttach
    [.attach true 0, .ready true, .begin false, .attach false 0] t ∧ Listens t.memory 0 true ∧
    Run (system fun _ => [0]) t [.ready false, .timeout false, .detach false 0, .finish false] e ∧
    NoListener e.memory 0 := by
  let s : State ℕ Unit Bool :=
    { State.goto true (.attach ([] ++ [0]) []) beforeAttach with
      memory := Memory.touch (.setListener 0 true) beforeAttach.memory }
  have hset : Sets (fun _ => [0]) beforeAttach 0 true s :=
    .inl ⟨.attach rfl, ⟨7, [], none⟩, rfl, rfl⟩
  let t : State ℕ Unit Bool :=
    { State.goto false (.attach ([] ++ [0]) [])
        (State.goto false (.attach [] [0]) (State.goto true .wait s)) with
      memory := Memory.touch (.setListener 0 false) s.memory }
  have hrun : Run (system fun _ => [0]) s [.ready true, .begin false, .attach false 0] t :=
    .cons (.ready rfl) (.cons (.begin false rfl) (.single (.attach rfl)))
  have hend : Run (system fun _ => [0]) t
      [.ready false, .timeout false, .detach false 0, .finish false] _ :=
    .cons (.ready rfl) (.cons (.timeout rfl) (.cons (.detach rfl) (.single (.finish rfl))))
  have hreach : Reachable (system fun _ => [0]) beforeAttach :=
    ⟨noPolls, _, ⟨fun _ => rfl, fun _ => rfl, fun _ => rfl⟩, run_beforeAttach⟩
  obtain ⟨hkept, -, -, -, -, hends⟩ :=
    listens_until hreach hset hrun (by simp [Label.Releases])
  refine ⟨_, _, .cons (.attach rfl) hrun, hkept, hend, ?_⟩
  obtain ⟨xs, u, v, ys, hzs, -, -, -, -, hnone⟩ :=
    hends false 0 t _ _ (show (t.pc false).Inside from trivial) hend rfl List.mem_cons_self
  refine hnone fun y hy => ?_
  have hmem : y ∈ [.ready false, .timeout false, .detach false 0, .finish false] := by
    rw [hzs]
    exact List.mem_append_right _ (List.mem_cons_of_mem _ hy)
  simp only [List.mem_cons, List.not_mem_nil, or_false] at hmem
  rcases hmem with rfl | rfl | rfl | rfl <;> exact id

/-- **Of two polls over one queue the second to begin can end first**, and takes the
listener of the first with it. -/
theorem not_keptUntilOwn : ¬ KeptUntilOwn (fun _ => [0]) noPolls := by
  intro h
  obtain ⟨q, hq, hl⟩ := h _ _ 0 true _
    [.ready true, .begin false, .attach false 0, .ready false, .timeout false, .detach false 0] _
    run_beforeAttach (.inl ⟨.attach rfl, ⟨7, [], none⟩, rfl, rfl⟩)
    (.cons (.ready rfl) (.cons (.begin false rfl) (.cons (.attach rfl) (.cons (.ready rfl)
      (.cons (.timeout rfl) (.single (.detach rfl)))))))
    (by simp [Label.OwnReleases])
  change Object.alive _ = _ at hq
  cases hq
  cases hl

end Mqmx.Poll
