import Mqmx.Poll.Model

/-!
# Queues that are gone

A poll calls `set_listener` and later `clear_listener` on every queue of its range.  In
between the queue may be destroyed, which the listener is told with `closed`; the
destructor of `set_listener_for_each_queue` walks the whole range nevertheless.

`onlyAlive`: as long as no queue is destroyed that a poll still holds, every call is on
a queue that is alive.
-/

namespace Mqmx.Poll

open Transition (System Run)

variable {A β L : Type}

/-- The queues the poll has set its listener for, and has not come to again. -/
def held (range : List A) : Pc A → List A
  | .attach set _ => set
  | .wait => range
  | .detach rest => rest
  | _ => []

/-- The queues a poll will still call. -/
def ahead (range : List A) : Pc A → List A
  | .attach set rest => set ++ rest
  | pc => held range pc

variable [DecidableEq A] [DecidableEq L]

/-- What the other threads keep to.  All queues of a range are there when the poll
begins, and one is destroyed only after the poll has come to it. -/
def Label.Lawful (range : L → List A) (s : State A β L) : Label A β L → Prop
  | .begin l => ∀ a ∈ range l, ∃ q, s.memory.object a = .alive q
  | .op (.destroy a) _ => ∀ l set rest, s.pc l = .attach set rest → a ∈ rest → a ∈ set
  | _ => True

/-- No queue is destroyed that some poll holds. -/
def Label.SparesHeld (range : L → List A) (s : State A β L) : Label A β L → Prop
  | .op (.destroy a) _ => ∀ l, a ∉ held (range l) (s.pc l)
  | _ => True

/-- The polls among threads that keep to that. -/
def lawful (range : L → List A) : System (State A β L) (Label A β L) :=
  (system range).restrict (Label.Lawful range)

/-- The step calls `set_listener` or `clear_listener` on the queue. -/
def Label.Touches (a : A) : Label A β L → Prop
  | .attach _ b => b = a
  | .detach _ b => b = a
  | _ => False

def OnlyAlive (S : System (State A β L) (Label A β L)) (i : State A β L) : Prop :=
  ∀ ls s x t a, Run S i ls s → S.step s x t → x.Touches a → ∃ q, s.memory.object a = .alive q

theorem touch_alive {m : Memory A β L} {op : Op A β L} {b : A}
    (hb : ∃ q, m.object b = .alive q) (hd : op ≠ .destroy b) :
    ∃ q, (Memory.touch op m).object b = .alive q := by
  rcases Memory.touch_cases op m with ⟨-, e⟩ | ⟨r, e⟩
  · rw [e]; exact hb
  · exact e.alive hb hd

structure AheadAlive (range : L → List A) (s : State A β L) : Prop where
  whole : Whole range s
  alive : ∀ l, ∀ a ∈ ahead (range l) (s.pc l), ∃ q, s.memory.object a = .alive q

omit [DecidableEq A] in
theorem alive_goto {range : L → List A} {s : State A β L} (hs : AheadAlive range s) {l : L}
    {pc : Pc A} (h : ∀ a ∈ ahead (range l) pc, ∃ q, s.memory.object a = .alive q) :
    ∀ k, ∀ a ∈ ahead (range k) ((s.goto l pc).pc k), ∃ q, s.memory.object a = .alive q :=
  forall_goto (P := fun l pc => ∀ a ∈ ahead (range l) pc, ∃ q, s.memory.object a = .alive q)
    hs.alive h

theorem AheadAlive.step {range : L → List A} {s t : State A β L} {x : Label A β L}
    (hs : AheadAlive range s)
    (hx : ((lawful range).restrict (Label.SparesHeld range)).step s x t) : AheadAlive range t := by
  obtain ⟨hspare, hlaw, hstep⟩ := hx
  refine ⟨hs.whole.step hstep, ?_⟩
  cases hstep with
  | begin l _ => exact alive_goto hs hlaw
  | @attach l a set rest hpc =>
    intro k b hb
    refine touch_alive (alive_goto hs (fun b hb => hs.alive l b ?_) k b hb) (by simp)
    rw [hpc]
    simpa [ahead] using hb
  | @ready l set hpc =>
    refine alive_goto hs fun b hb => hs.alive l b ?_
    rw [hpc, ahead, hs.whole l _ _ hpc]
    exact hb
  | @wake l hpc _ => exact alive_goto hs fun b hb => hs.alive l b (by rw [hpc]; exact hb)
  | @timeout l hpc => exact alive_goto hs fun b hb => hs.alive l b (by rw [hpc]; exact hb)
  | @detach l a rest hpc =>
    intro k b hb
    refine touch_alive (alive_goto hs (fun b hb => hs.alive l b ?_) k b hb) (by simp)
    rw [hpc]
    exact List.mem_cons_of_mem _ hb
  | @finish l _ => exact alive_goto hs fun b hb => by simp [ahead, held] at hb
  | @op m o r hrun =>
    intro k b hb
    apply (Memory.run_effect hrun).alive (hs.alive k b hb)
    rintro rfl
    -- what is ahead of a poll is held, or it is not reached yet
    cases hpc : s.pc k with
    | attach set rest =>
      rw [hpc] at hb
      have hset : b ∈ set := by
        rcases List.mem_append.mp hb with h | h
        · exact h
        · exact hlaw k set rest hpc h
      exact hspare k (by rw [hpc]; exact hset)
    | _ =>
      rw [hpc] at hb
      exact hspare k (by rw [hpc]; exact hb)

theorem held_keep {range : L → List A} {s t : State A β L} {x : Label A β L} {l : L} {a : A}
    (hw : Whole range s) (hx : Step range s x t) (hne : x ≠ .detach l a)
    (ha : a ∈ held (range l) (s.pc l)) : a ∈ held (range l) (t.pc l) := by
  have goto : ∀ {k : L} {pc : Pc A}, (k = l → a ∈ held (range l) pc) →
      a ∈ held (range l) ((s.goto k pc).pc l) := by
    intro k pc h
    by_cases hk : l = k
    · rw [hk, goto_pc_self, ← hk]
      exact h hk.symm
    · rw [goto_pc_of_ne hk]
      exact ha
  cases hx with
  | begin k hpc =>
    refine goto ?_
    rintro rfl
    simp [hpc, held] at ha
  | @attach k b set rest hpc =>
    refine goto ?_
    rintro rfl
    rw [hpc] at ha
    exact List.mem_append_left _ ha
  | @ready k set hpc =>
    refine goto ?_
    rintro rfl
    rw [hpc] at ha
    rw [held, ← hw k _ _ hpc, List.append_nil]
    exact ha
  | @wake k hpc _ =>
    refine goto ?_
    rintro rfl
    rw [hpc] at ha
    exact ha
  | @timeout k hpc =>
    refine goto ?_
    rintro rfl
    rw [hpc] at ha
    exact ha
  | @detach k b rest hpc =>
    refine goto ?_
    rintro rfl
    rw [hpc] at ha
    rcases List.mem_cons.mp ha with rfl | ha
    · exact absurd rfl hne
    · exact ha
  | @finish k hpc =>
    refine goto ?_
    rintro rfl
    simp [hpc, held] at ha
  | op => exact ha

theorem held_step {range : L → List A} {s t : State A β L} {x : Label A β L} {l : L} {a : A}
    (hw : Whole range s) (hx : Step range s x t) (hne : x ≠ .detach l a)
    (hd : s.memory.object a = .dead) (ha : a ∈ held (range l) (s.pc l)) :
    t.memory.object a = .dead ∧ a ∈ held (range l) (t.pc l) := by
  refine ⟨?_, held_keep hw hx hne ha⟩
  rcases hx.memory with e | ⟨o, r, -, e⟩
  · rw [e]
    exact hd
  · exact e.dead hd

/-- A poll that ends calls every held queue, also one that is gone. -/
theorem exists_detach_dead {range : L → List A} {s t : State A β L} {ls : List (Label A β L)}
    {l : L} {a : A} (hr : Run (lawful range) s ls t) (hw : Whole range s)
    (hd : s.memory.object a = .dead) (ha : a ∈ held (range l) (s.pc l))
    (hend : t.pc l = .done) :
    ∃ ls' u v, Run (lawful range) s ls' u ∧ (lawful range).step u (.detach l a) v ∧
      u.memory.object a = .dead := by
  induction hr with
  | nil =>
    rw [hend] at ha
    simp [held] at ha
  | @cons s u t x ls hs _ ih =>
    by_cases hx : x = .detach l a
    · subst hx
      exact ⟨[], s, u, .nil s, hs, hd⟩
    · obtain ⟨hd', ha'⟩ := held_step hw hs.2 hx hd ha
      obtain ⟨ls', v, w, hr, hv, hdead⟩ := ih (hw.step hs.2) hd' ha' hend
      exact ⟨x :: ls', v, w, .cons hs hr, hv, hdead⟩

theorem aheadAlive_initial {range : L → List A} {i : State A β L} (h : (system range).init i) :
    AheadAlive range i := by
  refine ⟨whole_initial h, ?_⟩
  intro l a ha
  rw [h.2.2 l] at ha
  simp [ahead, held] at ha

/-- **While no held queue is destroyed, no poll calls a queue that is gone.**  And where
one is destroyed, the poll that holds it calls it once more before it ends. -/
theorem onlyAlive (range : L → List A) {i : State A β L} (hi : (system range).init i) :
    OnlyAlive ((lawful range).restrict (Label.SparesHeld range)) i ∧
      ∀ ls s a r s' ls' t l, Run (lawful range) i ls s →
        (lawful range).step s (.op (.destroy a) r) s' → a ∈ held (range l) (s.pc l) →
        Run (lawful range) s' ls' t → t.pc l = .done →
        ∃ ls'' u v, Run (lawful range) s' ls'' u ∧ (lawful range).step u (.detach l a) v ∧
          u.memory.object a = .dead := by
  refine ⟨?_, ?_⟩
  · intro ls s x t a hr hs ha
    have hinv : AheadAlive range s :=
      hr.invariant (fun _ _ _ h hs => h.step hs) (aheadAlive_initial hi)
    obtain ⟨-, -, hs⟩ := hs
    cases hs with
    | @attach l b set rest hpc =>
      obtain rfl : b = a := ha
      exact hinv.alive l b (by rw [hpc]; simp [ahead])
    | @detach l b rest hpc =>
      obtain rfl : b = a := ha
      exact hinv.alive l b (by rw [hpc]; exact List.mem_cons_self)
    | _ => exact absurd ha id
  · intro ls s a r s' ls' t l hr hs ha hr' hend
    have hw : Whole range s :=
      hr.invariant (S := lawful range) (P := Whole range) (fun _ _ _ h hs => h.step hs.2)
        (whole_initial hi)
    obtain ⟨-, hs⟩ := hs
    cases hs with
    | op _ hrun =>
      cases Memory.run_effect hrun with
      | destroy hq =>
        exact exists_detach_dead hr' hw (by simp) ha hend

/-- An empty memory, and no poll under way. -/
def nothing : State ℕ Unit Unit where
  memory := { object := fun _ => .unborn, notifications := fun _ => [] }
  pc := fun _ => .idle

theorem onlyAlive_nothing :
    OnlyAlive ((lawful fun _ => [0]).restrict (Label.SparesHeld fun _ => [0])) nothing :=
  (onlyAlive (fun _ => [0]) ⟨fun _ => rfl, fun _ => rfl, fun _ => rfl⟩).1

/-- **A queue destroyed while it is attached is called once more.** -/
theorem lawful_not_onlyAlive : ¬ OnlyAlive (lawful fun _ => [0]) nothing := by
  intro h
  have hrun : Run (lawful fun _ => [0]) nothing
      [.op (.construct 0 7) .done, .begin (), .attach () 0, .ready (), .op (.destroy 0) .done,
        .wake ()] _ :=
    .cons ⟨trivial, .op (.construct 0 7) rfl⟩
      (.cons ⟨fun a ha => ⟨⟨7, [], none⟩, by rw [List.mem_singleton.mp ha]; rfl⟩, .begin () rfl⟩
        (.cons ⟨trivial, .attach rfl⟩
          (.cons ⟨trivial, .ready rfl⟩
            (.cons ⟨(fun l set rest hpc => by cases hpc), .op (.destroy 0) rfl⟩
              (.single ⟨trivial, .wake rfl (by decide)⟩)))))
  obtain ⟨q, hq⟩ := h _ _ (.detach () 0) _ 0 hrun ⟨trivial, .detach rfl⟩ rfl
  change Object.dead = _ at hq
  cases hq

end Mqmx.Poll
