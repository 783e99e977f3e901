import Mqmx.Base.Condition
import Mqmx.Poll.Overlap
import Mqmx.Poll.Timeout
import Mqmx.Queue.Notified

/-!
# How a poll wakes up

`wait_for_notifications` waits at the condition variable of the listener, and `notify` calls
`notify_one` there.  In `Poll.system` a poll that waits just goes on when there is something in
its list; here it sleeps and is woken, or not.

* `waiters_asleep`: of the threads that wait on one listener each notification wakes one, and the
  others may sleep on, though there is something in the list.
* `told_poll_returns`: a poll is alone with its listener.  It is never asleep when it has been
  told something, so from there it returns, whatever other polls and threads do.
-/

namespace Mqmx.Poll

open Condition (Place)
open Transition (System Run Reachable Endless Fair)

variable {A β L : Type}

/-! ### One listener for several threads -/

/-- Threads that call `wait_for_notifications` of one listener. -/
def waiting (ι A : Type) [DecidableEq ι] :
    System (Condition.State ι (List (NotificationRec A))) (Condition.Label ι) :=
  Condition.Monitor ι (fun v => v ≠ []) fun v v' => ∃ qid mq flag, v' = notify qid mq flag v

theorem notify_ne_nil (qid : ℕ) (mq : Option A) (flag : Flags) (v : List (NotificationRec A)) :
    notify qid mq flag v ≠ [] := by
  simp only [notify]
  split
  · split <;> simp
  · simp

/-- **Each notification wakes one thread of those that wait on a listener**, and the others may
sleep on, though there is something in the list. -/
theorem waiters_asleep (ι A : Type) [Fintype ι] [DecidableEq ι] :
    (∀ s ls t, Run (waiting ι A) s ls t →
      (Condition.asleep t.place).card ≤ Fintype.card ι - ls.count .notify ∧
      (0 < ls.count .notify → t.data ≠ [])) ∧
    ∀ k, k ≤ Fintype.card ι → ∃ ls t, Run (waiting ι A) ⟨[], fun _ => .away⟩ ls t ∧
      ls.count .notify = k ∧ (Condition.asleep t.place).card = Fintype.card ι - k := by
  refine ⟨fun s ls t hr => Condition.asleep_le ?_ hr, fun k hk => ?_⟩
  · rintro v v' ⟨qid, mq, flag, rfl⟩
    exact notify_ne_nil qid mq flag v
  · -- the same is told again and again
    have hfirst : ∃ qid mq flag, [(⟨0, none, Flag.data⟩ : NotificationRec A)] =
        notify qid mq flag [] := ⟨0, none, Flag.data, rfl⟩
    have hmore : ∃ qid mq flag, [(⟨0, none, Flag.data⟩ : NotificationRec A)] =
        notify qid mq flag [⟨0, none, Flag.data⟩] :=
      ⟨0, none, Flag.data, by simp [notify]⟩
    exact Condition.exists_asleep (fun hne => hne rfl) hfirst hmore hk

/-- One of two threads sleeps on. -/
theorem waiters_asleep_two : ∃ ls t, Run (waiting Bool ℕ) ⟨[], fun _ => .away⟩ ls t ∧
    t.data ≠ [] ∧ (Condition.asleep t.place).card = 1 := by
  obtain ⟨ls, t, hr, hcount, hcard⟩ := (waiters_asleep Bool ℕ).2 1 (by decide)
  exact ⟨ls, t, hr, ((waiters_asleep Bool ℕ).1 _ _ _ hr).2 (by omega), hcard⟩

/-! ### Polls that sleep -/

structure Sleeping (A β L : Type) where
  polls : State A β L
  place : L → Place

inductive Act (A β L : Type)
  | step (x : Label A β L)
  | sleep (l : L)
  | stir (l : L)

variable [DecidableEq A] [DecidableEq L]

def Label.told (m : Memory A β L) : Label A β L → List L
  | .attach l a => (Op.setListener a l).told m
  | .detach _ a => (Op.clearListener a).told m
  | .op o _ => o.told m
  | _ => []

/-- One step of one poll, or of another thread.  `wait l` is what the poll does where it finds its
list empty. -/
inductive SleepStep (range : L → List A) (wait : L → Wait) :
    Sleeping A β L → Act A β L → Sleeping A β L → Prop
  | ready {s : Sleeping A β L} {t : State A β L} {l : L} : Step range s.polls (.ready l) t →
      SleepStep range wait s (.step (.ready l)) ⟨t, Function.update s.place l .awake⟩
  /-- It evaluates its predicate, and returns. -/
  | wake {s : Sleeping A β L} {t : State A β L} {l : L} : s.place l = .awake →
      Step range s.polls (.wake l) t →
      SleepStep range wait s (.step (.wake l)) ⟨t, Function.update s.place l .away⟩
  /-- It evaluates its predicate, and waits. -/
  | sleep {s : Sleeping A β L} {l : L} : s.polls.pc l = .wait → s.place l = .awake →
      s.polls.memory.notifications l = [] → wait l ≠ .returns →
      SleepStep range wait s (.sleep l) { s with place := Function.update s.place l .asleep }
  /-- It does not wait at all. -/
  | pass {s : Sleeping A β L} {t : State A β L} {l : L} : s.place l = .awake →
      s.polls.memory.notifications l = [] → wait l = .returns →
      Step range s.polls (.timeout l) t →
      SleepStep range wait s (.step (.timeout l)) ⟨t, Function.update s.place l .away⟩
  | timeout {s : Sleeping A β L} {t : State A β L} {l : L} {absTime : Int} :
      s.place l = .asleep → wait l = .timed absTime → Step range s.polls (.timeout l) t →
      SleepStep range wait s (.step (.timeout l)) ⟨t, Function.update s.place l .away⟩
  | stir {s : Sleeping A β L} {l : L} : s.place l = .asleep →
      SleepStep range wait s (.stir l) { s with place := Function.update s.place l .awake }
  /-- Whom it tells something is woken, by `notify_one`. -/
  | other {s : Sleeping A β L} {t : State A β L} {p : L → Place} {x : Label A β L} :
      (∀ l, x ≠ .ready l ∧ x ≠ .wake l ∧ x ≠ .timeout l) → Step range s.polls x t →
      Condition.Notify id (x.told s.polls.memory) s.place p →
      SleepStep range wait s (.step x) ⟨t, p⟩

def sleeping (range : L → List A) (wait : L → Wait) :
    System (Sleeping A β L) (Act A β L) where
  init s := (system range).init s.polls ∧ ∀ l, s.place l = .away
  step := SleepStep range wait

section Steps

variable {range : L → List A} {wait : L → Wait} {s t : Sleeping A β L} {x : Act A β L} {l : L}

/-- **Polls that sleep are polls.** -/
theorem SleepStep.polls (hx : SleepStep range wait s x t) :
    (∃ y, x = .step y ∧ Step range s.polls y t.polls) ∨ (t.polls = s.polls ∧
      ((∃ k, x = .sleep k ∧ s.polls.memory.notifications k = []) ∨ ∃ k, x = .stir k)) := by
  cases hx with
  | ready h | wake _ h | pass _ _ _ h | timeout _ _ h | other _ h => exact .inl ⟨_, rfl, h⟩
  | sleep _ _ hn => exact .inr ⟨rfl, .inl ⟨_, rfl, hn⟩⟩
  | stir => exact .inr ⟨rfl, .inr ⟨_, rfl⟩⟩

/-! ### Nobody sleeps on -/

theorem Step.wait_before {u v : State A β L} {y : Label A β L} (hy : Step range u y v)
    (hl : v.pc l = .wait) : y = .ready l ∨ u.pc l = .wait := by
  have goto : ∀ {k : L} {pc : Pc A}, (u.goto k pc).pc l = .wait → pc ≠ .wait → u.pc l = .wait := by
    intro k pc hk hpc
    by_cases hlk : l = k
    · rw [hlk, goto_pc_self] at hk
      exact absurd hk hpc
    · rwa [goto_pc_of_ne hlk] at hk
  cases hy with
  | @ready k =>
    by_cases hlk : l = k
    · exact .inl (by rw [hlk])
    · rw [goto_pc_of_ne hlk] at hl
      exact .inr hl
  | op => exact .inr hl
  | begin | attach | wake | timeout | detach | finish => exact .inr (goto hl (by simp))

/-- **A poll that sleeps has been told nothing.** -/
structure Woken (s : Sleeping A β L) : Prop where
  waits : ∀ l, s.polls.pc l = .wait → s.place l ≠ .away
  told : ∀ l, s.place l = .asleep → s.polls.memory.notifications l = []

omit [DecidableEq L] in
theorem told_of_calls {m : Memory A β L} {y : Label A β L} {o : Op A β L} {r : Op.Reply β}
    (hc : y.Calls o r) : y.told m = o.told m := by
  cases hc <;> rfl

theorem Step.notifications {u v : State A β L} {y : Label A β L} (hy : Step range u y v)
    (hl : l ∉ y.told u.memory) : v.memory.notifications l = u.memory.notifications l := by
  rcases hy.memory with e | ⟨o, r, hc, e⟩
  · rw [e]
  · rw [told_of_calls hc] at hl
    exact e.notifications_of_not_told hl

omit [DecidableEq A] in
theorem Woken.move (h : Woken s) {v : State A β L} {k : L} {pl : Place}
    (hwait : ∀ l, v.pc l = .wait → l = k ∨ s.polls.pc l = .wait)
    (hsame : v.memory = s.polls.memory) (haway : v.pc k = .wait → pl ≠ .away)
    (hasleep : pl = .asleep → v.memory.notifications k = []) :
    Woken ⟨v, Function.update s.place k pl⟩ := by
  refine ⟨fun l hl => ?_, fun l hl => ?_⟩
  · show Function.update s.place k pl l ≠ .away
    by_cases hlk : l = k
    · rw [hlk, Function.update_self]
      exact haway (hlk ▸ hl)
    · rw [Function.update_of_ne hlk]
      exact h.waits l ((hwait l hl).resolve_left hlk)
  · have hl : Function.update s.place k pl l = .asleep := hl
    by_cases hlk : l = k
    · rw [hlk, Function.update_self] at hl
      rw [hlk]
      exact hasleep hl
    · rw [Function.update_of_ne hlk] at hl
      show v.memory.notifications l = []
      rw [hsame]
      exact h.told l hl

omit [DecidableEq A] in
theorem Woken.returns (h : Woken s) {v : State A β L} {k : L}
    (hv : v = s.polls.goto k (.detach (range k))) :
    Woken ⟨v, Function.update s.place k .away⟩ := by
  have hpc : v.pc k ≠ .wait := by
    rw [hv, goto_pc_self]
    simp
  refine h.move (fun l hl => ?_) (by rw [hv]; rfl) (fun hw => absurd hw hpc) (by simp)
  by_cases hlk : l = k
  · exact .inl hlk
  · rw [hv, goto_pc_of_ne hlk] at hl
    exact .inr hl

theorem Woken.step (h : Woken s) (hx : SleepStep range wait s x t) : Woken t := by
  cases hx with
  | @ready v l hy =>
    refine h.move (fun k hk => ?_) (by cases hy; rfl) (fun _ => by simp) (by simp)
    rcases hy.wait_before hk with e | hw
    · cases e
      exact .inl rfl
    · exact .inr hw
  | wake _ hy | pass _ _ _ hy | timeout _ _ hy =>
    cases hy
    exact h.returns rfl
  | @sleep l _ _ hn _ => exact h.move (fun _ hk => .inr hk) rfl (fun _ => by simp) fun _ => hn
  | stir => exact h.move (fun _ hk => .inr hk) rfl (fun _ => by simp) (by simp)
  | @other v p y hno hy hp =>
    refine ⟨fun k hk => ?_, fun k hk => ?_⟩
    · rw [Ne, hp.away_iff]
      exact h.waits k ((hy.wait_before hk).resolve_left (hno k).1)
    · have hk : p k = .asleep := hk
      have hsilent : k ∉ y.told s.polls.memory := fun hmem => hp.lone (fun _ he => he) hmem hk
      show v.memory.notifications k = []
      rw [hy.notifications hsilent]
      exact h.told k (hp.asleep hk)

theorem woken_initial {i : Sleeping A β L} (h : (sleeping range wait).init i) : Woken i where
  waits l hl := by
    rw [h.1.2.2 l] at hl
    cases hl
  told l hl := by
    rw [h.2 l] at hl
    cases hl

/-! ### A poll that has been told something returns -/

def Label.By (l : L) : Label A β L → Prop
  | .begin k | .attach k _ | .ready k | .wake k | .timeout k | .detach k _ | .finish k => k = l
  | .op _ _ => False

def Act.By (l : L) : Act A β L → Prop
  | .step y => y.By l
  | .sleep k => k = l
  | .stir _ => False

structure PollStep (range : L → List A) (wait : L → Wait) (l : L) (s : Sleeping A β L)
    (x : Act A β L) (t : Sleeping A β L) : Prop where
  own : x.By l
  step : SleepStep range wait s x t

def left (range : L → List A) (l : L) : Pc A → ℕ
  | .attach _ rest => rest.length + (range l).length + 3
  | .wait => (range l).length + 2
  | .detach rest => rest.length + 1
  | _ => 0

omit [DecidableEq A] in
theorem left_goto {u : State A β L} {k : L} {pc : Pc A} (hpc : u.pc l ≠ .idle) (hne : pc ≠ .idle)
    (hlt : k = l → left range l pc < left range l (u.pc l)) :
    (u.goto k pc).pc l ≠ .idle ∧
      ((k = l ∧ left range l ((u.goto k pc).pc l) < left range l (u.pc l)) ∨
        (¬ k = l ∧ (u.goto k pc).pc l = u.pc l)) := by
  by_cases hkl : k = l
  · subst hkl
    rw [goto_pc_self]
    exact ⟨hne, .inl ⟨rfl, hlt rfl⟩⟩
  · rw [goto_pc_of_ne (Ne.symm hkl)]
    exact ⟨hpc, .inr ⟨hkl, rfl⟩⟩

/-- **A step of a poll that is under way brings it nearer to its return**, and others do not move
it. -/
theorem Step.left {u v : State A β L} {y : Label A β L} (hy : Step range u y v)
    (hpc : u.pc l ≠ .idle) :
    v.pc l ≠ .idle ∧ ((y.By l ∧ left range l (v.pc l) < left range l (u.pc l)) ∨
      (¬ y.By l ∧ v.pc l = u.pc l)) := by
  cases hy with
  | op => exact ⟨hpc, .inr ⟨id, rfl⟩⟩
  | begin k hk =>
    refine left_goto hpc (by simp) fun hkl => ?_
    rw [hkl] at hk
    exact absurd hk hpc
  | attach hk | detach hk =>
    refine left_goto hpc (by simp) fun hkl => ?_
    subst hkl
    rw [hk]
    simp only [Poll.left, List.length_cons]
    omega
  | ready hk =>
    refine left_goto hpc (by simp) fun hkl => ?_
    subst hkl
    rw [hk]
    simp only [Poll.left, List.length_nil]
    omega
  | wake hk | timeout hk =>
    refine left_goto hpc (by simp) fun hkl => ?_
    subst hkl
    rw [hk]
    exact Nat.lt_succ_self _
  | finish hk =>
    refine left_goto hpc (by simp) fun hkl => ?_
    subst hkl
    rw [hk]
    exact Nat.zero_lt_succ _

/-- It is under way, and has been told something. -/
structure Heard (l : L) (s : Sleeping A β L) : Prop where
  woken : Woken s
  begun : s.polls.pc l ≠ .idle
  told : s.polls.memory.notifications l ≠ []

theorem notifications_ne_nil {m m' : Memory A β L} {o : Op A β L} {r : Op.Reply β}
    (e : Memory.Effect m o r m') (h : m.notifications l ≠ []) : m'.notifications l ≠ [] := by
  have tell : ∀ {m : Memory A β L} (listener : Option L) (qid : ℕ) (mq : Option A) (flag : Flags),
      m.notifications l ≠ [] → (m.notify listener qid mq flag).notifications l ≠ [] := by
    intro m listener qid mq flag h
    cases listener with
    | none => exact h
    | some k =>
      rw [Memory.notifications_notify]
      split
      · exact notify_ne_nil qid mq flag _
      · exact h
  cases e with
  | moveConstruct | destroy => exact tell _ _ _ _ h
  | moveAssign => exact tell _ _ _ _ (tell _ _ _ _ h)
  | push =>
    show (ite _ _ _ : Memory A β L).notifications l ≠ []
    split
    · exact tell _ _ _ _ h
    · exact h
  | setListener =>
    show (ite _ _ _ : Memory A β L).notifications l ≠ []
    split
    · exact h
    · exact tell _ _ _ _ h
  | _ => exact h

theorem Heard.step (h : Heard l s) (hx : SleepStep range wait s x t) :
    Heard l t ∧ ((x.By l ∧ left range l (t.polls.pc l) < left range l (s.polls.pc l)) ∨
      (¬ x.By l ∧ t.polls.pc l = s.polls.pc l)) := by
  have hw := h.woken.step hx
  rcases hx.polls with ⟨y, rfl, hy⟩ | ⟨e, hx'⟩
  · obtain ⟨hb, hor⟩ := hy.left (l := l) h.begun
    refine ⟨⟨hw, hb, ?_⟩, hor⟩
    rcases hy.memory with e | ⟨o, r, -, e⟩
    · rw [e]
      exact h.told
    · exact notifications_ne_nil e h.told
  · refine ⟨⟨hw, by rw [e]; exact h.begun, by rw [e]; exact h.told⟩, .inr ⟨?_, by rw [e]⟩⟩
    rcases hx' with ⟨k, rfl, hn⟩ | ⟨k, rfl⟩
    · -- it would have gone to sleep on an empty list
      rintro rfl
      exact h.told hn
    · exact id

theorem Heard.exists_step (h : Heard l s) (hdone : s.polls.pc l ≠ .done) :
    ∃ x t, PollStep range wait l s x t := by
  cases hpc : s.polls.pc l with
  | idle => exact absurd hpc h.begun
  | done => exact absurd hpc hdone
  | attach set rest =>
    cases rest with
    | nil => exact ⟨.step (.ready l), _, rfl, .ready (.ready hpc)⟩
    | cons a rest =>
      obtain ⟨p, hp⟩ := Condition.exists_notify (id : L → L)
        ((Label.attach l a : Label A β L).told s.polls.memory) s.place
      exact ⟨.step (.attach l a), _, rfl, .other (by simp) (.attach hpc) hp⟩
  | wait =>
    have hawake : s.place l = .awake := by
      cases hpl : s.place l with
      | awake => rfl
      | away => exact absurd hpl (h.woken.waits l hpc)
      | asleep => exact absurd (h.woken.told l hpl) h.told
    exact ⟨.step (.wake l), _, rfl, .wake hawake (.wake hpc h.told)⟩
  | detach rest =>
    cases rest with
    | nil => exact ⟨.step (.finish l), _, rfl, .other (by simp) (.finish hpc) (.nil _)⟩
    | cons a rest => exact ⟨.step (.detach l a), _, rfl, .other (by simp) (.detach hpc) (.nil _)⟩

end Steps

/-- **A poll that has been told something returns**, whatever other polls and threads do. -/
theorem told_poll_returns {range : L → List A} {wait : L → Wait} {ρ : ℕ → Sleeping A β L} {l : L}
    (hr : Reachable (sleeping range wait) (ρ 0)) (hρ : Endless (sleeping range wait) ρ)
    (hfair : Fair (PollStep range wait l) ρ) {k : ℕ} (hbegun : (ρ k).polls.pc l ≠ .idle)
    (htold : (ρ k).polls.memory.notifications l ≠ []) :
    ∃ j, k ≤ j ∧ (ρ j).polls.pc l = .done := by
  by_cases hdone : (ρ k).polls.pc l = .done
  · exact ⟨k, Nat.le_refl k, hdone⟩
  have hw : Woken (ρ k) := hρ.invariant (fun _ _ _ h hx => h.step hx)
    (hr.invariant (fun _ => woken_initial) fun _ _ _ h hx => h.step hx) k
  have hgo := hfair.descends hρ (P := fun s => Heard l s ∧ s.polls.pc l ≠ .done)
    (Q := fun _ t => t.polls.pc l = .done) (fun s => left range l (s.polls.pc l)) (k := k) ?_ ?_ ?_
    ⟨⟨hw, hbegun, htold⟩, hdone⟩
  · obtain ⟨j, hj, -, hd⟩ := hgo
    exact ⟨j + 1, by omega, hd⟩
  · rintro s x t ⟨h, -⟩ hx
    by_cases hd : t.polls.pc l = .done
    · exact .inl hd
    · obtain ⟨ht, ⟨-, hlt⟩ | ⟨-, he⟩⟩ := h.step hx
      · exact .inr ⟨⟨ht, hd⟩, hlt.le⟩
      · exact .inr ⟨⟨ht, hd⟩, by rw [he]⟩
  · rintro s x t ⟨h, -⟩ ⟨hown, hx⟩
    obtain ⟨-, ⟨-, hlt⟩ | ⟨hno, -⟩⟩ := h.step hx
    · exact .inr hlt
    · exact absurd hown hno
  · intro hall m
    refine ⟨max k m, by omega, ?_⟩
    obtain ⟨h, hd⟩ := hall (max k m) (by omega)
    exact h.exists_step hd

/-- A poll that sleeps, and a push to its queue. -/
theorem told_poll_returns_push : ∃ ρ : ℕ → Sleeping ℕ Unit Bool,
    Reachable (sleeping (fun _ => [0]) fun _ => .forever) (ρ 0) ∧
    (ρ 0).polls.pc true = .wait ∧ ∃ j, (ρ j).polls.pc true = .done := by
  have hrun : ∃ s, Run (sleeping (fun _ => [0]) fun _ => .forever)
      (⟨noPolls, fun _ => .away⟩ : Sleeping ℕ Unit Bool)
      [.step (.op (.construct 0 7) .done), .step (.begin true), .step (.attach true 0),
        .step (.ready true), .sleep true,
        .step (.op (.push 0 (some ⟨7, 1, ()⟩)) (.pushed .success none))] s ∧
      s.polls.pc true = .wait ∧ s.polls.memory.notifications true ≠ [] := by
    refine ⟨_, .cons (.other (by simp) (.op (.construct 0 7) rfl) (.nil _))
      (.cons (.other (by simp) (.begin true rfl) (.nil _))
      (.cons (.other (by simp) (.attach rfl) (.nil _))
      (.cons (.ready (.ready rfl))
      (.cons (.sleep rfl rfl rfl (by simp))
      (.single (.other (by simp) (.op (.push 0 (some ⟨7, 1, ()⟩)) rfl)
        (.cons (.one rfl rfl) (.nil _)))))))), rfl, ?_⟩
    exact List.cons_ne_nil _ _
  obtain ⟨s, hr, hpc, htold⟩ := hrun
  obtain ⟨ρ, rfl, hρ, hfair⟩ := Transition.exists_fair
    (sleeping (fun _ => [0]) fun _ => .forever)
    (A := PollStep (fun _ => [0]) (fun _ => .forever) true) (fun _ _ _ h => h.step) s
  have hreach : Reachable (sleeping (fun _ => [0]) fun _ => .forever) (ρ 0) :=
    ⟨_, _, ⟨⟨fun _ => rfl, fun _ => rfl, fun _ => rfl⟩, fun _ => rfl⟩, hr⟩
  obtain ⟨j, -, hj⟩ := told_poll_returns hreach hρ hfair (k := 0) (by rw [hpc]; simp) htold
  exact ⟨ρ, hreach, hpc, j, hj⟩

end Mqmx.Poll
