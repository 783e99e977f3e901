import Mqmx.Testing.Epoch

/-!
# Which callers are served

`Serving plus s` is what holds while the worker runs the items, whether or not that ends.
`Underway.completes`: from a servable agenda it does.  The measure counts the due instances
of every user work that are still to come, `load`, and the items that have not been put
behind the epoch.  The last item may be run and put back again and again; but it does not
pass a record of the same time, so something else runs before it is the front again.

`Serving.not_completes`: from any other agenda it need not.  `completes_iff` is both.
-/

namespace Mqmx.Testing

open WorkQueue (Members Record Heap IsHeap Outcome)
open Transition (System Endless)

variable {ω σ : Type} {w : ℕ}

/-! ### The measure -/

def remaining (now : Int) (r : Record (Work ω) w) : ℕ :=
  if isForwarding r then 0 else (now + 1 - r.1.timePoint).toNat

def load (now : Int) : List (Record (Work ω) w) → ℕ
  | [] => 0
  | r :: v => remaining now r + load now v

/-- How far the worker is from its loop. -/
def distance : WorkerPc ω w → ℕ
  | .loop => 0
  | .syncing .. => 2
  | _ => 1

/-- Whether the forwarding item is in front. -/
def inFront : List (Record (Work ω) w) → ℕ
  | [] => 0
  | r :: _ => if isForwarding r then 1 else 0

theorem inFront_le (v : List (Record (Work ω) w)) : inFront v ≤ 1 := by
  unfold inFront
  split
  · omega
  · split <;> omega

/-- The items that have not been put behind the epoch. -/
def early (v : List (Record (Work ω) w)) : ℕ := beforeEpoch v + atEpoch v

/-- What the agenda has left.  An execution of a user work takes a due instance away, and
may bring an item in front; an early item is early no more; and a run of the last item
brings another record in front. -/
def runsLeft (now : Int) (v : List (Record (Work ω) w)) : ℕ :=
  6 * load now v + 2 * early v + inFront v

/-- The measure: after an execution the worker may be in a callback. -/
def workLeft (s : State ω w σ) : ℕ :=
  runsLeft s.currentTimePoint (agenda s) + 2 * distance s.worker

theorem load_perm {now : Int} {u v : List (Record (Work ω) w)} (h : u.Perm v) :
    load now u = load now v := by
  induction h with
  | nil => rfl
  | cons r _ ih => rw [load, load, ih]
  | swap r s v => simp only [load]; omega
  | trans _ _ ih₁ ih₂ => rw [ih₁, ih₂]

theorem load_append (now : Int) (u v : List (Record (Work ω) w)) :
    load now (u ++ v) = load now u + load now v := by
  induction u with
  | nil => simp [load]
  | cons r u ih =>
    rw [List.cons_append, load, load, ih]
    omega

theorem executeWork_again {plus : Int → Int → Int} {item r : Record (Work ω) w} {o : Outcome}
    (hexact : 0 < item.1.period →
      plus item.1.timePoint item.1.period = item.1.timePoint + item.1.period)
    (hr : r ∈ again item (WorkQueue.executeWork plus item o)) :
    0 < item.1.period ∧
      r = ({ item.1 with timePoint := item.1.timePoint + item.1.period }, item.2) := by
  obtain ⟨hne, he⟩ := mem_again hr
  cases o with
  | threw => exact absurd rfl hne
  | returned b =>
    cases b with
    | false => exact absurd rfl hne
    | true =>
      by_cases hp : 0 < item.1.period
      · refine ⟨hp, ?_⟩
        rw [he, WorkQueue.executeWork, if_pos hp, hexact hp]
      · exact absurd (if_neg hp) hne

/-- **One execution of a due user work** takes one due instance away, and sums of the
instances left stay exact. -/
theorem execute_user {plus : Int → Int → Int} {s t : State ω w σ} {item : Record (Work ω) w}
    {rest u : List (Record (Work ω) w)} {o : Outcome} (hex : ExactWhileDue plus s)
    (hw : s.worker = .loop) (hc : s.queue.wqItemContainer = item :: rest) (hperm : u.Perm rest)
    (hdue : item.1.timePoint ≤ s.currentTimePoint) (hf : isForwarding item = false)
    (htime : t.currentTimePoint = s.currentTimePoint)
    (hpend : (pending t).Perm (u ++ again item (WorkQueue.executeWork plus item o))) :
    load t.currentTimePoint (pending t) < load s.currentTimePoint (pending s) ∧
      ExactWhileDue plus t := by
  have hps : pending s = item :: rest := by simp [pending, hw, hc]
  have hexact : 0 < item.1.period →
      plus item.1.timePoint item.1.period = item.1.timePoint + item.1.period := by
    intro hp
    have := hex item (by rw [hps]; exact List.mem_cons_self) hf hp 0 (by simpa using hdue)
    simpa using this
  have hagain : load s.currentTimePoint (again item (WorkQueue.executeWork plus item o)) <
      remaining s.currentTimePoint item := by
    rw [remaining, hf]
    cases hl : again item (WorkQueue.executeWork plus item o) with
    | nil => simp [load]; omega
    | cons r l =>
      have hr : r ∈ again item (WorkQueue.executeWork plus item o) := by
        rw [hl]; exact List.mem_cons_self
      obtain ⟨hp, rfl⟩ := executeWork_again hexact hr
      have hnil : l = [] := by
        unfold again at hl
        split at hl
        · cases hl
        · exact (List.cons.inj hl).2.symm
      have hf' : isForwarding
          (({ item.1 with timePoint := item.1.timePoint + item.1.period }, item.2) :
            Record (Work ω) w) = false := hf
      rw [hnil, load, remaining, hf']
      simp only [load, Bool.false_eq_true, if_false]
      omega
  refine ⟨?_, ?_⟩
  · rw [htime, load_perm hpend, hps, load_append, load, load_perm hperm]
    omega
  · intro r hr hfr hp k hk
    rw [htime] at hk
    rcases List.mem_append.mp (hpend.mem_iff.mp hr) with hm | hm
    · exact hex r (by rw [hps]; exact List.mem_cons_of_mem _ (hperm.mem_iff.mp hm)) hfr hp k hk
    · obtain ⟨-, rfl⟩ := executeWork_again hexact hm
      -- its `k`-th instance is the `k + 1`-st of the record that was run
      have hshift : item.1.timePoint + item.1.period + k * item.1.period =
          item.1.timePoint + (k + 1 : ℕ) * item.1.period := by
        rw [Int.natCast_add, Int.natCast_one, Int.add_mul, Int.one_mul]
        omega
      have := hex item (by rw [hps]; exact List.mem_cons_self) hf hp (k + 1)
        (by rw [← hshift]; exact hk)
      rw [← hshift] at this
      exact this

/-! ### While the worker runs the items -/

variable {plus : Int → Int → Int} {s t u : State ω w σ} {l : Label ω w}

/-- What holds while the worker alone runs the items, whether or not that ends. -/
structure Serving (plus : Int → Int → Int) (s : State ω w σ) : Prop where
  inv : Inv s
  running : s.queue.workerStoppedFlag = false
  afterEpoch : 0 < s.currentTimePoint
  awake : s.worker = .waitForTimePoint → s.queue.containerChangeFlag = true
  exact : ExactWhileDue plus s
  due : ∀ r ∈ s.queue.wqItemContainer, isForwarding r = true → r.1.timePoint ≤ s.currentTimePoint

theorem Serving.notEmpty (hs : Serving plus s) : ¬ isTimePointEmpty s.currentTimePoint := by
  have := hs.afterEpoch
  unfold isTimePointEmpty
  omega

variable [Semaphore σ]

theorem Serving.away (hs : Serving plus s) (hw : s.worker ≠ .loop)
    (hstep : (workerOnly ω w σ plus).step s l t) :
    Serving plus t ∧ t.worker = .loop ∧ Silent s l t ∧ SameNext (agenda t) (agenda s) := by
  obtain ⟨hwt, hsilent⟩ := step_away hs.inv hs.running hw hs.awake hstep.1 hstep.2
  have hi := hs.inv.step hstep.2
  refine ⟨⟨hi, hsilent.running.trans hs.running, hsilent.time ▸ hs.afterEpoch, by simp [hwt],
    ?_, ?_⟩, hwt, hsilent, step_away_agenda hs.inv hs.running hw hs.awake hstep.1 hstep.2⟩
  · intro r hr
    rw [hsilent.time]
    exact hs.exact r (hsilent.pending.mem_iff.mp hr)
  · intro r hr hf
    rw [hsilent.time]
    have hm := hsilent.pending.mem_iff.mp (List.mem_append_left _ hr)
    exact hs.due r (hs.inv.mem_container hm hf) hf

theorem Serving.executes (hs : Serving plus s) {h : Heap (Work ω) w} {item : Record (Work ω) w}
    {o : Outcome} {rest v : List (Record (Work ω) w)} (hi : Inv t)
    (he : Executes s l t plus h item o rest v) :
    Serving plus t := by
  obtain ⟨htime, -, -, hrun⟩ := he.frame hs.inv
  have hrest : ∀ r ∈ v, r ∈ pending s := fun r hr => by
    rw [he.pending]
    exact List.mem_cons_of_mem _ (he.perm.mem_iff.mp hr)
  refine ⟨hi, hrun.trans hs.running, htime ▸ hs.afterEpoch, ?_, ?_, ?_⟩
  · intro hwait
    rcases he.worker hs.inv with h' | ⟨-, _, _, h'⟩ <;> rw [hwait] at h' <;> cases h'
  · rcases he.cases hs.inv with ⟨hf, -, hp⟩ | ⟨-, -, hc, hin, -⟩ | ⟨hf, -, hp, -⟩
    · exact (execute_user hs.exact he.loop he.container he.perm he.due hf htime hp).2
    · intro r hr
      rw [htime]
      rw [pending, hc, hin, List.append_nil] at hr
      exact hs.exact r (hrest r hr)
    · intro r hr hfr
      rw [htime]
      rcases List.mem_append.mp (hp.mem_iff.mp hr) with hm | hm
      · exact hs.exact r (hrest r hm) hfr
      · rw [(mem_again hm).2, isForwarding_moved, hf] at hfr
        cases hfr
  · intro r hr hfr
    rw [htime]
    have hv : r ∈ v → r.1.timePoint ≤ s.currentTimePoint := fun hm =>
      hs.due r (hs.inv.mem_container (hrest r hm) hfr) hfr
    rcases he.cases hs.inv with ⟨hf, -, hp⟩ | ⟨-, -, hc, -, -⟩ | ⟨-, -, hp, -⟩
    · rcases List.mem_append.mp (hp.mem_iff.mp (List.mem_append_left _ hr)) with hm | hm
      · exact hv hm
      · rw [again_user hf _ r hm] at hfr
        cases hfr
    · exact hv (hc ▸ hr)
    · rcases List.mem_append.mp (hp.mem_iff.mp (List.mem_append_left _ hr)) with hm | hm
      · exact hv hm
      · rw [(mem_again hm).2]

/-! ### From a servable agenda -/

/-- **What holds while the worker gets there**, with `n` items in `s`. -/
structure Underway (plus : Int → Int → Int) (n : ℕ) (s t : State ω w σ) : Prop
    extends Serving plus t where
  servable : Servable (agenda t)
  owed : Testing.owed t = Semaphore.value s.timeForwardingCompleted + n
  ends : items t = 0 → t.worker = .loop ∨ ∃ item tp, t.worker = .syncing item tp

theorem early_perm {v v' : List (Record (Work ω) w)} (h : v.Perm v') : early v = early v' := by
  rw [early, early, beforeEpoch_perm h, atEpoch_perm h]

theorem early_append_user {v l : List (Record (Work ω) w)}
    (hl : ∀ r ∈ l, isForwarding r = false) : early (v ++ l) = early v := by
  have hb : beforeEpoch l = 0 := List.countP_eq_zero.mpr fun r hr => by simp [hl r hr]
  have he : atEpoch l = 0 := List.countP_eq_zero.mpr fun r hr => by simp [hl r hr]
  unfold early beforeEpoch atEpoch at *
  rw [List.countP_append, List.countP_append, hb, he]
  rfl

theorem SameNext.runsLeft {v v' : List (Record (Work ω) w)} (h : SameNext v v') (now : Int) :
    runsLeft now v = runsLeft now v' := by
  have hfront : inFront v = inFront v' := by
    cases v with
    | nil => rw [List.nil_perm.mp h.1]
    | cons e v =>
      obtain ⟨v'', rfl⟩ := List.head?_eq_some_iff.mp h.2.symm
      rfl
  rw [Testing.runsLeft, Testing.runsLeft, load_perm h.1, early_perm h.1, hfront]

/-- A servable agenda with an item after the epoch in front has no other. -/
theorem Servable.single {e : Record (Work ω) w} {v : List (Record (Work ω) w)}
    (h : Servable (e :: v)) (hf : isForwarding e = true) (hpos : 0 < e.1.timePoint)
    (hmin : ∀ r ∈ v, e.1.timePoint ≤ r.1.timePoint) :
    Testing.early (e :: v) = 0 ∧ v.countP isForwarding = 0 := by
  obtain ⟨hb, he, ha⟩ := counts_after (u := v) hf hpos
  have hb0 : beforeEpoch (e :: v) = 0 := by
    by_contra hne
    have := item_front hmin (Nat.one_le_iff_ne_zero.mpr hne)
    omega
  have he0 : atEpoch (e :: v) = 0 := by
    by_contra hne
    obtain ⟨r, hr, -, hr0⟩ := atEpoch_pos.mp (Nat.pos_of_ne_zero hne)
    rcases List.mem_cons.mp hr with rfl | hr
    · omega
    · have := hmin r hr
      omega
  have hcount := countP_isForwarding (e :: v)
  have hcons : (e :: v).countP isForwarding = v.countP isForwarding + 1 := by
    rw [List.countP_cons, if_pos hf]
  refine ⟨by rw [Testing.early, hb0, he0], ?_⟩
  rcases h with h | h | h | h <;> omega

theorem remaining_forwarding {now : Int} {r : Record (Work ω) w} (h : isForwarding r = true) :
    remaining now r = 0 := if_pos h

/-- **An execution of an item**: it is early no more, or as the last one no more in front. -/
theorem runsLeft_item (plus : Int → Int → Int) {now : Int} (hnow : 0 < now) {o : Outcome}
    {e : Record (Work ω) w} {v : List (Record (Work ω) w)} (h : Servable (e :: v))
    (hf : isForwarding e = true) (hmin : ∀ r ∈ v, e.1.timePoint ≤ r.1.timePoint) :
    runsLeft now (insertBack v (putBack plus now e o v)) < runsLeft now (e :: v) := by
  have hload : load now (e :: v) = load now v := by
    rw [load, remaining_forwarding hf, Nat.zero_add]
  have hin : inFront (e :: v) = 1 := if_pos hf
  have hearly : e.1.timePoint ≤ 0 → early (e :: v) = early v + 1 := by
    intro hle
    unfold early
    rcases Int.lt_or_eq_of_le hle with hlt | h0
    · have := counts_before (u := v) hf hlt
      omega
    · have := counts_atEpoch (u := v) hf h0
      omega
  have hlate : 0 < e.1.timePoint → early (e :: v) = 0 ∧ early v = 0 ∧ inFront v = 0 := by
    intro hpos
    obtain ⟨h1, h2⟩ := h.single hf hpos hmin
    have hc := countP_isForwarding v
    refine ⟨h1, by unfold early; omega, ?_⟩
    cases v with
    | nil => rfl
    | cons y v' => exact if_neg (List.countP_eq_zero.mp h2 y List.mem_cons_self)
  rcases putBack_item plus hnow hf (o := o) (v := v) with
    ⟨-, hp⟩ | ⟨y, v', rfl, hy0, hle, hp⟩
  · rw [hp, insertBack_nil, runsLeft, runsLeft, hload, hin]
    have := inFront_le v
    by_cases hpos : 0 < e.1.timePoint
    · have := hlate hpos
      omega
    · have := hearly (by omega)
      omega
  · rw [hp, insertBack_cons_of_le hle, runsLeft, runsLeft, hload, hin]
    have hback : early (y :: v' ++ [moved e now]) = early (y :: v') := by
      obtain ⟨-, h1, h2, -⟩ := counts_back hnow hf (List.Perm.refl (y :: v'))
      rw [early, h1, h2]
      rfl
    have hload' : load now (y :: v' ++ [moved e now]) = load now (y :: v') := by
      have hzero : load now [moved e now] = 0 := by
        rw [load, remaining_forwarding (r := moved e now) hf]
        rfl
      rw [load_append, hzero, Nat.add_zero]
    have hfront : inFront (y :: v' ++ [moved e now]) = inFront (y :: v') := rfl
    have := inFront_le (y :: v')
    rw [hback, hload', hfront]
    by_cases hpos : 0 < e.1.timePoint
    · have := hlate hpos
      omega
    · have := hearly (by omega)
      omega

theorem distance_le (pc : WorkerPc ω w) : distance pc ≤ 2 := by
  cases pc <;> simp [distance]

variable {n : ℕ}

theorem Underway.exists_due (hu : Underway plus n s t) (hgoal : ¬ Completed n s t)
    (hw : t.worker = .loop) :
    ∃ r ∈ t.queue.wqItemContainer, r.1.timePoint ≤ t.currentTimePoint := by
  by_cases h0 : items t = 0
  · by_contra hno
    push Not at hno
    have howed := hu.owed
    rw [Testing.owed, h0] at howed
    exact hgoal ⟨hw, hno, fun r hr => by simpa using List.countP_eq_zero.mp h0 r hr, howed⟩
  · obtain ⟨r, hr, hf⟩ := List.countP_pos_iff.mp (Nat.pos_of_ne_zero h0)
    exact ⟨r, hr, hu.due r hr hf⟩

/-- **One step of the worker** keeps it underway, with less left to do. -/
theorem Underway.step (hu : Underway plus n s t) (hgoal : ¬ Completed n s t)
    (hs : (workerOnly ω w σ plus).step t l u) : Underway plus n s u ∧ workLeft u < workLeft t := by
  by_cases hw : t.worker = .loop
  · obtain ⟨r, hr, hd⟩ := hu.exists_due hgoal hw
    obtain ⟨h, item, o, rest, v, hst, he⟩ :=
      step_of_due hu.inv hu.running hw hr hd hs.1 hs.2
    have hi := hu.inv.step hs.2
    have hsv := hu.toServing.executes hi he
    have hwu := he.worker hu.inv
    obtain ⟨htime, -, -, -⟩ := he.frame hu.inv
    have hagenda := he.agenda hst hu.inv
    -- the order behind the front does not matter
    have hmin : ∀ r ∈ v, item.1.timePoint ≤ r.1.timePoint := fun r hr =>
      he.front_le hu.inv r (he.perm.mem_iff.mp hr)
    have hsame : SameNext (agenda t) (item :: v) := by
      rw [agenda_of_loop hw, he.container]
      exact ⟨he.perm.symm.cons item, rfl⟩
    have hserv : Servable (item :: v) := hu.servable.sameNext hsame
    have howed : Testing.owed u = Testing.owed t := (he.balance hu.inv hi).2 hu.notEmpty
    have hd : distance t.worker = 0 := by rw [hw]; rfl
    cases hf : isForwarding item with
    | false =>
      have hperm := hagenda.1.trans (insertBack_perm _ _)
      rw [putBack_user hf] at hperm
      have hexact : 0 < item.1.period →
          plus item.1.timePoint item.1.period = item.1.timePoint + item.1.period := by
        intro hp
        have := hu.exact item (he.pending ▸ List.mem_cons_self) hf hp 0 (by simpa using he.due)
        simpa using this
      refine ⟨⟨hsv, ?_, howed.trans hu.owed, fun _ => hwu.imp_right And.right⟩, ?_⟩
      · refine hserv.user hf hmin (fun r hr => ?_) hperm
        obtain ⟨hp, rfl⟩ := executeWork_again hexact hr
        exact ⟨hf, fun t ht => runsAgain_iff_later.mpr ⟨hp, ht⟩⟩
      · have hload := (execute_user hu.exact hw he.container he.perm he.due hf htime
          ((agenda_perm u).symm.trans hperm)).1
        rw [← load_perm (agenda_perm u), ← load_perm (agenda_perm t)] at hload
        have hearly : early (agenda u) = early (agenda t) := by
          obtain ⟨h1, h2, -⟩ := counts_user (u := v) hf
          rw [early_perm hperm, early_append_user (again_user hf _), early_perm hsame.1, early,
            early, h1, h2]
        have := inFront_le (agenda u)
        have := distance_le u.worker
        unfold workLeft runsLeft
        omega
    | true =>
      have hnow := hu.afterEpoch
      have hleft := runsLeft_item plus (o := (callWork item o t).1) hnow hserv hf hmin
      rw [← hagenda.runsLeft, ← hsame.runsLeft] at hleft
      have hwl : u.worker = .loop := hwu.resolve_right fun h => by
        rw [hf] at h
        cases h.1
      refine ⟨⟨hsv, ?_, howed.trans hu.owed, fun _ => .inl hwl⟩, ?_⟩
      · exact (hserv.item hnow hf hmin he.heap).sameNext hagenda.symm
      · have hdu : distance u.worker = 0 := by rw [hwl]; rfl
        unfold workLeft
        rw [htime]
        omega
  · obtain ⟨hsv, hwu, hsilent, hsame⟩ := hu.toServing.away hw hs
    have hitems := hsilent.items hu.inv
    refine ⟨⟨hsv, hu.servable.sameNext hsame.symm, ?_, fun _ => .inl hwu⟩, ?_⟩
    · rw [Testing.owed, hitems, hsilent.completed]
      exact hu.owed
    · have hd : 0 < distance t.worker := by
        cases htw : t.worker with
        | loop => exact absurd htw hw
        | _ => simp [distance]
      have hdu : distance u.worker = 0 := by rw [hwu]; rfl
      unfold workLeft
      rw [hsame.runsLeft, hsilent.time]
      omega

theorem Underway.exists_step (hu : Underway plus n s t) (hgoal : ¬ Completed n s t) :
    ∃ l u, (workerOnly ω w σ plus).step t l u :=
  Testing.exists_step hu.inv hu.running hu.awake (hu.exists_due hgoal)

/-- **From a servable agenda it ends.** -/
theorem Underway.completes (hu : Underway plus n s s) : Completes plus n s := by
  intro ρ h0 hρ
  apply Transition.exists_of_decreasing (P := Underway plus n s) workLeft ρ (h0 ▸ hu)
  intro k hk hgoal
  rcases hρ k with ⟨l, hs⟩ | ⟨hno, -⟩
  · exact hk.step hgoal hs
  · obtain ⟨l, u, hs⟩ := hk.exists_step hgoal
    exact absurd hs (hno l u)

/-! ### From any other agenda -/

/-- **The next execution can leave it so**: the heap library and the user work choose. -/
theorem Serving.step_not_servable (hs : Serving plus s) (hno : ¬ Servable (agenda s)) :
    ∃ l t, (workerOnly ω w σ plus).step s l t ∧ Serving plus t ∧ ¬ Servable (agenda t) := by
  have hdue : ∃ r ∈ s.queue.wqItemContainer, isForwarding r = true := by
    by_contra hnone
    push Not at hnone
    have hzero : (agenda s).countP isForwarding = 0 := by
      rw [(agenda_perm s).countP_eq, ← hs.inv.items]
      exact List.countP_eq_zero.mpr hnone
    exact hno (.inl (by omega))
  obtain ⟨r, hr, hfr⟩ := hdue
  have hrd := hs.due r hr hfr
  by_cases hw : s.worker = .loop
  · obtain ⟨item, rest, hc⟩ := List.exists_cons_of_ne_nil (List.ne_nil_of_mem hr)
    have hagenda : agenda s = item :: rest := by rw [agenda_of_loop hw, hc]
    have hitem := Int.le_trans (hs.inv.front_le hc r hr) hrd
    rw [hagenda] at hno
    obtain ⟨y, hy, hmin, o, hfail⟩ := exists_not_servable plus hs.afterEpoch hno
      (hs.inv.agenda_le hagenda)
      (fun x hx hfx => hs.due x (hc ▸ List.mem_cons_of_mem _ hx) hfx)
      (fun hf hp => by
        have hm : item ∈ pending s := (agenda_perm s).mem_iff.mp (hagenda ▸ List.mem_cons_self)
        simpa using hs.exact item hm hf hp 0 (by simpa using hitem))
    obtain ⟨h, l, v, t, hst, hstep, he⟩ :=
      exists_execute plus hs.inv hs.running hw hc hitem hy hmin o
    refine ⟨l, t, hstep, hs.executes (hs.inv.step hstep.2) he, fun hserv => ?_⟩
    -- the outcome of an item is its own, and changes nothing
    have hout : putBack plus s.currentTimePoint item (callWork item o s).1 (y :: v) =
        putBack plus s.currentTimePoint item o (y :: v) := by
      cases hf : isForwarding item with
      | false =>
        rw [callWork_user (hs.inv.works hs.running item (hc ▸ List.mem_cons_self)) hf]
      | true => rw [putBack, putBack, if_pos hf, if_pos hf]
    have hnext := he.agenda hst hs.inv
    rw [hout] at hnext
    exact hfail v he.perm (hserv.sameNext hnext)
  · obtain ⟨l, t, hstep⟩ := Testing.exists_step hs.inv hs.running hs.awake
      fun h => absurd h hw
    obtain ⟨hst, -, -, hsame⟩ := hs.away hw hstep
    exact ⟨l, t, hstep, hst, fun h => hno (h.sameNext hsame)⟩

/-- **From an agenda that is not servable it need not end.** -/
theorem Serving.not_completes (hs : Serving plus s) (hno : ¬ Servable (agenda s)) :
    ¬ Completes plus n s := by
  intro hcomp
  obtain ⟨ρ, h0, hρ, hall⟩ := Transition.exists_endless_within
    (S := workerOnly ω w σ plus) (P := fun s => Serving plus s ∧ ¬ Servable (agenda s))
    (fun s h => h.1.step_not_servable h.2) ⟨hs, hno⟩
  obtain ⟨k, hw, -, hnone, -⟩ := hcomp ρ h0 hρ
  refine (hall k).2 (.inl ?_)
  have hzero : (agenda (ρ k)).countP isForwarding = 0 := by
    rw [agenda_of_loop hw]
    exact List.countP_eq_zero.mpr fun r hr => by simp [hnone r hr]
  omega

/-! ### Which callers are served -/

/-- **Blocked callers are all served exactly from a servable agenda.** -/
theorem completes_iff {plus : Int → Int → Int} {n : ℕ} (hw : 0 < w) {s : State ω w σ}
    (hr : Transition.Reachable (system ω w σ StdHeap.Algorithms.FrontStable plus) s)
    (hn : 1 ≤ n) (hb : Blocked n s) (hex : ExactWhileDue plus s) :
    Completes plus n s ↔ Servable (agenda s) := by
  have hi := inv_of_reachable hr
  have hs : Serving plus s :=
    ⟨hi, hb.running, hb.afterEpoch, hb.awake hw hn hi, hex, hb.due⟩
  constructor
  · intro hc
    by_contra hno
    exact hs.not_completes hno hc
  · intro hserv
    have hitems : items s = n := hb.items
    refine Underway.completes ⟨hs, hserv, ?_, fun h0 => ?_⟩
    · rw [owed, hitems]
    · omega

/-- One more caller that forwards the time to what it is. -/
def withCaller (s : State Unit 64 ℕ) : State Unit 64 ℕ :=
  let c := s.forwardingCall s.currentTimePoint s.currentTimePoint
  { s with
    queue := (c.run (WorkQueue.siftHeap (Work Unit) 64) s.queue).2
    waiting := waitingAfter s.waiting (c.run (WorkQueue.siftHeap (Work Unit) 64) s.queue).1 }

theorem withCaller_reachable {plus : Int → Int → Int} {s : State Unit 64 ℕ}
    (h : Transition.Reachable (system Unit 64 ℕ StdHeap.Algorithms.FrontStable plus) s)
    (hw : s.worker ≠ .loop) :
    Transition.Reachable (system Unit 64 ℕ StdHeap.Algorithms.FrontStable plus)
      (withCaller s) :=
  (h.step (Step.setTime s.currentTimePoint hw)).step
    (Step.postForwarding (WorkQueue.siftHeap (Work Unit) 64) s.currentTimePoint s.currentTimePoint
      (StdHeap.Algorithms.sift_frontStable WorkQueue.recordCompare_strictWeak) hw rfl)

def twoCallers (now : Int) : State Unit 64 ℕ := withCaller (withCaller (startedAt now))

theorem twoCallers_reachable (plus : Int → Int → Int) (now : Int) :
    Transition.Reachable (system Unit 64 ℕ StdHeap.Algorithms.FrontStable plus)
      (twoCallers now) :=
  withCaller_reachable (withCaller_reachable (startedAt_reachable plus now) (by simp [startedAt]))
    (by simp [withCaller, startedAt])

/-- Two callers that came at the epoch, with the time forwarded to `5` since: both are
served. -/
theorem completes_iff_twoCallers : Completes (· + ·) 2
    { twoCallers 0 with
      queue := WorkQueue.signalContainerChange (twoCallers 0).queue, currentTimePoint := 5 } :=
  (completes_iff (by decide)
    ((twoCallers_reachable _ 0).step (Step.forwardTime 5 (by decide))) (by decide)
    ⟨by decide, by decide, by decide, by decide, by decide⟩ (exactWhileDue_add _)).mpr
    (.inr (.inl (by decide)))

/-- **Two callers at tick `5` are not.** -/
theorem twoCallers_not_served : ∃ s : State Unit 64 ℕ,
    Transition.Reachable (system Unit 64 ℕ StdHeap.Algorithms.FrontStable (· + ·)) s ∧
      Blocked 2 s ∧ ExactWhileDue (· + ·) s ∧ ¬ Completes (· + ·) 2 s := by
  have hreach := twoCallers_reachable (· + ·) 5
  have hb : Blocked 2 (twoCallers 5) := ⟨by decide, by decide, by decide, by decide, by decide⟩
  have hs : Serving (· + ·) (twoCallers 5) :=
    ⟨inv_of_reachable hreach, hb.running, hb.afterEpoch, by decide, exactWhileDue_add _, hb.due⟩
  refine ⟨_, hreach, hb, exactWhileDue_add _, hs.not_completes ?_⟩
  rw [servable_iff_of_after (by decide)]
  decide

end Mqmx.Testing
