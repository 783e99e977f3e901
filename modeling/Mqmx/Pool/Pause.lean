import Mqmx.Pool.Listening

/-!
# The pause handshake

A caller of `is_poll_idle` has `_mqs` to itself while the worker is parked (`exclusive_run`).
Its poll looks at the notifications once all queues have its listener: where there are none,
all of them are empty at that instant (`idle_instant`), and this is what a call that returns
`true` has seen (`idle_true`).
-/

namespace Mqmx.Pool

open Transition (System Run)

variable {A T H U σ : Type}

/-- A party goes through `_mqs`, or may change it: the worker in a handler. -/
def State.Uses (s : State A T H U σ) (l : Party T) : Prop :=
  s.poll? l ≠ none ∨ (l = .worker ∧ s.worker.hand ≠ [])

def ClientPc.Asks : ClientPc A → Prop
  | .pausing => True
  | .start => True
  | .poll _ => True
  | .polled _ => True
  | _ => False

/-- In `is_poll_idle`, with `true` for an answer. -/
def ClientPc.Sure : ClientPc A → Prop
  | .poll (.detach _ result) => result = []
  | .polled idleStatus => idleStatus = true
  | _ => False

def Label.Bounds (u : T) : Label A T H U → Prop
  | .isPollIdle t => t = u
  | .answer t _ => t = u
  | _ => False

theorem ClientPc.Sure.asks {pc : ClientPc A} (h : pc.Sure) : pc.Asks := by
  cases pc with
  | poll | polled => trivial
  | _ => exact h.elim

variable [DecidableEq A] [DecidableEq T] [Semaphore σ]

/-! ### Exclusion -/

structure Exclusive (mqControl : A) (s : State A T H U σ) : Prop where
  one : ∀ l l', s.Uses l → s.Uses l' → l = l'
  parked : ∀ t, (s.client t).InSection → s.worker = .parked
  /-- The values of the two semaphores and the callers in the section. -/
  sum : ∀ ts : List T, ts.Nodup → (∀ t ∈ ts, (s.client t).InSection) →
    Semaphore.value s.semPause + Semaphore.value s.semResume + ts.length ≤ 1
  /-- `set_listener` does not meet `AlreadyExist`. -/
  listener : ∀ l set a rest, s.poll? l = some (.attach set (a :: rest)) →
    ∃ m, s.memory.setListener a l = some (.success, m)
  /-- A poll goes through the list as it is. -/
  through : ∀ l p, s.poll? l = some p → p.Over s.mqs
  unchanged : ∀ x s', Step mqControl s x s' → s'.mqs ≠ s.mqs → ∀ l, s.poll? l = none

variable {mqControl : A} {capacity : ℕ} {s t : State A T H U σ} {x : Label A T H U} {k : Turn T}

omit [DecidableEq A] in
theorem Token.of_uses (h : Token s k) {l : Party T} (hl : s.Uses l) : k = l.turn := by
  rcases hl with hl | ⟨rfl, hl⟩
  · obtain ⟨p, hp⟩ := Option.ne_none_iff_exists'.mp hl
    exact h.of_poll hp
  · by_contra hk
    rw [h.worker.mpr hk] at hl
    exact hl rfl

omit [DecidableEq A] in
theorem Token.sum (h : Token s k) {ts : List T} (hnodup : ts.Nodup)
    (hts : ∀ t ∈ ts, (s.client t).InSection) :
    Semaphore.value s.semPause + Semaphore.value s.semResume + ts.length ≤ 1 := by
  rw [h.pause, h.resume]
  have hk : ∀ t ∈ ts, k = .client t := fun t ht => h.of_inSection (hts t ht)
  match ts with
  | [] =>
    by_cases hp : k = .pause
    · subst hp
      simp
    · rw [if_neg hp]
      split <;> simp
  | [t] =>
    obtain rfl := hk t (by simp)
    simp
  | t :: u :: ts =>
    have he : (Turn.client t : Turn T) = .client u := (hk t (by simp)).symm.trans (hk u (by simp))
    injection he with he
    subst he
    simp at hnodup

theorem setListener_of_unheard {m : PoolMemory A T U} {a : A} (h : Unheard m a)
    (l : Party T) : ∃ m', m.setListener a l = some (.success, m') := by
  obtain ⟨q, hq, hl⟩ := h
  rw [Memory.setListener, MessageQueue.setListener, Memory.notifies_object, hq]
  simp only [Object.queue?, Option.map_some, hl]
  exact ⟨_, rfl⟩

theorem Step.mqs (hs : Step mqControl s x t) (hne : t.mqs ≠ s.mqs) : s.worker.hand ≠ [] := by
  cases hs with
  | control hw => simp [hw, WorkerPc.hand]
  | _ => exact absurd rfl hne

/-- **The pause handshake is exclusive**, among clients that push, and allocate and delete
queues. -/
theorem exclusive_run {ls : List (Label A T H U)}
    (hr : Run (pushing mqControl capacity) (.initial mqControl capacity) ls s) :
    Exclusive mqControl s := by
  have h := listening_run hr
  obtain ⟨k, hk⟩ := h.token
  refine ⟨fun l l' hl hl' => ?_, fun t ht => ?_, fun ts hnodup hts => hk.sum hnodup hts,
    fun l set a rest hp => setListener_of_unheard (h.unheard hp) l, h.attached.through,
    fun x s' hs hne l => hk.poll?_of_hand (hs.mqs hne) l⟩
  · exact Party.turn_injective ((hk.of_uses hl).symm.trans (hk.of_uses hl'))
  · rw [hk.worker, hk.of_inSection ht]
    simp

/-- The worker has met the request of a caller, and the caller polls. -/
theorem exclusive_run_one : ∃ s,
    Run (pushing 0 1) one (pausing 1 ++ [.begin (.client ())]) s ∧
      s.client () = .poll (.attach [] [0]) ∧ Exclusive 0 s := by
  have hlast : Run (system 0 1) (onePaused 1).1 [.begin (.client ())] _ :=
    .single (.beginClient rfl)
  have hrun : Run (pushing 0 1) one _ _ := ((onePaused 1).2.append hlast).of_labels
    (by simp [pausing, taking, Label.Pushes])
  exact ⟨_, hrun, rfl, exclusive_run hrun⟩

/-! ### The answer -/

/-- The worker is parked and there is nothing in any queue of `_mqs`. -/
structure State.Idle (mqControl : A) (s : State A T H U σ) : Prop where
  parked : s.worker = .parked
  control : mqControl ∈ s.mqs
  empty : ∀ a ∈ s.mqs, s.memory.messages a = []

omit [DecidableEq A] in
/-- **A caller that looks and sees nothing, sees that the pool is idle.** -/
theorem idle_instant (h : Listening mqControl capacity s) {u : T} {range : List A}
    (hu : s.client u = .poll (.wait range)) (hn : s.memory.notifications (.client u) = []) :
    s.Idle mqControl := by
  have hp : s.poll? (.client u) = some (.wait range) := poll?_client.mpr hu
  obtain ⟨k, hk⟩ := h.token
  refine ⟨?_, h.slots.registry.ledger.mem_control, h.attached.empty hp hn⟩
  rw [hk.worker, hk.of_poll hp]
  simp [Party.turn]

/-- The thread was in `is_poll_idle` and stays there, and it gets sure at the look at its
notifications. -/
structure Stays (u : T) (s : State A T H U σ) (x : Label A T H U) (t : State A T H U σ) :
    Prop where
  asks : (s.client u).Asks
  within : ¬ x.Bounds u
  sure : (t.client u).Sure → (s.client u).Sure ∨
    ∃ range, s.client u = .poll (.wait range) ∧ s.memory.notifications (.client u) = []

theorem Step.asks (hs : Step mqControl s x t) {u : T} (hu : (t.client u).Asks) :
    (x = .isPollIdle u ∧ ¬ (t.client u).Sure) ∨ Stays u s x t := by
  have other : t.client u = s.client u → ¬ x.Bounds u → Stays u s x t := fun e hb =>
    ⟨e ▸ hu, hb, fun h => .inl (e ▸ h)⟩
  -- another thread, or this one to a place outside
  have away : ∀ {v : T} {pc : ClientPc A}, t.client = Function.update s.client v pc →
      ¬ pc.Asks → (u ≠ v → ¬ x.Bounds u) → Stays u s x t := by
    intro v pc e hpc hb
    by_cases huv : u = v
    · subst huv
      rw [e, Function.update_self] at hu
      exact absurd hu hpc
    · exact other (by rw [e, Function.update_of_ne huv]) (hb huv)
  -- this thread, within
  have within : ∀ {v : T} {pc pc' : ClientPc A}, t.client = Function.update s.client v pc' →
      s.client v = pc → pc.Asks → ¬ x.Bounds u → (u = v → pc'.Sure → pc.Sure ∨
        ∃ range, pc = .poll (.wait range) ∧ s.memory.notifications (.client u) = []) →
      Stays u s x t := by
    intro v pc pc' e hv hpc hb hsure
    by_cases huv : u = v
    · subst huv
      refine ⟨by rw [hv]; exact hpc, hb, ?_⟩
      intro h
      rw [e, Function.update_self] at h
      rw [hv]
      exact hsure rfl h
    · exact other (by rw [e, Function.update_of_ne huv]) hb
  cases hs with
  | overflow | allocate | allocated | delete | removed | free | remove =>
    exact .inr (away rfl id (fun _ => id))
  | add | check => exact .inr (away rfl (by split <;> exact id) (fun _ => id))
  | @isPollIdle v =>
    by_cases huv : u = v
    · subst huv
      exact .inl ⟨rfl, by simp [State.goto, ClientPc.Sure]⟩
    · exact .inr (other (Function.update_of_ne huv ..) (Ne.symm huv))
  | paused hv | beginClient hv =>
    exact .inr (within rfl hv trivial id fun _ h => h.elim)
  | @pollClient v p p' m hv hpoll =>
    refine .inr (within rfl hv trivial id ?_)
    rintro rfl h
    cases hpoll with
    | attach | ready => exact h.elim
    | wake hl => cases hl
    | look => exact .inr ⟨_, rfl, h⟩
    | detach => exact .inl h
  | polled hv => exact .inr (within rfl hv trivial id fun _ h => .inl (List.isEmpty_iff.mp h))
  | answer hv => exact .inr (away rfl id (fun h e => h e.symm))
  | _ => exact .inr (other rfl id)

def Seen (mqControl : A) (capacity : ℕ) (u : T) (ls : List (Label A T H U))
    (s : State A T H U σ) : Prop :=
  ∃ ls₀ ls₁ ls₂ v, ls = ls₀ ++ .isPollIdle u :: (ls₁ ++ ls₂) ∧
    (∀ x ∈ ls₁ ++ ls₂, ¬ x.Bounds u) ∧
    Run (pushing mqControl capacity) (.initial mqControl capacity)
      (ls₀ ++ .isPollIdle u :: ls₁) v ∧
    Run (pushing mqControl capacity) v ls₂ s ∧ v.Idle mqControl

structure Asked (mqControl : A) (capacity : ℕ) (ls : List (Label A T H U))
    (s : State A T H U σ) : Prop where
  run : Run (pushing mqControl capacity) (.initial mqControl capacity) ls s
  asks : ∀ u, (s.client u).Asks → ∃ ls₀ ls₁, ls = ls₀ ++ .isPollIdle u :: ls₁ ∧
    ∀ x ∈ ls₁, ¬ x.Bounds u
  sure : ∀ u, (s.client u).Sure → Seen mqControl capacity u ls s

theorem Asked.step {ls : List (Label A T H U)} (h : Asked mqControl capacity ls s)
    (hx : (pushing mqControl capacity).step s x t) : Asked mqControl capacity (ls ++ [x]) t := by
  refine ⟨h.run.snoc hx, ?_, ?_⟩
  · intro u hu
    rcases hx.2.asks hu with ⟨rfl, -⟩ | ⟨hs, hb, -⟩
    · exact ⟨ls, [], rfl, by simp⟩
    · obtain ⟨ls₀, ls₁, rfl, hls⟩ := h.asks u hs
      refine ⟨ls₀, ls₁ ++ [x], by simp, ?_⟩
      intro y hy
      rcases List.mem_append.mp hy with hy | hy
      · exact hls y hy
      · rw [List.mem_singleton.mp hy]
        exact hb
  · intro u hu
    rcases hx.2.asks hu.asks with ⟨-, hn⟩ | ⟨hs, hb, hsure⟩
    · exact absurd hu hn
    rcases hsure hu with hsure | ⟨range, hw, hn⟩
    · obtain ⟨ls₀, ls₁, ls₂, v, rfl, hls, hv, hr, hidle⟩ := h.sure u hsure
      refine ⟨ls₀, ls₁, ls₂ ++ [x], v, by simp, ?_, hv, hr.snoc hx, hidle⟩
      intro y hy
      rw [← List.append_assoc] at hy
      rcases List.mem_append.mp hy with hy | hy
      · exact hls y hy
      · rw [List.mem_singleton.mp hy]
        exact hb
    · -- the instant is now
      obtain ⟨ls₀, ls₁, rfl, hls⟩ := h.asks u hs
      refine ⟨ls₀, ls₁, [x], s, by simp, ?_, h.run, .single hx,
        idle_instant (listening_run h.run) hw hn⟩
      intro y hy
      rcases List.mem_append.mp hy with hy | hy
      · exact hls y hy
      · rw [List.mem_singleton.mp hy]
        exact hb

theorem asked_run {ls : List (Label A T H U)}
    (hr : Run (pushing mqControl capacity) (.initial mqControl capacity) ls s) :
    Asked mqControl capacity ls s := by
  refine hr.history_invariant (P := Asked mqControl capacity) (fun ls s x t h hx => h.step hx)
    ⟨.nil _, fun u hu => ?_, fun u hu => ?_⟩ <;> exact hu.elim

/-- **`is_poll_idle` tells the truth**: where it returns `true`, there was an instant since it
was called at which the worker was parked and all queues of `_mqs` were empty. -/
theorem idle_true {ls : List (Label A T H U)} {u : T}
    (hr : Run (pushing mqControl capacity) (.initial mqControl capacity)
      (ls ++ [.answer u true]) t) :
    ∃ s, (pushing mqControl capacity).step s (.answer u true) t ∧
      Seen mqControl capacity u ls s := by
  obtain ⟨s, hls, hlast⟩ := Transition.Run.append_iff.mp hr
  obtain ⟨t', hx, ht⟩ := Transition.Run.cons_iff.mp hlast
  obtain rfl := Transition.Run.nil_iff.mp ht
  refine ⟨s, hx, (asked_run hls).sure u ?_⟩
  obtain ⟨-, hx⟩ := hx
  cases hx with
  | answer hu =>
    rw [hu]
    rfl

theorem idle_true_one : ∃ s t : State ℕ Unit Unit Unit ℕ, (pushing 0 1).step s (.answer () true) t ∧
    Seen 0 1 () (pausing 1 ++ [.begin (.client ()), .poll (.client ()), .poll (.client ()),
      .poll (.client ()), .poll (.client ()), .polled ()]) s := by
  have hpoll : Run (system 0 1) (onePaused 1).1
      [.begin (.client ()), .poll (.client ()), .poll (.client ()), .poll (.client ()),
        .poll (.client ()), .polled (), .answer () true] _ :=
    .cons (.beginClient rfl)
      (.cons (.pollClient rfl .attach)
      (.cons (.pollClient rfl .ready)
      (.cons (.pollClient rfl (.look (by decide)))
      (.cons (.pollClient rfl .detach)
      (.cons (.polled rfl)
      (.single (.answer rfl)))))))
  have hrun : Run (pushing 0 1) one ((pausing 1 ++ [.begin (.client ()), .poll (.client ()),
      .poll (.client ()), .poll (.client ()), .poll (.client ()), .polled ()]) ++
      [.answer () true]) _ :=
    ((onePaused 1).2.append hpoll).of_labels (by simp [pausing, taking, Label.Pushes])
  obtain ⟨s, hs, hseen⟩ := idle_true hrun
  exact ⟨s, _, hs, hseen⟩

end Mqmx.Pool
