import Mqmx.Pool.Rest

/-!
# Requests and the destructor

The destructor of the pool sends its message like any other, and the worker exits when it comes
to it.  So a request that was made before is answered, and one that is made after it never is:
`answered_until_terminate`.

The commands that the worker does not come to are those behind the message of the destructor,
and all there are when it has exited: `State.beyond`.
-/

namespace Mqmx.Pool

open Transition (System Run Settles)

variable {A T H U σ : Type}

/-- The thread made a request after the destructor had sent its message. -/
def Late [DecidableEq T] (u : T) (ls : List (Label A T H U)) : Prop :=
  ∃ l₁ x l₂, ls = l₁ ++ x :: l₂ ∧ Label.terminate ∈ l₁ ∧ x.opens u = true

theorem late_snoc [DecidableEq T] {u : T} {ls : List (Label A T H U)} {x : Label A T H U} :
    Late u (ls ++ [x]) ↔ Late u ls ∨ (Label.terminate ∈ ls ∧ x.opens u = true) := by
  constructor
  · rintro ⟨l₁, y, l₂, e, hterm, hopens⟩
    cases l₂ using List.reverseRecOn with
    | nil =>
      obtain ⟨he, hxy⟩ := List.append_inj' e rfl
      obtain rfl := List.singleton_inj.mp hxy
      rw [he]
      exact .inr ⟨hterm, hopens⟩
    | append_singleton l₂ z =>
      rw [← List.cons_append, ← List.append_assoc] at e
      obtain ⟨rfl, -⟩ := List.append_inj' e rfl
      exact .inl ⟨l₁, y, l₂, rfl, hterm, hopens⟩
  · rintro (⟨l₁, y, l₂, rfl, hterm, hopens⟩ | ⟨hterm, hopens⟩)
    · exact ⟨l₁, y, l₂ ++ [x], by simp, hterm, hopens⟩
    · exact ⟨ls, x, [], rfl, hterm, hopens⟩

theorem Late.terminate_mem [DecidableEq T] {u : T} {ls : List (Label A T H U)} (h : Late u ls) :
    Label.terminate ∈ ls := by
  obtain ⟨l₁, x, l₂, rfl, hterm, -⟩ := h
  exact List.mem_append_left _ hterm

theorem opens_iff [DecidableEq T] {u : T} {x : Label A T H U} :
    x.opens u = true ↔ ∃ r, x.command?.bind request? = some r ∧ r.sem = u := by
  cases x with
  | add t mq | remove t mq => simp [Label.opens, Label.command?, request?, Request.sem]
  | _ => simp [Label.opens, Label.command?, request?]

/-- The commands that the worker does not come to. -/
def State.beyond (mqControl : A) (s : State A T H U σ) : List (Message (Body A T U)) :=
  match s.worker with
  | .exited => s.commands mqControl
  | _ => (s.commands mqControl).dropWhile fun msg => msg.mid ≠ terminateMessageId

variable {mqControl : A} {s t : State A T H U σ}

theorem beyond_of_exited (h : s.worker = .exited) : s.beyond mqControl = s.commands mqControl := by
  rw [State.beyond, h]

theorem beyond_of_ne_exited (h : s.worker ≠ .exited) :
    s.beyond mqControl =
      (s.commands mqControl).dropWhile fun msg => msg.mid ≠ terminateMessageId := by
  unfold State.beyond
  split
  · exact absurd ‹_› h
  · rfl

theorem beyond_sublist : (s.beyond mqControl).Sublist (s.commands mqControl) := by
  by_cases h : s.worker = .exited
  · rw [beyond_of_exited h]
  · rw [beyond_of_ne_exited h]
    exact List.dropWhile_sublist _

theorem beyond_eq_nil (h : ¬ Halting mqControl s) : s.beyond mqControl = [] := by
  rw [beyond_of_ne_exited fun he => h (.inl he), List.dropWhile_eq_nil_iff]
  intro msg hmsg
  simp only [decide_eq_true_eq]
  exact fun hmid => h (.inr ⟨msg, hmsg, hmid⟩)

theorem Command.request_of_terminate {msg : Message (Body A T U)} (h : Command msg)
    (hmid : msg.mid = terminateMessageId) : request? msg = none := by
  cases h with
  | terminate | pause => rfl
  | add | remove => cases hmid

variable [DecidableEq A] [DecidableEq T] [Semaphore σ] {capacity : ℕ} {x : Label A T H U}

/-- **A request that is made after the message of the destructor gets behind it**, and what is
behind it stays there. -/
theorem Commands.beyond_step (h : Commands mqControl capacity s) (hp : x.Pushes mqControl s)
    (hs : Step mqControl s x t) (hhalt : Halting mqControl s) :
    (t.beyond mqControl).filterMap request? =
      (s.beyond mqControl).filterMap request? ++ (x.command?.bind request?).toList := by
  cases h.traffic hp hs with
  | send hx e =>
    have hsent : (x.command?.toList).filterMap request? = (x.command?.bind request?).toList := by
      cases x.command? with
      | none => rfl
      | some msg => cases hr : request? msg <;> simp [hr]
    have hexited : t.worker = .exited ↔ s.worker = .exited := by
      rw [hs.exited]
      exact ⟨fun hor => hor.resolve_right fun ⟨msg, he⟩ => hx _ _ he, .inl⟩
    by_cases he : s.worker = .exited
    · rw [beyond_of_exited he, beyond_of_exited (hexited.mpr he), e, List.filterMap_append, hsent]
    · obtain ⟨msg, hmsg, hmid⟩ := hhalt.resolve_left he
      rw [beyond_of_ne_exited he, beyond_of_ne_exited fun ht => he (hexited.mp ht), e,
        List.dropWhile_append, if_neg ?_, List.filterMap_append, hsent]
      rw [List.isEmpty_iff, List.dropWhile_eq_nil_iff]
      intro hall
      have := hall msg hmsg
      simp [hmid] at this
  | serve msg status hx e hserve =>
    subst hx
    have hcmd : Command msg := h.command msg (by rw [e]; exact List.mem_cons_self)
    have hnot : s.worker ≠ .exited := by
      cases hs with
      | control hw => rw [hw]; simp
    have hexited : t.worker = .exited ↔ msg.mid = terminateMessageId := by
      cases hs with
      | control _ _ hc => rw [← hcmd.halts hc, afterControl_exited]
    rw [beyond_of_ne_exited hnot, e]
    by_cases hmid : msg.mid = terminateMessageId
    · rw [beyond_of_exited (hexited.mpr hmid), List.dropWhile_cons_of_neg (by simp [hmid]),
        List.filterMap_cons_none (hcmd.request_of_terminate hmid)]
      simp [Label.command?]
    · rw [beyond_of_ne_exited fun ht => hmid (hexited.mp ht),
        List.dropWhile_cons_of_pos (by simp [hmid])]
      simp [Label.command?]

theorem Commands.beyond_first (h : Commands mqControl capacity s) (hp : x.Pushes mqControl s)
    (hs : Step mqControl s x t) (hno : ¬ Halting mqControl s) :
    (t.beyond mqControl).filterMap request? = [] := by
  by_cases hx : x = .terminate
  · subst hx
    have hnil := beyond_eq_nil hno
    have hne : s.worker ≠ .exited := fun he => hno (.inl he)
    have hne' : t.worker ≠ .exited := fun he => by
      rcases hs.exited.mp he with he | ⟨msg, he⟩
      · exact hne he
      · cases he
    cases h.traffic hp hs with
    | send _ e =>
      rw [beyond_of_ne_exited hne] at hnil
      rw [beyond_of_ne_exited hne', e, List.dropWhile_append, hnil]
      rfl
    | serve msg st he => cases he
  · have hno' : ¬ Halting mqControl t := fun ht =>
      ((h.halting_step hp hs).mp ht).elim hno hx
    rw [beyond_eq_nil hno']
    rfl

/-- Whose request is behind the message of the destructor. -/
structure Parted (mqControl : A) (capacity : ℕ) (ls : List (Label A T H U))
    (s : State A T H U σ) : Prop where
  commands : Commands mqControl capacity s
  halting : Halting mqControl s ↔ Label.terminate ∈ ls
  late : ∀ u, Late u ls ↔ ∃ r ∈ (s.beyond mqControl).filterMap request?, r.sem = u

theorem Parted.step {ls : List (Label A T H U)} (h : Parted mqControl capacity ls s)
    (hp : x.Pushes mqControl s) (hs : Step mqControl s x t) :
    Parted mqControl capacity (ls ++ [x]) t where
  commands := h.commands.step hp hs
  halting := by
    rw [h.commands.halting_step hp hs, h.halting, List.mem_append, List.mem_singleton, eq_comm]
  late u := by
    rw [late_snoc]
    by_cases hhalt : Halting mqControl s
    · have hterm := h.halting.mp hhalt
      rw [h.commands.beyond_step hp hs hhalt, h.late, opens_iff]
      simp [hterm, or_and_right, exists_or]
    · have hterm : Label.terminate ∉ ls := fun hmem => hhalt (h.halting.mpr hmem)
      have hlate : ¬ Late u ls := fun hl => hterm hl.terminate_mem
      rw [h.commands.beyond_first hp hs hhalt]
      simp [hterm, hlate]

theorem parted_run {ls : List (Label A T H U)}
    (hr : Run (pushing mqControl capacity) (.initial mqControl capacity) ls s) :
    Parted mqControl capacity ls s := by
  refine hr.history_invariant (S := pushing mqControl capacity)
    (P := fun ls s => Parted mqControl capacity ls s) ?_
    ⟨commands_initial mqControl capacity, ?_, ?_⟩
  · rintro ls s x t h ⟨hp, hs⟩
    exact h.step hp hs
  · simp [Halting, State.commands, State.initial, WorkerPc.handOf, Memory.messages]
  · intro u
    have hno : ¬ Late u ([] : List (Label A T H U)) := fun hl => List.not_mem_nil hl.terminate_mem
    simp [hno, State.beyond, State.commands, State.initial, WorkerPc.handOf, Memory.messages]

omit [DecidableEq A] in
theorem Parted.waits {ls : List (Label A T H U)} (h : Parted mqControl capacity ls s) {u : T}
    (hl : Late u ls) : (s.client u).Waits := by
  obtain ⟨r, hr, rfl⟩ := (h.late u).mp hl
  have hmem : r ∈ s.requests mqControl := by
    rw [h.commands.requests]
    exact (beyond_sublist.filterMap request?).subset hr
  have hpc : s.client r.sem = r.pc := (h.commands.listening.slots.registry.ledger.waits r hmem).1
  rw [hpc]
  exact r.pc_waits

omit [DecidableEq A] [DecidableEq T] [Semaphore σ] in
theorem ClientPc.Waits.request {u : T} (h : (s.client u).Waits) :
    ∃ r : Request A T, r.sem = u ∧ s.client r.sem = r.pc := by
  cases hpc : s.client u with
  | added mq => exact ⟨.add mq u, rfl, hpc⟩
  | removed mq => exact ⟨.remove mq u, rfl, hpc⟩
  | _ =>
    rw [hpc] at h
    exact h.elim

/-- **A request is answered if it was made before the message of the destructor, and never if it
was made after it.**  Who made it too late is still waiting in every state that follows, and
when no more calls are made all others return. -/
theorem answered_until_terminate {ls : List (Label A T H U)}
    (hr : Run (pushing mqControl capacity) (.initial mqControl capacity) ls s) :
    (∀ u, Late u ls → (s.client u).Waits) ∧
    ∃ n, Settles (finishing mqControl capacity) s n fun l t =>
      ∀ u, (t.client u).Waits ↔ Late u (ls ++ l) := by
  refine ⟨fun u => (parted_run hr).waits, ?_⟩
  obtain ⟨n, hn⟩ := settles_run hr
  refine ⟨n, hn.bounded, fun l t hl hno u => ?_⟩
  obtain ⟨hfin, hor⟩ := hn.rests l t hl hno
  have hparted := parted_run hfin.run
  refine ⟨fun hu => ?_, hparted.waits⟩
  have hidle : ¬ (t.client u = .idle ∨ t.client u = .aborted) := by
    rintro (e | e) <;> exact (e ▸ hu : ClientPc.Waits _)
  rcases hor with he | hrest
  · -- the worker has left, and the request was not answered
    obtain ⟨r, rfl, hpc⟩ := hu.request
    have hstuck : Stuck mqControl t := fun x v hs hx => hno x v ⟨hx, hs⟩
    rcases (working_run hfin.run).client_stuck hstuck r.sem with hi | ⟨-, hv⟩ | ⟨hp, -⟩
    · exact absurd hi hidle
    · have hmem := ((answered_run hfin.run).waits r hpc).resolve_right (by omega)
      rw [hparted.commands.requests, ← beyond_of_exited he] at hmem
      exact (hparted.late _).mpr ⟨r, hmem, rfl⟩
    · rw [hp] at hu
      exact hu.elim
  · exact absurd (hrest.idle u) hidle

/-- A queue that is being taken in when the destructor has begun. -/
theorem answered_until_terminate_one : ∃ (s : State ℕ Unit Unit Unit ℕ) (n : ℕ),
    Run (pushing 0 1) one [.allocate () () 1 1, .terminate, .add () 1] s ∧
    (s.client ()).Waits ∧ Settles (finishing 0 1) s n fun l t =>
      ∀ u, (t.client u).Waits ↔ Late u ([.allocate () () 1 1, .terminate, .add () 1] ++ l) := by
  have hrun : Run (pushing 0 1) one [.allocate () () 1 1, .terminate, .add () 1] _ :=
    .cons ⟨trivial, .allocate rfl (by decide) rfl⟩
      (.cons ⟨trivial, .terminate rfl⟩ (.single ⟨trivial, .add rfl rfl⟩))
  obtain ⟨hlate, n, hn⟩ := answered_until_terminate hrun
  exact ⟨_, n, hrun, hlate () ⟨[.allocate () () 1 1, .terminate], _, [], rfl, by simp, rfl⟩, hn⟩

end Mqmx.Pool
