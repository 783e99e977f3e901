import Mathlib.Data.List.Nodup
import Mqmx.Pool.Calls

/-!
# The ledger of the pool

What matters of a pool to who is in `_mqs`: the list, the requests on their way to the
worker, where each thread is with which queue, and the semaphores of the requests.
`Ledger.Step` has the moves of the protocol: a queue is made, asked in, taken in, handed to
a client; it is handed back, found in the table, asked out, taken out, deleted.

`Ledger.Valid` is kept by every move (`Valid.step`).  In it a queue that is about to be
deleted is not in the list: provided it was found, since the protocol has no move for one
that was not.
-/

namespace Mqmx.Pool

variable {A T : Type}

structure Ledger (A T : Type) where
  mqs : List A
  held : A → Bool
  pooled : A → Bool
  client : T → ClientPc A
  /-- The values of the semaphores. -/
  value : T → ℕ
  requests : List (Request A T)

/-- What becomes of queues. -/
inductive Change (A : Type)
  | none
  | made (a : A)
  | deleted (a : A)

namespace Ledger

/-- A queue nobody has heard of. -/
structure Fresh (l : Ledger A T) (a : A) : Prop where
  mqs : a ∉ l.mqs
  held : l.held a = false
  client : ∀ t, (l.client t).queue? ≠ some a

/-- The pool refers to the queue, or a thread in one of its functions does. -/
def Owns (l : Ledger A T) (a : A) : Prop := a ∈ l.mqs ∨ ∃ t, (l.client t).queue? = some a

variable [DecidableEq A] [DecidableEq T]

def goto (t : T) (pc : ClientPc A) (l : Ledger A T) : Ledger A T :=
  { l with client := Function.update l.client t pc }

/-- One move, and the queue that is made or deleted by it. -/
inductive Step : Ledger A T → Change A → Ledger A T → Prop
  | quiet {l l' : Ledger A T} : l'.mqs = l.mqs → l'.held = l.held → l'.pooled = l.pooled →
      l'.value = l.value →
      (∀ t, l'.client t = l.client t ∨
        ((l.client t).queue? = none ∧ (l'.client t).queue? = none)) →
      l'.requests.Sublist l.requests → Step l .none l'
  | allocate {l : Ledger A T} {t : T} {a : A} : (l.client t).queue? = none → l.Fresh a →
      Step l (.made a) { l.goto t (.adding a) with pooled := Function.update l.pooled a true }
  | add {l : Ledger A T} {t : T} {a : A} : l.client t = .adding a →
      Step l .none
        { l.goto t (.added a) with
          value := Function.update l.value t 0
          requests := l.requests ++ [.add a t] }
  | takeIn {l : Ledger A T} {t : T} {a : A} {rest : List (Request A T)} {mqs : List A} :
      l.requests = .add a t :: rest → mqs.Perm (a :: l.mqs) → mqs.head? = l.mqs.head? →
      Step l .none
        { l with
          mqs := mqs
          requests := rest
          value := Function.update l.value t (l.value t + 1) }
  | allocated {l : Ledger A T} {t : T} {a : A} : l.client t = .added a → l.value t ≠ 0 →
      Step l .none
        { l.goto t .idle with
          value := Function.update l.value t (l.value t - 1)
          held := Function.update l.held a true }
  | delete {l : Ledger A T} {t : T} {a : A} : (l.client t).queue? = none → l.held a = true →
      Step l .none { l.goto t (.checking a) with held := Function.update l.held a false }
  | found {l : Ledger A T} {t : T} {a : A} : l.client t = .checking a →
      Step l .none (l.goto t (.removing a))
  | remove {l : Ledger A T} {t : T} {a : A} : l.client t = .removing a →
      Step l .none
        { l.goto t (.removed a) with
          value := Function.update l.value t 0
          requests := l.requests ++ [.remove a t] }
  | takeOut {l : Ledger A T} {t : T} {a : A} {rest : List (Request A T)} :
      l.requests = .remove a t :: rest →
      Step l .none
        { l with
          mqs := l.mqs.erase a
          requests := rest
          value := Function.update l.value t (l.value t + 1) }
  | removed {l : Ledger A T} {t : T} {a : A} : l.client t = .removed a → l.value t ≠ 0 →
      Step l .none
        { l.goto t (.freeing a) with value := Function.update l.value t (l.value t - 1) }
  | free {l : Ledger A T} {t : T} {a : A} : l.client t = .freeing a →
      Step l (.deleted a) (l.goto t .idle)

/-! ### The invariant -/

omit [DecidableEq A] [DecidableEq T]

/-- Whether the queue a thread is at is in the list. -/
def Placed (mqs : List A) (value : ℕ) : ClientPc A → Prop
  | .adding a => a ∉ mqs
  | .added a => value ≠ 0 → a ∈ mqs
  | .checking a => a ∈ mqs
  | .removing a => a ∈ mqs
  | .removed a => value ≠ 0 → a ∉ mqs
  | .freeing a => a ∉ mqs
  | _ => True

/-- Who has which queue: at most one thread, or a client with its pointer. -/
structure Owned (mqControl : A) (l : Ledger A T) : Prop where
  head : l.mqs.head? = some mqControl
  nodup : l.mqs.Nodup
  held : ∀ a, l.held a = true → a ∈ l.mqs ∧ ∀ t, (l.client t).queue? ≠ some a
  one : ∀ t u a, (l.client t).queue? = some a → (l.client u).queue? = some a → t = u
  pooled : ∀ a, (a ∈ l.mqs ∧ a ≠ mqControl) ∨ l.held a = true ∨
    (∃ t, (l.client t).queue? = some a) → l.pooled a = true
  control : l.pooled mqControl = false

/-- A request is on its way once, its sender waits for it, and it is not served yet. -/
structure Valid (mqControl : A) (l : Ledger A T) : Prop extends Owned mqControl l where
  once : (l.requests.map Request.sem).Nodup
  waits : ∀ r ∈ l.requests, l.client r.sem = r.pc ∧ l.value r.sem = 0
  fresh : ∀ a t, Request.add a t ∈ l.requests → a ∉ l.mqs
  placed : ∀ t, Placed l.mqs (l.value t) (l.client t)

theorem placed_of_queue?_eq_none {pc : ClientPc A} (h : pc.queue? = none) (mqs : List A)
    (value : ℕ) : Placed mqs value pc := by
  cases pc with
  | adding | added | checking | removing | removed | freeing => cases h
  | _ => trivial

@[simp] theorem pc_queue? (r : Request A T) :
    r.pc.queue? = some (match r with | .add a _ => a | .remove a _ => a) := by
  cases r <;> rfl

theorem Owned.mem_control {mqControl : A} {l : Ledger A T} (h : l.Owned mqControl) :
    mqControl ∈ l.mqs := List.mem_of_mem_head? h.head

theorem Owned.ne_control {mqControl : A} {l : Ledger A T} (h : l.Owned mqControl) {t : T} {a : A}
    (ha : (l.client t).queue? = some a) : a ≠ mqControl := by
  rintro rfl
  have := h.pooled a (.inr (.inr ⟨t, ha⟩))
  rw [h.control] at this
  cases this

theorem Owned.congr {mqControl : A} {l l' : Ledger A T} (h : l.Owned mqControl)
    (hmqs : l'.mqs = l.mqs) (hheld : l'.held = l.held) (hpooled : l'.pooled = l.pooled)
    (hq : ∀ t, (l'.client t).queue? = (l.client t).queue?) : l'.Owned mqControl := by
  refine ⟨by rw [hmqs]; exact h.head, by rw [hmqs]; exact h.nodup, ?_, ?_, ?_,
    by rw [hpooled]; exact h.control⟩
  · intro a ha
    rw [hheld] at ha
    rw [hmqs]
    refine ⟨(h.held a ha).1, ?_⟩
    intro t
    rw [hq]
    exact (h.held a ha).2 t
  · intro t u a ht hu
    rw [hq] at ht hu
    exact h.one t u a ht hu
  · intro a ha
    rw [hpooled]
    simp only [hmqs, hheld, hq] at ha
    exact h.pooled a ha

theorem Valid.sem_ne {mqControl : A} {l : Ledger A T} (h : l.Valid mqControl) {t : T}
    (hpc : ∀ r : Request A T, l.client t ≠ r.pc) : ∀ r ∈ l.requests, r.sem ≠ t := by
  rintro r hr rfl
  exact hpc r (h.waits r hr).1

theorem Valid.quiet {mqControl : A} {l l' : Ledger A T} (h : l.Valid mqControl)
    (hmqs : l'.mqs = l.mqs) (hheld : l'.held = l.held) (hpooled : l'.pooled = l.pooled)
    (hvalue : l'.value = l.value)
    (hclient : ∀ t, l'.client t = l.client t ∨
      ((l.client t).queue? = none ∧ (l'.client t).queue? = none))
    (hreq : l'.requests.Sublist l.requests) : l'.Valid mqControl := by
  have hq : ∀ t, (l'.client t).queue? = (l.client t).queue? := by
    intro t
    rcases hclient t with e | ⟨e, e'⟩
    · rw [e]
    · rw [e, e']
  refine ⟨h.toOwned.congr hmqs hheld hpooled hq, h.once.sublist (hreq.map _), ?_, ?_, ?_⟩
  · intro r hr
    obtain ⟨h1, h2⟩ := h.waits r (hreq.subset hr)
    refine ⟨?_, by rw [hvalue]; exact h2⟩
    rcases hclient r.sem with e | ⟨e, -⟩
    · rw [e, h1]
    · rw [h1, pc_queue?] at e
      cases e
  · intro a t hr
    rw [hmqs]
    exact h.fresh a t (hreq.subset hr)
  · intro t
    rw [hmqs, hvalue]
    rcases hclient t with e | ⟨-, e⟩
    · rw [e]
      exact h.placed t
    · exact placed_of_queue?_eq_none e _ _

section Moves

variable [DecidableEq T] {mqControl : A} {l : Ledger A T} {t : T} {a : A}

@[simp, grind =] theorem goto_mqs (pc : ClientPc A) : (l.goto t pc).mqs = l.mqs := rfl

@[simp, grind =] theorem goto_client (pc : ClientPc A) (u : T) :
    (l.goto t pc).client u = if u = t then pc else l.client u := Function.update_apply ..

theorem Owned.goto (h : l.Owned mqControl) {pc : ClientPc A} (ht : (l.client t).queue? = some a)
    (hpc : pc.queue? = some a) {value : T → ℕ} {requests : List (Request A T)} :
    Owned mqControl { l.goto t pc with value := value, requests := requests } := by
  refine h.congr rfl rfl rfl fun u => ?_
  simp only [Ledger.goto, Function.update_apply]
  split
  · rename_i e
    rw [e, hpc, ht]
  · rfl

theorem Valid.add (h : l.Valid mqControl) (ht : l.client t = .adding a) :
    Valid mqControl { l.goto t (.added a) with
      value := Function.update l.value t 0
      requests := l.requests ++ [.add a t] } := by
  have hsem := h.sem_ne (t := t) (by rw [ht]; rintro (_ | _) ⟨⟩)
  have hp := h.placed t
  rw [ht] at hp
  refine ⟨h.toOwned.goto (by rw [ht]; rfl) rfl, ?_, ?_, ?_, ?_⟩
  · rw [List.map_append, List.nodup_append]
    exact ⟨h.once, by simp, by grind [Request.sem]⟩
  all_goals simp only [Ledger.goto, Function.update_apply]
  · have := h.waits
    grind [Request.sem, Request.pc]
  · have := h.fresh
    grind [Placed]
  · have := h.placed
    grind [Placed]

theorem Valid.found (h : l.Valid mqControl) (ht : l.client t = .checking a) :
    Valid mqControl (l.goto t (.removing a)) := by
  have hsem := h.sem_ne (t := t) (by rw [ht]; rintro (_ | _) ⟨⟩)
  have hp := h.placed t
  rw [ht] at hp
  refine ⟨h.toOwned.goto (by rw [ht]; rfl) rfl, h.once, ?_, h.fresh, ?_⟩
  all_goals simp only [Ledger.goto, Function.update_apply]
  · have := h.waits
    grind
  · have := h.placed
    grind [Placed]

theorem Valid.remove (h : l.Valid mqControl) (ht : l.client t = .removing a) :
    Valid mqControl { l.goto t (.removed a) with
      value := Function.update l.value t 0
      requests := l.requests ++ [.remove a t] } := by
  have hsem := h.sem_ne (t := t) (by rw [ht]; rintro (_ | _) ⟨⟩)
  refine ⟨h.toOwned.goto (by rw [ht]; rfl) rfl, ?_, ?_, ?_, ?_⟩
  · rw [List.map_append, List.nodup_append]
    exact ⟨h.once, by simp, by grind [Request.sem]⟩
  all_goals simp only [Ledger.goto, Function.update_apply]
  · have := h.waits
    grind [Request.sem, Request.pc]
  · have := h.fresh
    grind
  · have := h.placed
    grind [Placed]

theorem Valid.removed (h : l.Valid mqControl) (ht : l.client t = .removed a)
    (hv : l.value t ≠ 0) :
    Valid mqControl { l.goto t (.freeing a) with
      value := Function.update l.value t (l.value t - 1) } := by
  have hp := h.placed t
  rw [ht] at hp
  refine ⟨h.toOwned.goto (by rw [ht]; rfl) rfl, h.once, ?_, h.fresh, ?_⟩
  all_goals simp only [Ledger.goto, Function.update_apply]
  · have := h.waits
    grind
  · have := h.placed
    grind [Placed]

theorem Valid.free (h : l.Valid mqControl) (ht : l.client t = .freeing a) :
    Valid mqControl (l.goto t .idle) := by
  have hsem := h.sem_ne (t := t) (by rw [ht]; rintro (_ | _) ⟨⟩)
  refine ⟨⟨h.head, h.nodup, ?_, ?_, ?_, h.control⟩, h.once, ?_, h.fresh, ?_⟩
  all_goals simp only [Ledger.goto, Function.update_apply]
  · have := h.held
    grind [ClientPc.queue?]
  · have := h.one
    grind [ClientPc.queue?]
  · have := h.pooled
    grind [ClientPc.queue?]
  · have := h.waits
    grind
  · have := h.placed
    grind [Placed]

section Take

variable {rest : List (Request A T)}

omit [DecidableEq T] in
theorem Valid.served (h : l.Valid mqControl) {r : Request A T} (hr : l.requests = r :: rest) :
    (rest.map Request.sem).Nodup ∧ (∀ q ∈ rest, q.sem ≠ r.sem) ∧ l.client r.sem = r.pc ∧
      l.value r.sem = 0 := by
  have honce := h.once
  rw [hr, List.map_cons, List.nodup_cons] at honce
  refine ⟨honce.2, fun q hq e => honce.1 ?_, h.waits r (by rw [hr]; exact List.mem_cons_self)⟩
  rw [← e]
  exact List.mem_map_of_mem hq

theorem Valid.takeIn (h : l.Valid mqControl) {mqs : List A}
    (hr : l.requests = .add a t :: rest) (hperm : mqs.Perm (a :: l.mqs))
    (hhead : mqs.head? = l.mqs.head?) :
    Valid mqControl { l with
      mqs := mqs
      requests := rest
      value := Function.update l.value t (l.value t + 1) } := by
  obtain ⟨honce, hne, hpc, hv⟩ := h.served hr
  have hne : ∀ q ∈ rest, q.sem ≠ t := hne
  have hv : l.value t = 0 := hv
  have hmem : ∀ b, b ∈ mqs ↔ b = a ∨ b ∈ l.mqs := fun b => by rw [hperm.mem_iff, List.mem_cons]
  have ha : a ∉ l.mqs := h.fresh a t (by rw [hr]; exact List.mem_cons_self)
  have hat : (l.client t).queue? = some a := by
    have : l.client t = .added a := hpc
    rw [this]; rfl
  refine ⟨⟨hhead.trans h.head, ?_, ?_, h.one, ?_, h.control⟩, honce, ?_, ?_, ?_⟩
  · rw [hperm.nodup_iff]
    exact List.nodup_cons.mpr ⟨ha, h.nodup⟩
  · intro b hb
    exact ⟨(hmem b).mpr (.inr (h.held b hb).1), (h.held b hb).2⟩
  · intro b hb
    apply h.pooled b
    simp only [hmem] at hb
    grind
  · have := h.waits
    simp only [Function.update_apply]
    grind
  · intro b u hb
    have hb' := h.fresh b u (by rw [hr]; exact List.mem_cons_of_mem _ hb)
    rw [hmem]
    rintro (rfl | hb'')
    · -- two threads at one queue
      have hu : l.client u = .added b :=
        (h.waits (.add b u) (by rw [hr]; exact List.mem_cons_of_mem _ hb)).1
      exact hne _ hb (h.one u t b (by rw [hu]; rfl) hat)
    · exact hb' hb''
  · intro u
    have hp := h.placed u
    have hone := h.one u t a
    simp only [Function.update_apply]
    cases hc : l.client u with
    | adding | added | checking | removing | removed | freeing =>
      rw [hc] at hp hone
      simp only [Placed, hmem, ClientPc.queue?] at hp hone ⊢
      grind [Request.sem, Request.pc]
    | _ => trivial

theorem Valid.takeOut [DecidableEq A] (h : l.Valid mqControl)
    (hr : l.requests = .remove a t :: rest) :
    Valid mqControl { l with
      mqs := l.mqs.erase a
      requests := rest
      value := Function.update l.value t (l.value t + 1) } := by
  obtain ⟨honce, hne, hpc, hv⟩ := h.served hr
  have hne : ∀ q ∈ rest, q.sem ≠ t := hne
  have hv : l.value t = 0 := hv
  have hat : (l.client t).queue? = some a := by
    have : l.client t = .removed a := hpc
    rw [this]; rfl
  have hmem : ∀ b, b ∈ l.mqs.erase a ↔ b ≠ a ∧ b ∈ l.mqs := fun b => h.nodup.mem_erase_iff
  refine ⟨⟨?_, h.nodup.erase a, ?_, h.one, ?_, h.control⟩, honce, ?_, ?_, ?_⟩
  · -- the control queue is nobody's
    have hc := h.ne_control hat
    have hhead := h.head
    cases hm : l.mqs with
    | nil => rw [hm] at hhead; cases hhead
    | cons c v =>
      rw [hm] at hhead
      obtain rfl : c = mqControl := by simpa using hhead
      rw [List.erase_cons_tail (by simpa using Ne.symm hc)]
      rfl
  · intro b hb
    obtain ⟨h1, h2⟩ := h.held b hb
    refine ⟨(hmem b).mpr ⟨?_, h1⟩, h2⟩
    rintro rfl
    exact h2 t hat
  · intro b hb
    apply h.pooled b
    simp only [hmem] at hb
    grind
  · have := h.waits
    simp only [Function.update_apply]
    grind
  · intro b u hb
    rw [hmem]
    exact fun hb' => h.fresh b u (by rw [hr]; exact List.mem_cons_of_mem _ hb) hb'.2
  · intro u
    have hp := h.placed u
    have hone := h.one u t
    simp only [Function.update_apply]
    cases hc : l.client u with
    | adding | added | checking | removing | removed | freeing =>
      rw [hc] at hp hone
      simp only [Placed, hmem, ClientPc.queue?] at hp hone ⊢
      grind [Request.sem, Request.pc, ClientPc.queue?]
    | _ => trivial

end Take

section Hold

variable [DecidableEq A]

theorem Valid.allocate (h : l.Valid mqControl) (ht : (l.client t).queue? = none)
    (ha : l.Fresh a) : Valid mqControl { l.goto t (.adding a) with
      pooled := Function.update l.pooled a true } := by
  obtain ⟨ha1, ha2, ha3⟩ := ha
  have hc := h.mem_control
  refine ⟨⟨h.head, h.nodup, ?_, ?_, ?_, ?_⟩, h.once, ?_, h.fresh, ?_⟩
  all_goals simp only [Ledger.goto, Function.update_apply]
  · have := h.held
    grind [ClientPc.queue?]
  · have := h.one
    grind [ClientPc.queue?]
  · have := h.pooled
    grind [ClientPc.queue?]
  · have := h.control
    grind
  · have := h.waits
    grind [pc_queue?]
  · have := h.placed
    grind [Placed]

theorem Valid.allocated (h : l.Valid mqControl) (ht : l.client t = .added a)
    (hv : l.value t ≠ 0) :
    Valid mqControl { l.goto t .idle with
      value := Function.update l.value t (l.value t - 1)
      held := Function.update l.held a true } := by
  have hp := h.placed t
  rw [ht] at hp
  have ha : a ∈ l.mqs := hp hv
  have hat : (l.client t).queue? = some a := by rw [ht]; rfl
  refine ⟨⟨h.head, h.nodup, ?_, ?_, ?_, h.control⟩, h.once, ?_, h.fresh, ?_⟩
  all_goals simp only [Ledger.goto, Function.update_apply]
  · have := h.held
    have := h.one
    grind [ClientPc.queue?]
  · have := h.one
    grind [ClientPc.queue?]
  · have := h.pooled
    grind [ClientPc.queue?]
  · have := h.waits
    grind
  · have := h.placed
    grind [Placed]

theorem Valid.delete (h : l.Valid mqControl) (ht : (l.client t).queue? = none)
    (ha : l.held a = true) :
    Valid mqControl { l.goto t (.checking a) with held := Function.update l.held a false } := by
  obtain ⟨hmem, hno⟩ := h.held a ha
  refine ⟨⟨h.head, h.nodup, ?_, ?_, ?_, h.control⟩, h.once, ?_, h.fresh, ?_⟩
  all_goals simp only [Ledger.goto, Function.update_apply]
  · have := h.held
    grind [ClientPc.queue?]
  · have := h.one
    grind [ClientPc.queue?]
  · have := h.pooled
    grind [ClientPc.queue?]
  · have := h.waits
    grind [pc_queue?]
  · have := h.placed
    grind [Placed]

/-- **Every move keeps the ledger valid.** -/
theorem Valid.step {l' : Ledger A T} {c : Change A} (h : l.Valid mqControl)
    (hs : Step l c l') : l'.Valid mqControl := by
  cases hs with
  | quiet h1 h2 h3 h4 h5 h6 => exact h.quiet h1 h2 h3 h4 h5 h6
  | allocate ht ha => exact h.allocate ht ha
  | add ht => exact h.add ht
  | takeIn hr hp hh => exact h.takeIn hr hp hh
  | allocated ht hv => exact h.allocated ht hv
  | delete ht ha => exact h.delete ht ha
  | found ht => exact h.found ht
  | remove ht => exact h.remove ht
  | takeOut hr => exact h.takeOut hr
  | removed ht hv => exact h.removed ht hv
  | free ht => exact h.free ht

/-- **What the pool still refers to was made and not deleted.** -/
theorem Valid.owns {l' : Ledger A T} {c : Change A} (h : l.Valid mqControl) (hs : Step l c l')
    {b : A} (hb : l'.Owns b) : c = .made b ∨ (l.Owns b ∧ c ≠ .deleted b) := by
  unfold Owns at hb ⊢
  cases hs with
  | quiet hmqs _ _ _ hclient _ =>
    rw [hmqs] at hb
    refine .inr ⟨hb.imp id fun ⟨u, hu⟩ => ⟨u, ?_⟩, by simp⟩
    rcases hclient u with e | ⟨-, e⟩
    · rw [← e]; exact hu
    · rw [e] at hu; cases hu
  | takeIn hr hperm =>
    have hpc := (h.served hr).2.2.1
    rw [hperm.mem_iff, List.mem_cons] at hb
    grind [Request.sem, Request.pc, ClientPc.queue?]
  | takeOut => grind [List.mem_of_mem_erase]
  | @delete t a ht ha =>
    have hmem := (h.held a ha).1
    grind [ClientPc.queue?]
  | @free t a ht =>
    have hp := h.placed t
    rw [ht] at hp
    have hone := h.one t
    grind [Placed, ClientPc.queue?]
  | _ => grind [ClientPc.queue?]

theorem Valid.leaving {l' : Ledger A T} {c : Change A} (h : l.Valid mqControl)
    (hl : ∀ b u, Request.remove b u ∈ l.requests → b ∈ l.mqs) (hs : Step l c l') :
    ∀ b u, Request.remove b u ∈ l'.requests → b ∈ l'.mqs := by
  intro b u hb
  cases hs with
  | quiet hmqs _ _ _ _ hreq =>
    rw [hmqs]
    exact hl b u (hreq.subset hb)
  | takeIn hr hperm =>
    apply hperm.mem_iff.mpr
    exact List.mem_cons_of_mem _ (hl b u (by rw [hr]; exact List.mem_cons_of_mem _ hb))
  | @remove t a ht =>
    rcases List.mem_append.mp hb with hb | hb
    · exact hl b u hb
    · cases List.mem_singleton.mp hb
      have hp := h.placed u
      rwa [ht] at hp
  | add =>
    rcases List.mem_append.mp hb with hb | hb
    · exact hl b u hb
    · cases List.mem_singleton.mp hb
  | @takeOut t a rest hr =>
    have hmem : Request.remove b u ∈ l.requests := by
      rw [hr]
      exact List.mem_cons_of_mem _ hb
    obtain ⟨-, hne, hpc, -⟩ := h.served hr
    have hu : l.client u = .removed b := (h.waits _ hmem).1
    have ht : l.client t = .removed a := hpc
    refine h.nodup.mem_erase_iff.mpr ⟨?_, hl b u hmem⟩
    -- no other thread is at the queue that goes
    rintro rfl
    exact hne _ hb (h.one u t b (by rw [hu]; rfl) (by rw [ht]; rfl))
  | _ => exact hl b u hb

end Hold

end Moves

end Ledger

end Mqmx.Pool
