/-
  NgxTickle.Task.AsyncTask — the `async_task` crate as `src/spawn.rs` relies on it. The
  crate is not part of the repository, so it is a parameter: a `State` of a task, what
  each operation makes of it, and whether the operation hands the task's Runnable to the
  schedule function. What is assumed of it is what its documentation says about four
  bits of that state (`Bits`):

  - `scheduled`: the Runnable is queued, or will be once the poll in progress returns;
  - `running`: the future is being polled, or dropped after that poll;
  - `completed`, `closed`: the output is stored; the task is cancelled, or its output is
    taken.

  An operation on a Waker or on a Task never polls or drops the future: all it can do
  is close the task, take the output, or hand over the Runnable, and only an idle
  unfinished task's (`op_over`, `op_keeps`). While its Task is kept, only the operations
  on that close it, and its output is stored for them (`Handled`, `pollTask`).

  The other part of the state is who refers to the task: its Task, a Runnable, and the
  Wakers, which are cloned and dropped. Where the last reference to an idle unfinished
  task goes, the drop of a Waker or a `detach` closes it and hands its Runnable over
  once more (`LastRef`). `counted` counts the references as the crate does; `plain` is
  a task to which a Waker is always kept.
-/

import Mathlib.Init

namespace NgxTickle.Task

structure Bits where
  scheduled : Bool
  running : Bool
  completed : Bool
  closed : Bool
  deriving DecidableEq, Repr

/-- The operations on a Waker (`wake` by reference, `clone`, `dropWaker`; a `wake` by value
    is a wake and a drop) and on a Task: the first poll of `Task::cancel`, its `Drop`,
    `Task::detach` and a poll of the handle. -/
inductive Op where
  | wake
  | clone
  | dropWaker
  | cancel
  | drop
  | detach
  | poll
  deriving DecidableEq, Repr

def Op.onWaker : Op → Bool
  | .wake | .clone | .dropWaker => true
  | _ => false

/-- Why a future is dropped: its task was closed before the run, or while it was being
    polled; it returned Ready; or its Runnable is dropped unrun. -/
inductive Why where
  | closed
  | pending
  | ready
  | runnable
  deriving DecidableEq, Repr

inductive Poll (α : Type) where
  | pending
  | ready (a : α)
  deriving DecidableEq, Repr

namespace Bits

def fresh : Bits := ⟨true, false, false, false⟩

/-- The Runnable is neither queued nor running, and the future not finished. -/
def Idle (b : Bits) : Prop := b = ⟨false, false, false, false⟩

instance (b : Bits) : Decidable b.Idle := inferInstanceAs (Decidable (b = _))

/-- The future is gone, or about to be: nothing is to be polled any more. -/
def done (b : Bits) : Bool := b.completed || b.closed

def wake (b : Bits) : Bits × Bool :=
  if b.done || b.scheduled then (b, false) else ({ b with scheduled := true }, !b.running)

def close (b : Bits) : Bits × Bool :=
  if b.done then (b, false)
  else if b.scheduled || b.running then ({ b with closed := true }, false)
  else ({ b with scheduled := true, closed := true }, true)

/-- Take a stored output. -/
def take (b : Bits) : Bits := if b.completed then { b with closed := true } else b

/-- The operation on the bits, and whether the Runnable is handed over. -/
def op (b : Bits) : Op → Bits × Bool
  | .wake => b.wake
  | .clone | .dropWaker => (b, false)
  | .cancel => b.close
  | .drop => (b.close.1.take, b.close.2)
  | .detach | .poll => (b.take, false)

/-- `Runnable::run` begins: a closed task is not polled. -/
def begin (b : Bits) : Bits × Bool :=
  if b.closed then (b, false) else ({ b with scheduled := false, running := true }, true)

/-- The poll returned Pending and the task is not closed: a wake during the poll hands
    the Runnable over again. -/
def pending (b : Bits) : Bits × Bool := ({ b with running := false }, b.scheduled)

/-- The future is dropped. -/
def dropped (b : Bits) : Why → Bits
  | .ready => { b with scheduled := false, running := false, completed := true }
  | _ => { b with scheduled := false, running := false }

/-- What a poll of the Task finds. A closed task is waited for until its future is
    dropped; a completed one has its output `out` to give, once. -/
def pollTask {V : Type} (b : Bits) (out : Option V) : Poll (Option V) :=
  if b.closed then if b.scheduled || b.running then .pending else .ready none
  else if b.completed then .ready out
  else .pending

theorem take_closed (b : Bits) : b.take.closed = (b.closed || b.completed) := by
  unfold take
  cases b.completed <;> simp

/-- A poll is ready once the task is closed and its future dropped, or with its output. -/
theorem pollTask_ready {V : Type} {b : Bits} {out res : Option V} (h : b.pollTask out = .ready res) :
    b.closed = true ∧ b.scheduled = false ∧ b.running = false ∧ res = none ∨
      b.closed = false ∧ b.completed = true ∧ res = out := by
  unfold pollTask at h
  cases hc : b.closed with
  | true =>
    rw [hc] at h
    cases hs : b.scheduled <;> cases hr : b.running <;> simp [hs, hr] at h
    exact Or.inl ⟨rfl, rfl, rfl, h.symm⟩
  | false =>
    rw [hc] at h
    cases hm : b.completed <;> simp [hm] at h
    exact Or.inr ⟨rfl, rfl, h.symm⟩

/-- While the output is stored and not taken, a poll gives it. -/
theorem pollTask_stored {V : Type} {b : Bits} {out : Option V} (hc : b.closed = false) (hm : b.completed = true) :
    b.pollTask out = .ready out := by
  simp [pollTask, hc, hm]

end Bits

/-- Dropping the last reference to a detached idle task closes it and hands its Runnable
    over once more. -/
def Op.LastRef (o : Op) (b b' : Bits) (handed : Bool) : Prop :=
  (o = .dropWaker ∨ o = .detach) ∧ b.Idle ∧ b' = ⟨true, false, false, true⟩ ∧ handed = true

structure AsyncTask where
  State : Type
  bits : State → Bits
  /-- `spawn_unchecked`. -/
  spawn : State
  op : State → Op → State × Bool
  /-- `Runnable::run` up to the poll, and whether it polls. -/
  begin : State → State × Bool
  pending : State → State × Bool
  dropped : State → Why → State
  spawn_bits : bits spawn = .fresh
  op_bits : ∀ s o, (bits (op s o).1, (op s o).2) = (bits s).op o ∨ o.LastRef (bits s) (bits (op s o).1) (op s o).2
  begin_bits : ∀ s, (bits (begin s).1, (begin s).2) = (bits s).begin
  pending_bits : ∀ s, (bits s).closed = false → (bits (pending s).1, (pending s).2) = (bits s).pending
  /-- A completed task without a handle is closed as well. -/
  dropped_bits : ∀ s why, bits (dropped s why) = (bits s).dropped why ∨
    why = .ready ∧ bits (dropped s why) = { (bits s).dropped why with closed := true }

/-- A task that is its four bits: a Waker of it is always kept. -/
def AsyncTask.plain : AsyncTask where
  State := Bits
  bits := id
  spawn := .fresh
  op := Bits.op
  begin := Bits.begin
  pending := Bits.pending
  dropped := Bits.dropped
  spawn_bits := rfl
  op_bits _ _ := Or.inl rfl
  begin_bits _ := rfl
  pending_bits _ _ := rfl
  dropped_bits _ _ := Or.inl rfl

/-! ## References -/

/-- A task and what refers to it, besides a Runnable that is queued or running: its Task,
    unless that is dropped or detached, and the Wakers that were cloned. -/
structure Counted where
  bits : Bits
  task : Bool
  wakers : Nat
  deriving DecidableEq, Repr

namespace Counted

/-- A reference has gone. The Runnable holds one of its own unless the task is idle. -/
def release (s : Counted) : Counted × Bool :=
  if s.task = false ∧ s.wakers = 0 ∧ s.bits.Idle then ({ s with bits := ⟨true, false, false, true⟩ }, true)
  else (s, false)

def op (s : Counted) : Op → Counted × Bool
  | .clone => ({ s with wakers := s.wakers + 1 }, false)
  | .dropWaker => if s.wakers = 0 then (s, false) else { s with wakers := s.wakers - 1 }.release
  | .detach => { s with bits := s.bits.take, task := false }.release
  | .drop => ({ s with bits := (s.bits.op .drop).1, task := false }, (s.bits.op .drop).2)
  | o => ({ s with bits := (s.bits.op o).1 }, (s.bits.op o).2)

/-- Without its Task nobody can take the output. -/
def dropped (s : Counted) : Why → Counted
  | .ready => { s with bits := { s.bits.dropped .ready with closed := s.bits.closed || !s.task } }
  | why => { s with bits := s.bits.dropped why }

theorem release_cases (s : Counted) : s.release = (s, false) ∨
    s.task = false ∧ s.wakers = 0 ∧ s.bits.Idle ∧ s.release = ({ s with bits := ⟨true, false, false, true⟩ }, true) := by
  unfold release
  split
  · rename_i h
    exact Or.inr ⟨h.1, h.2.1, h.2.2, rfl⟩
  · exact Or.inl rfl

theorem op_bits (s : Counted) (o : Op) :
    ((s.op o).1.bits, (s.op o).2) = s.bits.op o ∨ o.LastRef s.bits (s.op o).1.bits (s.op o).2 := by
  cases o with
  | dropWaker =>
    simp only [op]
    by_cases hw : s.wakers = 0
    · rw [if_pos hw]; exact Or.inl rfl
    · rw [if_neg hw]
      rcases release_cases { s with wakers := s.wakers - 1 } with h | ⟨-, -, hi, h⟩
      · rw [h]; exact Or.inl rfl
      · rw [h]; exact Or.inr ⟨Or.inl rfl, hi, rfl, rfl⟩
  | detach =>
    simp only [op]
    rcases release_cases { s with bits := s.bits.take, task := false } with h | ⟨-, -, hi, h⟩
    · rw [h]; exact Or.inl rfl
    · rw [h]
      refine Or.inr ⟨Or.inr rfl, ?_, rfl, rfl⟩
      -- an output is not taken from a task that is idle after it
      have hi : s.bits.take.Idle := hi
      cases hc : s.bits.completed with
      | true =>
        rw [Bits.take, if_pos hc] at hi
        rw [Bits.Idle, Bits.mk.injEq] at hi
        cases hi.2.2.2
      | false =>
        rw [Bits.take, hc] at hi
        exact hi
  | _ => exact Or.inl rfl

/-- While the Task is kept the drop of a Waker is never that of the last reference. -/
theorem dropWaker_task {s : Counted} (h : s.task = true) :
    s.op .dropWaker = ({ s with wakers := s.wakers - 1 }, false) := by
  simp only [op]
  by_cases hw : s.wakers = 0
  · rw [if_pos hw]
    cases s
    simp_all
  · rw [if_neg hw, release, if_neg]
    simp [h]

end Counted

/-- A task with its references counted. -/
def AsyncTask.counted : AsyncTask where
  State := Counted
  bits := Counted.bits
  spawn := ⟨.fresh, true, 0⟩
  op := Counted.op
  begin s := ({ s with bits := s.bits.begin.1 }, s.bits.begin.2)
  pending s := ({ s with bits := s.bits.pending.1 }, s.bits.pending.2)
  dropped := Counted.dropped
  spawn_bits := rfl
  op_bits := Counted.op_bits
  begin_bits _ := rfl
  pending_bits _ _ := rfl
  dropped_bits s why := by
    cases why with
    | ready =>
      cases ht : s.task with
      | true => exact Or.inl (by simp [Counted.dropped, Bits.dropped, ht])
      | false => exact Or.inr ⟨rfl, by simp [Counted.dropped, ht]⟩
    | _ => exact Or.inl rfl

/-- Of two detached tasks that sleep, with one clone and with two of their Wakers, the
    drop of one Waker ends the first only. -/
example :
    (Counted.op ⟨⟨false, false, false, false⟩, false, 1⟩ .dropWaker).2 = true ∧
      (Counted.op ⟨⟨false, false, false, false⟩, false, 2⟩ .dropWaker).2 = false := by
  decide

namespace AsyncTask

variable (A : AsyncTask)

/-- A task hands its Runnable over only when it is idle, and counts as scheduled then. -/
theorem op_over {s : A.State} {o : Op} (h : (A.op s o).2 = true) :
    (A.bits s).Idle ∧ (A.bits (A.op s o).1).scheduled = true ∧ (A.bits (A.op s o).1).running = false ∧
      (A.bits (A.op s o).1).completed = false := by
  rcases A.op_bits s o with h1 | ⟨-, hi, h1, -⟩
  · obtain ⟨h1, h2⟩ := Prod.mk.inj h1
    rw [h2] at h
    rw [h1]
    generalize A.bits s = b at h ⊢
    revert h
    rcases b with ⟨_ | _, _ | _, _ | _, _ | _⟩ <;> cases o <;> decide
  · rw [h1]
    exact ⟨hi, rfl, rfl, rfl⟩

/-- A fresh task counts as scheduled: no operation hands its Runnable over. -/
theorem spawn_op (o : Op) : (A.op A.spawn o).2 = false := by
  by_cases ho : (A.op A.spawn o).2 = true
  · have hi := (A.op_over ho).1
    rw [A.spawn_bits] at hi
    exact absurd hi (by decide)
  · simpa using ho

/-- Without a hand-over the future stays where it is: an idle task stays idle, a queued
    one queued, a finished one finished. -/
theorem op_keeps {s : A.State} {o : Op} (h : (A.op s o).2 = false) :
    let b := A.bits s
    let b' := A.bits (A.op s o).1
    b'.running = b.running ∧ b'.completed = b.completed ∧ (b.closed = true → b'.closed = true) ∧
      (b.scheduled = true → b'.scheduled = true) ∧ (b.running = false → b'.scheduled = b.scheduled) ∧
      (b.Idle → b' = b) := by
  rcases A.op_bits s o with h1 | ⟨-, -, -, h1⟩
  · obtain ⟨h1, h2⟩ := Prod.mk.inj h1
    rw [h2] at h
    simp only [h1]
    generalize A.bits s = b at h ⊢
    revert h
    rcases b with ⟨_ | _, _ | _, _ | _, _ | _⟩ <;> cases o <;> decide
  · rw [h1] at h
    cases h

/-- A closed task stays closed. -/
theorem op_closed {s : A.State} {o : Op} (h : (A.bits s).closed = true) : (A.bits (A.op s o).1).closed = true := by
  cases ho : (A.op s o).2 with
  | true =>
    have hi := (A.op_over ho).1
    rw [hi] at h
    cases h
  | false => exact (A.op_keeps ho).2.2.1 h

/-- Only the drop of a future that returned Ready completes a task. -/
theorem op_completed_eq (s : A.State) (o : Op) : (A.bits (A.op s o).1).completed = (A.bits s).completed := by
  rcases A.op_bits s o with h1 | ⟨-, hi, h1, -⟩
  · rw [(Prod.mk.inj h1).1]
    generalize A.bits s = b
    rcases b with ⟨_ | _, _ | _, _ | _, _ | _⟩ <;> cases o <;> rfl
  · rw [h1, hi]

theorem op_completed {s : A.State} {o : Op} (h : (A.bits s).completed = true) :
    (A.bits (A.op s o).1).completed = true := by
  rw [A.op_completed_eq]
  exact h

/-- Nor is a finished one begun again. -/
theorem op_done {s : A.State} {o : Op} (h : (A.bits s).done = true) : (A.bits (A.op s o).1).done = true := by
  simp only [Bits.done, Bool.or_eq_true] at h ⊢
  rcases h with h | h
  · exact Or.inl (A.op_completed h)
  · exact Or.inr (A.op_closed h)

/-- A wake leaves an unfinished task scheduled. -/
theorem wake_scheduled (s : A.State) :
    (A.bits (A.op s .wake).1).scheduled = true ∨ (A.bits (A.op s .wake).1).done = true := by
  rcases A.op_bits s .wake with h1 | ⟨h1 | h1, -⟩
  · rw [(Prod.mk.inj h1).1]
    generalize A.bits s = b
    rcases b with ⟨_ | _, _ | _, _ | _, _ | _⟩ <;> decide
  · cases h1
  · cases h1

/-- Nothing but a wake schedules a task and leaves it open. -/
theorem op_open {s : A.State} {o : Op} (ho : o ≠ .wake) (hs : (A.bits (A.op s o).1).scheduled = true)
    (hc : (A.bits (A.op s o).1).closed = false) : (A.bits s).scheduled = true ∧ (A.bits s).closed = false := by
  rcases A.op_bits s o with h1 | ⟨-, -, h1, -⟩
  · rw [(Prod.mk.inj h1).1] at hs hc
    generalize A.bits s = b at hs hc ⊢
    revert hs hc ho
    rcases b with ⟨_ | _, _ | _, _ | _, _ | _⟩ <;> cases o <;> decide
  · rw [h1] at hc
    cases hc

/-- Cancelling a task, or dropping its handle, closes it unless it has completed. -/
theorem close_closed {s : A.State} {o : Op} (ho : o = .cancel ∨ o = .drop) (hc : (A.bits s).completed = false) :
    (A.bits (A.op s o).1).closed = true := by
  rcases A.op_bits s o with h1 | ⟨h1, -⟩
  · rw [(Prod.mk.inj h1).1]
    generalize A.bits s = b at hc ⊢
    revert hc
    rcases ho with rfl | rfl
    all_goals rcases b with ⟨_ | _, _ | _, _ | _, _ | _⟩ <;> decide
  · rcases ho with rfl | rfl <;> rcases h1 with h1 | h1 <;> cases h1

theorem close_done {s : A.State} {o : Op} (ho : o = .cancel ∨ o = .drop) : (A.bits (A.op s o).1).done = true := by
  by_cases hc : (A.bits s).completed = true
  · exact A.op_done (by simp [Bits.done, hc])
  · have := A.close_closed ho (by simpa using hc)
    simp [Bits.done, this]

/-- What finishes a task: a cancel, the drop of its handle, or that of its last reference. -/
theorem op_done_iff (s : A.State) (o : Op) : (A.bits (A.op s o).1).done = true ↔
    (A.bits s).done = true ∨ o = .cancel ∨ o = .drop ∨ (o = .dropWaker ∨ o = .detach) ∧ (A.op s o).2 = true := by
  constructor
  · intro h
    rcases A.op_bits s o with h1 | ⟨ho, -, -, h1⟩
    · rw [(Prod.mk.inj h1).1] at h
      generalize A.bits s = b at h ⊢
      cases o with
      | cancel => exact Or.inr (Or.inl rfl)
      | drop => exact Or.inr (Or.inr (Or.inl rfl))
      | _ =>
        revert h
        rcases b with ⟨_ | _, _ | _, _ | _, _ | _⟩ <;> simp [Bits.wake, Bits.take, Bits.done]
    · exact Or.inr (Or.inr (Or.inr ⟨ho, h1⟩))
  · rintro (h | rfl | rfl | ⟨ho, h⟩)
    · exact A.op_done h
    · exact A.close_done (Or.inl rfl)
    · exact A.close_done (Or.inr rfl)
    · rcases A.op_bits s o with h1 | ⟨-, -, h1, -⟩
      · rw [(Prod.mk.inj h1).2] at h
        rcases ho with rfl | rfl <;> cases h
      · rw [h1]
        rfl

/-- A closed task is not polled, an open one is. -/
theorem begin_polls (s : A.State) : (A.begin s).2 = !(A.bits s).closed := by
  have h : (A.begin s).2 = (A.bits s).begin.2 := congrArg Prod.snd (A.begin_bits s)
  rw [h]
  unfold Bits.begin
  cases (A.bits s).closed <;> rfl

theorem begin_polled {s : A.State} (h : (A.begin s).2 = true) :
    A.bits (A.begin s).1 = { A.bits s with scheduled := false, running := true } := by
  have hc : (A.bits s).closed = false := by simpa [A.begin_polls s] using h
  have hb : A.bits (A.begin s).1 = (A.bits s).begin.1 := congrArg Prod.fst (A.begin_bits s)
  rw [hb]
  simp [Bits.begin, hc]

theorem begin_unpolled {s : A.State} (h : (A.begin s).2 = false) :
    A.bits (A.begin s).1 = A.bits s ∧ (A.bits s).closed = true := by
  have hc : (A.bits s).closed = true := by simpa [A.begin_polls s] using h
  have hb : A.bits (A.begin s).1 = (A.bits s).begin.1 := congrArg Prod.fst (A.begin_bits s)
  rw [hb]
  simp [Bits.begin, hc]

/-- A run that begins neither closes nor completes the task. -/
theorem begin_keeps (s : A.State) :
    (A.bits (A.begin s).1).closed = (A.bits s).closed ∧ (A.bits (A.begin s).1).completed = (A.bits s).completed := by
  cases hb : (A.begin s).2 with
  | true => rw [A.begin_polled hb]; exact ⟨rfl, rfl⟩
  | false => rw [(A.begin_unpolled hb).1]; exact ⟨rfl, rfl⟩

theorem begin_closed {s : A.State} (h : (A.bits s).closed = true) : (A.bits (A.begin s).1).closed = true := by
  rw [(A.begin_keeps s).1]
  exact h

theorem begin_completed {s : A.State} (h : (A.bits s).completed = true) : (A.bits (A.begin s).1).completed = true := by
  rw [(A.begin_keeps s).2]
  exact h

theorem begin_done {s : A.State} (h : (A.bits s).done = true) : (A.bits (A.begin s).1).done = true := by
  obtain ⟨h1, h2⟩ := A.begin_keeps s
  rw [Bits.done, h1, h2]
  exact h

theorem pending_keeps {s : A.State} (hc : (A.bits s).closed = false) :
    (A.bits (A.pending s).1).closed = (A.bits s).closed ∧
      (A.bits (A.pending s).1).completed = (A.bits s).completed := by
  have hb : A.bits (A.pending s).1 = (A.bits s).pending.1 := congrArg Prod.fst (A.pending_bits s hc)
  rw [hb]
  exact ⟨rfl, rfl⟩

theorem pending_completed {s : A.State} (hc : (A.bits s).closed = false) (h : (A.bits s).completed = true) :
    (A.bits (A.pending s).1).completed = true := by
  rw [(A.pending_keeps hc).2]
  exact h

theorem pending_done {s : A.State} (hc : (A.bits s).closed = false) (h : (A.bits s).done = true) :
    (A.bits (A.pending s).1).done = true := by
  obtain ⟨h1, h2⟩ := A.pending_keeps hc
  rw [Bits.done, h1, h2]
  exact h

/-- Dropping its future finishes a task that is closed or has returned Ready. -/
theorem dropped_finished {s : A.State} {why : Why} (h : why = .ready ∨ (A.bits s).closed = true) :
    let b := A.bits (A.dropped s why)
    b.scheduled = false ∧ b.running = false ∧ b.done = true := by
  rcases A.dropped_bits s why with h1 | ⟨rfl, h1⟩
  · simp only [h1]
    rcases h with rfl | h
    · simp [Bits.dropped, Bits.done]
    · cases why <;> simp [Bits.dropped, Bits.done, h]
  · simp [h1, Bits.dropped, Bits.done]

theorem dropped_closed {s : A.State} {why : Why} (h : (A.bits s).closed = true) :
    (A.bits (A.dropped s why)).closed = true := by
  rcases A.dropped_bits s why with h1 | ⟨rfl, h1⟩
  · rw [h1]; cases why <;> exact h
  · rw [h1]

/-- A future that returned Ready is dropped as its task completes. -/
theorem dropped_completed_iff (s : A.State) (why : Why) :
    (A.bits (A.dropped s why)).completed = true ↔ (A.bits s).completed = true ∨ why = .ready := by
  rcases A.dropped_bits s why with h1 | ⟨rfl, h1⟩
  · rw [h1]; cases why <;> simp [Bits.dropped]
  · rw [h1]; simp [Bits.dropped]

theorem dropped_completed {s : A.State} {why : Why} (h : (A.bits s).completed = true) :
    (A.bits (A.dropped s why)).completed = true :=
  (A.dropped_completed_iff s why).mpr (Or.inl h)

theorem dropped_ready (s : A.State) : (A.bits (A.dropped s .ready)).completed = true :=
  (A.dropped_completed_iff s .ready).mpr (Or.inr rfl)

theorem dropped_done {s : A.State} {why : Why} (h : (A.bits s).done = true) :
    (A.bits (A.dropped s why)).done = true := by
  simp only [Bits.done, Bool.or_eq_true] at h ⊢
  exact h.imp A.dropped_completed A.dropped_closed

/-! ## A task with its handle -/

/-- What holds of a task while its Task is kept (`attached`): a Waker that is dropped is
    no last reference, and the output is stored for the Task. -/
structure Handled (attached : A.State → Prop) : Prop where
  spawn : attached A.spawn
  op : ∀ s o, attached s → o ≠ .drop → o ≠ .detach → attached (A.op s o).1
  begin : ∀ s, attached s → attached (A.begin s).1
  pending : ∀ s, attached s → attached (A.pending s).1
  dropped : ∀ s why, attached s → attached (A.dropped s why)
  dropWaker_bits : ∀ s, attached s → A.bits (A.op s .dropWaker).1 = A.bits s
  dropped_bits : ∀ s why, attached s → A.bits (A.dropped s why) = (A.bits s).dropped why

theorem plain_handled : plain.Handled fun _ => True where
  spawn := trivial
  op _ _ _ _ _ := trivial
  begin _ _ := trivial
  pending _ _ := trivial
  dropped _ _ _ := trivial
  dropWaker_bits _ _ := rfl
  dropped_bits _ _ _ := rfl

/-- A Task that is kept is a reference. -/
theorem counted_handled : counted.Handled fun s : Counted => s.task = true where
  spawn := rfl
  op s o h h1 h2 := by
    have h : s.task = true := h
    show (Counted.op s o).1.task = true
    cases o with
    | dropWaker => rw [Counted.dropWaker_task h]; exact h
    | drop => exact absurd rfl h1
    | detach => exact absurd rfl h2
    | _ => exact h
  begin _ h := h
  pending _ h := h
  dropped s why h := by cases why <;> exact h
  dropWaker_bits s h := by
    show (Counted.op s .dropWaker).1.bits = s.bits
    rw [Counted.dropWaker_task h]
  dropped_bits s why h := by
    have h : s.task = true := h
    cases why with
    | ready =>
      show (Counted.dropped s .ready).bits = _
      simp [Counted.dropped, Bits.dropped, h]
      rfl
    | _ => rfl

/-- A poll of the Task takes a stored output. -/
theorem poll_bits (s : A.State) : A.bits (A.op s .poll).1 = (A.bits s).take := by
  rcases A.op_bits s .poll with h1 | ⟨h1 | h1, -⟩
  · exact (Prod.mk.inj h1).1
  · cases h1
  · cases h1

/-- Cancelling a completed task changes nothing. -/
theorem cancel_completed {s : A.State} (h : (A.bits s).completed = true) :
    A.bits (A.op s .cancel).1 = A.bits s := by
  rcases A.op_bits s .cancel with h1 | ⟨h1 | h1, -⟩
  · have hd : (A.bits s).done = true := by simp [Bits.done, h]
    rw [(Prod.mk.inj h1).1]
    show (A.bits s).close.1 = A.bits s
    rw [Bits.close, if_pos hd]
  · cases h1
  · cases h1

variable {A} {attached : A.State → Prop}

theorem Handled.op_bits (hA : A.Handled attached) {s : A.State} {o : Op} (h : attached s) (ho : o ≠ .detach) :
    A.bits (A.op s o).1 = ((A.bits s).op o).1 := by
  rcases A.op_bits s o with h1 | ⟨h1 | h1, -⟩
  · exact (Prod.mk.inj h1).1
  · subst h1; exact hA.dropWaker_bits s h
  · exact absurd h1 ho

/-- The Wakers of a task do not close it. -/
theorem Handled.waker_closed (hA : A.Handled attached) {s : A.State} {o : Op} (h : attached s)
    (ho : o.onWaker = true) : (A.bits (A.op s o).1).closed = (A.bits s).closed := by
  cases o with
  | wake =>
    rw [hA.op_bits h (by simp)]
    generalize A.bits s = b
    rcases b with ⟨_ | _, _ | _, _ | _, _ | _⟩ <;> rfl
  | clone =>
    rw [hA.op_bits h (by simp)]
    rfl
  | dropWaker => rw [hA.dropWaker_bits s h]
  | _ => cases ho

theorem Handled.dropped_closed_eq (hA : A.Handled attached) {s : A.State} (h : attached s) (why : Why) :
    (A.bits (A.dropped s why)).closed = (A.bits s).closed := by
  rw [hA.dropped_bits s why h]
  cases why <;> rfl

end AsyncTask

end NgxTickle.Task
