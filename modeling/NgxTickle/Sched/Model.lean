/-
  NgxTickle.Sched.Model — the scheduler and its wakeup protocol (`src/spawn.rs`:
  `schedule`, `async_handler`, `set_batch_size`, `TICKLED`, `BATCH_SIZE`,
  `SCHEDULER`), with sequentially consistent atomic steps.

  The channel is `SCHEDULER`'s unbounded FIFO. The static holds both ends and is
  never dropped, so a send never fails and its error branch is not taken.

  Any thread may call `schedule`: the main thread from the event loop or from under
  an `r.run()`, every other thread whenever it likes. `Pc` is where a thread is in
  `schedule`, `Handler` where the main thread is in `async_handler`. Each event is one
  atomic access to shared memory (the channel, TICKLED, BATCH_SIZE, the fd), or a
  call or a return, and carries what the access found, so the events of a run say all
  that happened in it. Between two events of one thread any other thread may move.

  The counter of the drain loop is the code's `u32`: `ret` adds one to it (wrapping)
  and compares it with the limit.
-/

import Mathlib.Logic.Function.Basic
import NgxTickle.Lib.Machine
import NgxTickle.Notify.Fd

namespace NgxTickle.Sched

open NgxTickle.Notify

/-- The nginx main thread, and every other thread. -/
inductive Thread (P : Type) where
  | main
  | other (p : P)
  deriving DecidableEq, Repr

/-- Where a thread is in `schedule(runnable)`. -/
inductive Pc (ρ : Type) where
  | out
  /-- Called, not sent yet. -/
  | entered (r : ρ)
  /-- Sent, before the `compare_exchange`. -/
  | sent
  /-- It flipped TICKLED and has not written to the fd yet. -/
  | won
  deriving DecidableEq, Repr

/-- Where the main thread is in `async_handler`. -/
inductive Handler (ρ : Type) where
  /-- In the event loop. -/
  | idle
  /-- Before the drain. -/
  | entered
  /-- The fd is drained, TICKLED is not cleared yet. -/
  | drained
  | cleared
  /-- The limit is loaded, before `is_empty`. -/
  | loaded (limit : UInt32)
  /-- At `try_recv`. -/
  | recv (limit cnt : UInt32)
  | took (limit cnt : UInt32) (r : ρ)
  /-- In `r.run()`. -/
  | running (limit cnt : UInt32) (r : ρ)
  /-- `cnt >= limit`, before the forced tickle. -/
  | limitHit
  deriving DecidableEq, Repr

structure St (P ρ : Type) where
  chan : List ρ
  tickled : Bool
  batch : UInt32
  fd : Fd
  pc : Thread P → Pc ρ
  handler : Handler ρ

inductive Ev (P ρ : Type) where
  | call (t : Thread P) (r : ρ)
  | send (t : Thread P) (r : ρ)
  | cas (t : Thread P) (won : Bool)
  | write (t : Thread P)
  | setBatch (value : UInt32)
  | enter
  | drain
  | clear
  | load (limit : UInt32)
  | isEmpty (b : Bool)
  | tryRecv (o : Option ρ)
  | run (r : ρ)
  | ret (r : ρ) (hit : Bool)
  | tickle
  deriving DecidableEq, Repr

section

variable {P ρ : Type}

/-- The main thread runs code that may call `schedule` in the event loop and under
    an `r.run()`, not in the handler's own code. -/
def Handler.open_ : Handler ρ → Bool
  | .idle | .running .. => true
  | _ => false

def St.mayCall (s : St P ρ) : Thread P → Bool
  | .main => s.handler.open_
  | .other _ => true

/-- No thread is inside `schedule`. -/
def St.Quiet (s : St P ρ) : Prop := ∀ t, s.pc t = .out

/-- The runnable taken from the channel whose `run` has not begun. -/
def Handler.taken : Handler ρ → List ρ
  | .took _ _ r => [r]
  | _ => []

/-- The runnable whose `run` is on the stack. -/
def Handler.inRun : Handler ρ → List ρ
  | .running _ _ r => [r]
  | _ => []

def start (chan : List ρ) (tickled : Bool) (batch : UInt32) (fd : Fd) : St P ρ :=
  ⟨chan, tickled, batch, fd, fun _ => .out, .idle⟩

variable [DecidableEq P]

def St.setPc (s : St P ρ) (t : Thread P) (c : Pc ρ) : St P ρ := { s with pc := Function.update s.pc t c }

@[simp] theorem setPc_self (s : St P ρ) (t : Thread P) (c : Pc ρ) : (s.setPc t c).pc t = c := by simp [St.setPc]

theorem setPc_ne (s : St P ρ) {t u : Thread P} (c : Pc ρ) (h : u ≠ t) : (s.setPc t c).pc u = s.pc u := by
  simp [St.setPc, h]

@[simp] theorem setPc_chan (s : St P ρ) (t : Thread P) (c : Pc ρ) : (s.setPc t c).chan = s.chan := rfl
@[simp] theorem setPc_tickled (s : St P ρ) (t : Thread P) (c : Pc ρ) : (s.setPc t c).tickled = s.tickled := rfl
@[simp] theorem setPc_batch (s : St P ρ) (t : Thread P) (c : Pc ρ) : (s.setPc t c).batch = s.batch := rfl
@[simp] theorem setPc_fd (s : St P ρ) (t : Thread P) (c : Pc ρ) : (s.setPc t c).fd = s.fd := rfl
@[simp] theorem setPc_handler (s : St P ρ) (t : Thread P) (c : Pc ρ) : (s.setPc t c).handler = s.handler := rfl

variable [DecidableEq ρ]

def step (s : St P ρ) : Ev P ρ → Option (St P ρ)
  | .call t r => if s.pc t = .out ∧ s.mayCall t = true then some (s.setPc t (.entered r)) else none
  | .send t r => if s.pc t = .entered r then some { s.setPc t .sent with chan := s.chan ++ [r] } else none
  | .cas t won =>
    if s.pc t = .sent ∧ won = !s.tickled then
      some (if won then { s.setPc t .won with tickled := true } else s.setPc t .out)
    else none
  | .write t => if s.pc t = .won then some { s.setPc t .out with fd := s.fd.write } else none
  | .setBatch value => some { s with batch := value }
  | .enter =>
    if s.handler = .idle ∧ s.pc .main = .out ∧ s.fd.readable = true then some { s with handler := .entered } else none
  | .drain => if s.handler = .entered then some { s with handler := .drained, fd := s.fd.drain } else none
  | .clear => if s.handler = .drained then some { s with handler := .cleared, tickled := false } else none
  | .load limit => if s.handler = .cleared ∧ limit = s.batch then some { s with handler := .loaded limit } else none
  | .isEmpty b =>
    match s.handler with
    | .loaded limit =>
      if b = s.chan.isEmpty then some { s with handler := if b then .idle else .recv limit 0 } else none
    | _ => none
  | .tryRecv o =>
    match s.handler, s.chan, o with
    | .recv _ _, [], none => some { s with handler := .idle }
    | .recv limit cnt, r :: rest, some r' =>
      if r' = r then some { s with chan := rest, handler := .took limit cnt r } else none
    | _, _, _ => none
  | .run r =>
    match s.handler with
    | .took limit cnt r' => if r = r' then some { s with handler := .running limit cnt r } else none
    | _ => none
  | .ret r hit =>
    match s.handler with
    | .running limit cnt r' =>
      if r = r' ∧ s.pc .main = .out ∧ hit = decide (limit ≤ cnt + 1) then
        some { s with handler := if hit then .limitHit else .recv limit (cnt + 1) }
      else none
    | _ => none
  | .tickle => if s.handler = .limitHit then some { s with handler := .idle, fd := s.fd.write } else none

/-- A worker after `init`: nothing queued, TICKLED false, BATCH_SIZE at its default of 8
    and an empty fd of any capacity. -/
def Init (s : St P ρ) : Prop := ∃ cap, ∃ h : 0 < cap, s = start [] false 8 (Fd.new cap h)

def machine (P ρ : Type) [DecidableEq P] [DecidableEq ρ] : Lib.Machine (St P ρ) (Ev P ρ) := ⟨Init, step⟩

/-! ## What each step can do -/

inductive Step : St P ρ → Ev P ρ → St P ρ → Prop
  | call (s : St P ρ) (t : Thread P) (r : ρ) : s.pc t = .out → s.mayCall t = true →
      Step s (.call t r) (s.setPc t (.entered r))
  | send (s : St P ρ) (t : Thread P) (r : ρ) : s.pc t = .entered r →
      Step s (.send t r) { s.setPc t .sent with chan := s.chan ++ [r] }
  | casWon (s : St P ρ) (t : Thread P) : s.pc t = .sent → s.tickled = false →
      Step s (.cas t true) { s.setPc t .won with tickled := true }
  | casLost (s : St P ρ) (t : Thread P) : s.pc t = .sent → s.tickled = true → Step s (.cas t false) (s.setPc t .out)
  | write (s : St P ρ) (t : Thread P) : s.pc t = .won → Step s (.write t) { s.setPc t .out with fd := s.fd.write }
  | setBatch (s : St P ρ) (value : UInt32) : Step s (.setBatch value) { s with batch := value }
  | enter (s : St P ρ) : s.handler = .idle → s.pc .main = .out → s.fd.readable = true →
      Step s .enter { s with handler := .entered }
  | drain (s : St P ρ) : s.handler = .entered → Step s .drain { s with handler := .drained, fd := s.fd.drain }
  | clear (s : St P ρ) : s.handler = .drained → Step s .clear { s with handler := .cleared, tickled := false }
  | load (s : St P ρ) : s.handler = .cleared → Step s (.load s.batch) { s with handler := .loaded s.batch }
  | empty (s : St P ρ) (limit : UInt32) : s.handler = .loaded limit → s.chan = [] →
      Step s (.isEmpty true) { s with handler := .idle }
  | nonempty (s : St P ρ) (limit : UInt32) : s.handler = .loaded limit → s.chan ≠ [] →
      Step s (.isEmpty false) { s with handler := .recv limit 0 }
  | recvNone (s : St P ρ) (limit cnt : UInt32) : s.handler = .recv limit cnt → s.chan = [] →
      Step s (.tryRecv none) { s with handler := .idle }
  | recvSome (s : St P ρ) (limit cnt : UInt32) (r : ρ) (rest : List ρ) : s.handler = .recv limit cnt →
      s.chan = r :: rest → Step s (.tryRecv (some r)) { s with chan := rest, handler := .took limit cnt r }
  | run (s : St P ρ) (limit cnt : UInt32) (r : ρ) : s.handler = .took limit cnt r →
      Step s (.run r) { s with handler := .running limit cnt r }
  | retLimit (s : St P ρ) (limit cnt : UInt32) (r : ρ) : s.handler = .running limit cnt r → s.pc .main = .out →
      limit ≤ cnt + 1 → Step s (.ret r true) { s with handler := .limitHit }
  | retNext (s : St P ρ) (limit cnt : UInt32) (r : ρ) : s.handler = .running limit cnt r → s.pc .main = .out →
      ¬ limit ≤ cnt + 1 → Step s (.ret r false) { s with handler := .recv limit (cnt + 1) }
  | tickle (s : St P ρ) : s.handler = .limitHit → Step s .tickle { s with handler := .idle, fd := s.fd.write }

theorem Step.eq {s s' : St P ρ} {e : Ev P ρ} (h : Step s e s') : step s e = some s' := by
  cases h <;> simp_all [step]

theorem step_inv {s s' : St P ρ} {e : Ev P ρ} (h : step s e = some s') : Step s e s' := by
  cases e with
  | call t r =>
    simp only [step, Option.ite_none_right_eq_some, Option.some.injEq] at h
    obtain ⟨⟨h1, h2⟩, rfl⟩ := h
    exact .call s t r h1 h2
  | send t r =>
    simp only [step, Option.ite_none_right_eq_some, Option.some.injEq] at h
    obtain ⟨h1, rfl⟩ := h
    exact .send s t r h1
  | cas t won =>
    simp only [step, Option.ite_none_right_eq_some, Option.some.injEq] at h
    obtain ⟨⟨h1, h2⟩, rfl⟩ := h
    cases won with
    | true => exact .casWon s t h1 (by simpa using h2)
    | false => exact .casLost s t h1 (by simpa using h2)
  | write t =>
    simp only [step, Option.ite_none_right_eq_some, Option.some.injEq] at h
    obtain ⟨h1, rfl⟩ := h
    exact .write s t h1
  | setBatch value =>
    simp only [step, Option.some.injEq] at h
    subst h
    exact .setBatch s value
  | enter =>
    simp only [step, Option.ite_none_right_eq_some, Option.some.injEq] at h
    obtain ⟨⟨h1, h2, h3⟩, rfl⟩ := h
    exact .enter s h1 h2 h3
  | drain =>
    simp only [step, Option.ite_none_right_eq_some, Option.some.injEq] at h
    obtain ⟨h1, rfl⟩ := h
    exact .drain s h1
  | clear =>
    simp only [step, Option.ite_none_right_eq_some, Option.some.injEq] at h
    obtain ⟨h1, rfl⟩ := h
    exact .clear s h1
  | load limit =>
    simp only [step, Option.ite_none_right_eq_some, Option.some.injEq] at h
    obtain ⟨⟨h1, rfl⟩, rfl⟩ := h
    exact .load s h1
  | isEmpty b =>
    simp only [step] at h
    split at h
    · rename_i limit hl
      simp only [Option.ite_none_right_eq_some, Option.some.injEq] at h
      obtain ⟨h1, rfl⟩ := h
      cases b with
      | true => exact .empty s limit hl (List.isEmpty_iff.mp h1.symm)
      | false => exact .nonempty s limit hl (List.isEmpty_eq_false_iff.mp h1.symm)
    · cases h
  | tryRecv o =>
    simp only [step] at h
    split at h
    · rename_i limit cnt hl hc
      cases h
      exact .recvNone s limit cnt hl hc
    · rename_i limit cnt r rest r' hl hc
      simp only [Option.ite_none_right_eq_some, Option.some.injEq] at h
      obtain ⟨rfl, rfl⟩ := h
      exact .recvSome s limit cnt r' rest hl hc
    · cases h
  | run r =>
    simp only [step] at h
    split at h
    · rename_i limit cnt r' hl
      simp only [Option.ite_none_right_eq_some, Option.some.injEq] at h
      obtain ⟨rfl, rfl⟩ := h
      exact .run s limit cnt r hl
    · cases h
  | ret r hit =>
    simp only [step] at h
    split at h
    · rename_i limit cnt r' hl
      simp only [Option.ite_none_right_eq_some, Option.some.injEq] at h
      obtain ⟨⟨rfl, h1, h2⟩, rfl⟩ := h
      cases hit with
      | true => exact .retLimit s limit cnt r hl h1 (by simpa using h2)
      | false => exact .retNext s limit cnt r hl h1 (by simpa using h2)
    · cases h
  | tickle =>
    simp only [step, Option.ite_none_right_eq_some, Option.some.injEq] at h
    obtain ⟨h1, rfl⟩ := h
    exact .tickle s h1

/-- The step function and what it can do, one constructor for each way a step goes. -/
theorem step_iff {s s' : St P ρ} {e : Ev P ρ} : step s e = some s' ↔ Step s e s' := ⟨step_inv, Step.eq⟩

@[simp] theorem machine_step (s : St P ρ) (e : Ev P ρ) : (machine P ρ).step s e = step s e := rfl

theorem Step.steps {s s' : St P ρ} {e : Ev P ρ} (h : Step s e s') : (machine P ρ).Steps s [e] s' := .single h.eq

end

end NgxTickle.Sched
