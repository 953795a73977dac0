/-
  NgxTickle.Sched.Due — what the scheduler has still to do. A thread inside `schedule`
  has its send, `compare_exchange` and write before it; a queued runnable is received,
  run and returned from; a readable fd is dispatched, unless the invocation of
  `async_handler` that is there already is yet to drain it; the handler goes through its
  places. Each number is one more than those of what its step leads to.

  `St.due` counts the threads of `T` only: a call of `schedule` adds 21 to it, and every
  other event takes from it (`due_step`). A run takes four, for what it is to do.
-/

import NgxTickle.Lib.Budget
import NgxTickle.Sched.Model

namespace NgxTickle.Sched

open NgxTickle.Notify

variable {P ρ : Type}

def Pc.due : Pc ρ → Nat
  | .out => 0
  | .won => 7
  | .sent => 8
  | .entered _ => 21

def Handler.due : Handler ρ → Nat
  | .idle | .took .. => 0
  | .recv .. => 1
  | .loaded _ => 2
  | .cleared => 3
  | .drained => 4
  | .entered => 5
  | .limitHit => 7
  | .running .. => 8

/-- Entered, and not past its drain. -/
def Handler.drains : Handler ρ → Bool
  | .entered => true
  | _ => false

/-- The dispatch of a readable fd. -/
def St.signalDue (s : St P ρ) : Nat := if s.fd.readable && !s.handler.drains then 6 else 0

/-- A runnable in the channel, or taken from it, has its run before it. -/
def St.runsDue (s : St P ρ) : Nat := 12 * (s.chan.length + s.handler.taken.length)

def St.due (T : Finset (Thread P)) (s : St P ρ) : Nat :=
  ∑ t ∈ T, (s.pc t).due + s.runsDue + s.handler.due + s.signalDue

/-- The thread that takes the event. -/
def Ev.thread : Ev P ρ → Thread P
  | .call t _ | .send t _ | .cas t _ | .write t => t
  | _ => .main

def Ev.adds : Ev P ρ → Nat
  | .call .. => 21
  | _ => 0

def Ev.takes : Ev P ρ → Nat
  | .call .. | .setBatch _ => 0
  | .run _ => 4
  | _ => 1

theorem signalDue_le (s : St P ρ) : s.signalDue ≤ 6 := by
  unfold St.signalDue
  split <;> omega

theorem signalDue_congr {s s' : St P ρ} (hf : s'.fd = s.fd) (hh : s'.handler.drains = s.handler.drains) :
    s'.signalDue = s.signalDue := by
  simp [St.signalDue, hf, hh]

variable [DecidableEq P]

/-- A thread of `T` goes on in `schedule`. -/
theorem due_setPc {s : St P ρ} {T : Finset (Thread P)} {t : Thread P} (ht : t ∈ T) (c : Pc ρ) :
    ∑ u ∈ T, ((s.setPc t c).pc u).due + (s.pc t).due = ∑ u ∈ T, (s.pc u).due + c.due := by
  have h := Lib.sum_change (F := fun u => (s.pc u).due) (G := fun u => ((s.setPc t c).pc u).due) ht
    fun u hu => by rw [setPc_ne s c hu]
  rwa [setPc_self] at h

/-- An event of a thread in `schedule` sees the handler where it was. -/
theorem due_thread {s s' : St P ρ} {T : Finset (Thread P)} {t : Thread P} {c : Pc ρ} {m n k : Nat} (ht : t ∈ T)
    (hp : s'.pc = (s.setPc t c).pc) (hh : s'.handler = s.handler) (hs : s'.signalDue ≤ s.signalDue + m)
    (h : 12 * s'.chan.length + c.due + m + n ≤ 12 * s.chan.length + (s.pc t).due + k) :
    s'.due T + n ≤ s.due T + k := by
  have := due_setPc (s := s) ht c
  simp only [St.due, St.runsDue, hp, hh]
  omega

omit [DecidableEq P] in
/-- An event of the handler sees the threads and the fd where they were. -/
theorem due_handler {s s' : St P ρ} {T : Finset (Thread P)} {n : Nat} (hp : s'.pc = s.pc)
    (hs : s'.signalDue = s.signalDue) (h : s'.runsDue + s'.handler.due + n ≤ s.runsDue + s.handler.due) :
    s'.due T + n ≤ s.due T := by
  simp only [St.due, hp, hs]
  omega

theorem due_step {s s' : St P ρ} {e : Ev P ρ} {T : Finset (Thread P)} (h : Step s e s') (ht : e.thread ∈ T) :
    s'.due T + e.takes ≤ s.due T + e.adds := by
  cases h with
  | call t r hp _ =>
    refine due_thread (m := 0) ht rfl rfl (signalDue_congr rfl rfl).le ?_
    simp [Ev.thread, Pc.due, Ev.takes, Ev.adds, hp]
  | send t r hp =>
    refine due_thread (m := 0) ht rfl rfl (signalDue_congr rfl rfl).le ?_
    simp [Ev.thread, Pc.due, Ev.takes, Ev.adds, hp]
    omega
  | casWon t hp _ =>
    refine due_thread (m := 0) ht rfl rfl (signalDue_congr rfl rfl).le ?_
    simp [Ev.thread, Pc.due, Ev.takes, Ev.adds, hp]
  | casLost t hp _ =>
    refine due_thread (m := 0) ht rfl rfl (signalDue_congr rfl rfl).le ?_
    simp [Ev.thread, Pc.due, Ev.takes, Ev.adds, hp]
  | write t hp =>
    refine due_thread (m := 6) ht rfl rfl (Nat.le_add_left_of_le (signalDue_le _)) ?_
    simp [Ev.thread, Pc.due, Ev.takes, Ev.adds, hp]
  | setBatch value => exact Nat.le_refl _
  -- the dispatch, the drain and the forced tickle move the signal
  | enter hh _ hr =>
    simp [St.due, St.runsDue, St.signalDue, Handler.due, Handler.taken, Handler.drains, Ev.takes, Ev.adds, hh, hr]
  | drain hh =>
    simp [St.due, St.runsDue, St.signalDue, Handler.due, Handler.taken, Handler.drains, Ev.takes, Ev.adds, hh]
  | tickle hh =>
    simp [St.due, St.runsDue, St.signalDue, Handler.due, Handler.taken, Handler.drains, Ev.takes, Ev.adds, hh]
  | clear hh =>
    refine due_handler rfl (signalDue_congr rfl (by rw [hh]; rfl)) ?_
    simp [St.runsDue, Handler.due, Handler.taken, Ev.takes, hh]
  | load hh =>
    refine due_handler rfl (signalDue_congr rfl (by rw [hh]; rfl)) ?_
    simp [St.runsDue, Handler.due, Handler.taken, Ev.takes, hh]
  | empty limit hh _ =>
    refine due_handler rfl (signalDue_congr rfl (by rw [hh]; rfl)) ?_
    simp [St.runsDue, Handler.due, Handler.taken, Ev.takes, hh]
  | nonempty limit hh _ =>
    refine due_handler rfl (signalDue_congr rfl (by rw [hh]; rfl)) ?_
    simp [St.runsDue, Handler.due, Handler.taken, Ev.takes, hh]
  | recvNone limit cnt hh _ =>
    refine due_handler rfl (signalDue_congr rfl (by rw [hh]; rfl)) ?_
    simp [St.runsDue, Handler.due, Handler.taken, Ev.takes, hh]
  | recvSome limit cnt r rest hh hc =>
    refine due_handler rfl (signalDue_congr rfl (by rw [hh]; rfl)) ?_
    simp [St.runsDue, Handler.due, Handler.taken, Ev.takes, hh, hc]
  | run limit cnt r hh =>
    refine due_handler rfl (signalDue_congr rfl (by rw [hh]; rfl)) ?_
    simp [St.runsDue, Handler.due, Handler.taken, Ev.takes, hh]
    omega
  | retLimit limit cnt r hh _ _ =>
    refine due_handler rfl (signalDue_congr rfl (by rw [hh]; rfl)) ?_
    simp [St.runsDue, Handler.due, Handler.taken, Ev.takes, hh]
  | retNext limit cnt r hh _ _ =>
    refine due_handler rfl (signalDue_congr rfl (by rw [hh]; rfl)) ?_
    simp [St.runsDue, Handler.due, Handler.taken, Ev.takes, hh]

end NgxTickle.Sched
