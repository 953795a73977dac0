/-
  NgxTickle.Notify.Signal — concurrent `signal` calls with one `drain` at a time, by
  their single syscalls, over either backend. Each event is one syscall (with what it
  returned) or the start of a call; a call returns in the step of the syscall that
  ends its loop. Which call is interrupted, and how much a read takes, is in the event.

  - `signal_readable`: a signal that returns leaves the fd readable.
  - `drained_iff`: from a drain's last read to the next drain, the fd is readable just
    when some write succeeded in between. That read is where the loop takes effect.
  - `never_aborts`: no loop reaches its abort branch.
-/

import Mathlib.Logic.Function.Basic
import NgxTickle.Lib.Machine
import NgxTickle.Notify.Backend

namespace NgxTickle.Notify.Signal

/-- Where a thread is in `signal`, or the main thread in `drain`. -/
inductive Loop where
  | out
  /-- At the syscall. -/
  | looping
  | aborted
  deriving DecidableEq, Repr

def Loop.next : Next → Loop
  | .again => .looping
  | .done => .out
  | .abort => .aborted

structure St (P : Type) where
  fd : Fd
  signals : P → Loop
  drain : Loop

inductive Ev (P : Type) where
  | signal (p : P)
  | write (p : P) (r : Ret)
  | drain
  | read (r : Ret)
  deriving DecidableEq, Repr

section

variable {P : Type} [DecidableEq P] (B : Backend)

def step (s : St P) : Ev P → Option (St P)
  | .signal p => if s.signals p = .out then some { s with signals := Function.update s.signals p .looping } else none
  | .write p r =>
    if s.signals p = .looping then
      (B.write s.fd r).map fun fd =>
        { s with fd := fd, signals := Function.update s.signals p (.next (B.signal r)) }
    else none
  | .drain => if s.drain = .out then some { s with drain := .looping } else none
  | .read r =>
    if s.drain = .looping then
      (B.read s.fd r).map fun fd => { s with fd := fd, drain := .next (B.drain r) }
    else none

/-- A fresh fd, and no call on it. -/
def Init (s : St P) : Prop := s = ⟨B.open_, fun _ => .out, .out⟩

def machine (P : Type) [DecidableEq P] : Lib.Machine (St P) (Ev P) := ⟨Init B, step B⟩

inductive Step : St P → Ev P → St P → Prop
  | signal (s : St P) (p : P) : s.signals p = .out →
      Step s (.signal p) { s with signals := Function.update s.signals p .looping }
  | write (s : St P) (p : P) (r : Ret) (fd : Fd) : s.signals p = .looping → B.write s.fd r = some fd →
      Step s (.write p r) { s with fd := fd, signals := Function.update s.signals p (.next (B.signal r)) }
  | drain (s : St P) : s.drain = .out → Step s .drain { s with drain := .looping }
  | read (s : St P) (r : Ret) (fd : Fd) : s.drain = .looping → B.read s.fd r = some fd →
      Step s (.read r) { s with fd := fd, drain := .next (B.drain r) }

variable {B}

theorem step_inv {s s' : St P} {e : Ev P} (h : step B s e = some s') : Step B s e s' := by
  cases e with
  | signal p =>
    simp only [step, Option.ite_none_right_eq_some, Option.some.injEq] at h
    obtain ⟨h1, rfl⟩ := h
    exact .signal s p h1
  | write p r =>
    simp only [step, Option.ite_none_right_eq_some, Option.map_eq_some_iff] at h
    obtain ⟨h1, fd, h2, rfl⟩ := h
    exact .write s p r fd h1 h2
  | drain =>
    simp only [step, Option.ite_none_right_eq_some, Option.some.injEq] at h
    obtain ⟨h1, rfl⟩ := h
    exact .drain s h1
  | read r =>
    simp only [step, Option.ite_none_right_eq_some, Option.map_eq_some_iff] at h
    obtain ⟨h1, fd, h2, rfl⟩ := h
    exact .read s r fd h1 h2

/-! ## The signal -/

theorem writes_readable {fd fd' : Fd} {r : Ret} (h : B.Writes fd r fd') (hd : B.signal r = .done) :
    fd'.readable = true := by
  cases h with
  | ok => exact Fd.write_readable fd
  | full _ _ hfull =>
    have := fd.cap_pos
    rw [Fd.readable_iff]
    omega
  | intr ha => rw [hd] at ha; cases ha

/-- The fd after a step, where the drain's loop does not end: readable if it was, or if
    a write succeeded. -/
theorem readable_step (hB : B.Lawful) {s s' : St P} {e : Ev P} (h : Step B s e s') (hout : s.drain = .out) :
    s'.fd.readable = true ↔ s.fd.readable = true ∨ ∃ p r, e = .write p r ∧ B.wrote r = true := by
  cases h with
  | signal p _ => simp
  | drain _ => simp
  | read r fd hd _ => rw [hout] at hd; cases hd
  | write p r fd _ hw =>
    cases hB.writes hw with
    | ok _ hwrote _ => simp [hwrote]
    | full _ hwrote _ => simp [hwrote]
    | intr _ hwrote _ => simp [hwrote]

theorem drain_step {s s' : St P} {e : Ev P} (h : Step B s e s') (hout : s.drain = .out) (he : e ≠ .drain) :
    s'.drain = .out := by
  cases h with
  | signal p _ => exact hout
  | write p r fd _ _ => exact hout
  | drain _ => exact absurd rfl he
  | read r fd hd _ => rw [hout] at hd; cases hd

theorem readable_since (hB : B.Lawful) {s t : St P} {tr : List (Ev P)} (h : (machine B P).Steps s tr t)
    (hd : s.drain = .out) (hr : s.fd.readable = false) (hne : .drain ∉ tr) :
    t.drain = .out ∧ (t.fd.readable = true ↔ ∃ p r, .write p r ∈ tr ∧ B.wrote r = true) := by
  refine Lib.Machine.steps_induction
    (J := fun tr t => .drain ∉ tr → t.drain = .out ∧
      (t.fd.readable = true ↔ ∃ p r, .write p r ∈ tr ∧ B.wrote r = true)) ?_ ?_ h hne
  · intro _
    exact ⟨hd, by simp [hr]⟩
  · intro tr t e t' _ ih hst hne
    rw [List.mem_append, not_or] at hne
    obtain ⟨hout, hiff⟩ := ih hne.1
    have hs := step_inv hst
    refine ⟨drain_step hs hout (by rintro rfl; simp at hne), ?_⟩
    rw [readable_step hB hs hout, hiff]
    constructor
    · rintro (⟨p, r, hm, hw⟩ | ⟨p, r, rfl, hw⟩)
      · exact ⟨p, r, List.mem_append_left _ hm, hw⟩
      · exact ⟨p, r, by simp, hw⟩
    · rintro ⟨p, r, hm, hw⟩
      rcases List.mem_append.mp hm with hm | hm
      · exact Or.inl ⟨p, r, hm, hw⟩
      · exact Or.inr ⟨p, r, (List.mem_singleton.mp hm).symm, hw⟩

/-- A signal returns in the step of its last syscall, and then the fd is readable. -/
theorem signal_readable (hB : B.Lawful) {s s' : St P} {p : P} {r : Ret} (h : step B s (.write p r) = some s')
    (hret : s'.signals p = .out) : s'.fd.readable = true := by
  cases step_inv h with
  | write _ _ fd _ hw =>
    simp at hret
    refine writes_readable (hB.writes hw) ?_
    cases hn : B.signal r with
    | done => rfl
    | again => rw [hn] at hret; cases hret
    | abort => rw [hn] at hret; cases hret

/-- The read that ends a drain is where it takes effect. -/
theorem drained_iff (hB : B.Lawful) {m s : St P} {r : Ret} {post : List (Ev P)}
    (h : (machine B P).Steps m (.read r :: post) s) (hret : B.drain r = .done) (hne : .drain ∉ post) :
    s.fd.readable = true ↔ ∃ p r', .write p r' ∈ post ∧ B.wrote r' = true := by
  obtain ⟨m', hm, hpost⟩ := Lib.Machine.steps_cons.mp h
  have hm : step B m (.read r) = some m' := hm
  cases step_inv hm with
  | read _ fd hd hr =>
    refine (readable_since hB hpost (by rw [hret]; rfl) ?_ hne).2
    cases hB.reads hr with
    | last _ _ he => rw [he]; exact Fd.drain_readable _
    | part _ ha _ _ _ => rw [hret] at ha; cases ha
    | intr ha _ => rw [hret] at ha; cases ha

omit [DecidableEq P] in
/-- Over a lawful backend no syscall returns what a loop aborts on. -/
theorem not_abort (hB : B.Lawful) {fd fd' : Fd} {r : Ret} :
    (B.write fd r = some fd' → B.signal r ≠ .abort) ∧ (B.read fd r = some fd' → B.drain r ≠ .abort) := by
  constructor
  · intro hw
    cases hB.writes hw with
    | ok ha _ _ => rw [ha]; simp
    | full ha _ _ => rw [ha]; simp
    | intr ha _ _ => rw [ha]; simp
  · intro hr
    cases hB.reads hr with
    | last _ ha _ => rw [ha]; simp
    | part _ ha _ _ _ => rw [ha]; simp
    | intr ha _ => rw [ha]; simp

theorem next_running {n : Next} (h : n ≠ .abort) : Loop.next n ≠ .aborted := by
  cases n with
  | abort => exact absurd rfl h
  | _ => simp [Loop.next]

structure Running (s : St P) : Prop where
  signals : ∀ p, s.signals p ≠ .aborted
  drain : s.drain ≠ .aborted

theorem never_aborts (hB : B.Lawful) : (machine B P).Invariant Running := by
  constructor
  · rintro s rfl
    exact ⟨fun p h => (by cases h), fun h => (by cases h)⟩
  · intro s e s' hi h
    have hupd : ∀ p l, l ≠ .aborted → ∀ q, Function.update s.signals p l q ≠ .aborted := by
      intro p l hl q
      by_cases e : q = p
      · subst e; simpa using hl
      · rw [Function.update_of_ne e]; exact hi.signals q
    cases step_inv h with
    | signal p _ => exact ⟨hupd p _ (by simp), hi.drain⟩
    | write p r fd _ hw => exact ⟨hupd p _ (next_running ((not_abort hB).1 hw)), hi.drain⟩
    | drain _ => exact ⟨hi.signals, by simp⟩
    | read r fd _ hr => exact ⟨hi.signals, next_running ((not_abort hB).2 hr)⟩

end

end NgxTickle.Notify.Signal
