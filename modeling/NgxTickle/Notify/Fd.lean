/-
  NgxTickle.Notify.Fd — the wakeup fd as the scheduler sees it (`src/notify/mod.rs`:
  `tickle`, `on_tickled`; `CTX.read_fd`, `CTX.write_fd`).

  The fd holds unread notifications up to a capacity with room for at least one (an
  eventfd's counter, a self-pipe's buffer). It is level-triggered: the event loop
  dispatches `async_handler` while it is readable. A write adds a notification, or
  finds the fd full (EAGAIN: a wakeup is already pending); either way the fd is
  readable after it. A drain reads everything.
-/

import Mathlib.Init

namespace NgxTickle.Notify

structure Fd where
  cap : Nat
  unread : Nat
  cap_pos : 0 < cap
  unread_le : unread ≤ cap

namespace Fd

def readable (fd : Fd) : Bool := decide (0 < fd.unread)

/-- `backend::signal`, for one notification. -/
def write (fd : Fd) : Fd :=
  if h : fd.unread < fd.cap then { fd with unread := fd.unread + 1, unread_le := h } else fd

/-- `backend::drain`. -/
def drain (fd : Fd) : Fd := { fd with unread := 0, unread_le := Nat.zero_le _ }

/-- A read of `n` notifications. -/
def take (fd : Fd) (n : Nat) : Fd :=
  { fd with unread := fd.unread - n, unread_le := Nat.le_trans (Nat.sub_le _ _) fd.unread_le }

/-- A fresh fd: nothing was written yet. -/
def new (cap : Nat) (h : 0 < cap) : Fd := ⟨cap, 0, h, Nat.zero_le _⟩

@[simp] theorem write_readable (fd : Fd) : fd.write.readable = true := by
  have h1 := fd.cap_pos
  unfold write readable
  split
  · simp
  · simp only [decide_eq_true_eq]; omega

theorem write_unread {fd : Fd} (h : fd.unread < fd.cap) : fd.write.unread = fd.unread + 1 := by simp [write, h]

theorem write_le (fd : Fd) : fd.write.unread ≤ fd.unread + 1 := by
  unfold write
  split
  · exact Nat.le_refl _
  · omega

@[simp] theorem drain_readable (fd : Fd) : fd.drain.readable = false := by simp [drain, readable]

theorem readable_iff {fd : Fd} : fd.readable = true ↔ 0 < fd.unread := by simp [readable]

theorem drain_of_unreadable {fd : Fd} (h : fd.readable = false) : fd.drain = fd := by
  have h0 : fd.unread = 0 := by simpa [readable] using h
  cases fd
  simp only at h0
  subst h0
  rfl

@[simp] theorem new_readable (cap : Nat) (h : 0 < cap) : (new cap h).readable = false := by simp [new, readable]

end Fd

end NgxTickle.Notify
