/-
  NgxTickle.Notify.Backend — the two wakeup fds and the loops around their syscalls
  (`src/notify/eventfd.rs`, `src/notify/selfpipe.rs`: `signal`, `drain`).

  The kernel's side is what one call leaves in the fd when it returns `r`: an eventfd's
  counter, or the bytes in a pipe (all of them 1, so their number). A call may always
  be interrupted (EINTR), and then it did nothing. The code's side is what the loop does
  with `r`: call again, return, or abort. errno is only set by a call that failed.

  `Lawful` is what the rest of the development uses of a backend: a signal returns
  having written, or having found the fd full; a drain returns once nothing is unread.
-/

import NgxTickle.Notify.Fd

namespace NgxTickle.Notify

/-- `last_os_error().raw_os_error()`. EAGAIN and EWOULDBLOCK are one number on some systems. -/
inductive Errno where
  | eintr
  | eagain
  | ewouldblock
  | other (code : Nat)
  deriving DecidableEq, Repr

/-- What a syscall returned. -/
structure Ret where
  rc : Int
  errno : Errno
  deriving DecidableEq, Repr

def Ret.eintr : Ret := ⟨-1, .eintr⟩

def Ret.eagain : Ret := ⟨-1, .eagain⟩

/-- What the loop around the syscall does next. -/
inductive Next where
  | again
  | done
  | abort
  deriving DecidableEq, Repr

structure Backend where
  cap : Nat
  cap_pos : 0 < cap
  /-- The kernel: what `write` (one notification) leaves when it returns `r`. -/
  write : Fd → Ret → Option Fd
  read : Fd → Ret → Option Fd
  /-- The loop bodies of `signal` and `drain`, after the syscall. -/
  signal : Ret → Next
  drain : Ret → Next
  /-- The write succeeded. -/
  wrote : Ret → Bool

/-! ## The kernel's side -/

/-- A call that failed: interrupted, or it would block. -/
def failed (block : Bool) (fd : Fd) (r : Ret) : Option Fd :=
  if r = .eintr ∨ block = true ∧ r = .eagain then some fd else none

/-- A write of one notification returns `ok`, or EAGAIN if the fd is full. -/
def sysWrite (ok : Int) (fd : Fd) (r : Ret) : Option Fd :=
  if r.rc = ok then
    if fd.unread < fd.cap then some fd.write else none
  else failed (decide (fd.unread = fd.cap)) fd r

/-- `eventfd_read` resets the counter, or EAGAIN if it is 0. -/
def eventfdRead (fd : Fd) (r : Ret) : Option Fd :=
  if r.rc = 0 then
    if fd.readable then some fd.drain else none
  else failed (!fd.readable) fd r

/-- `read` into a buffer of 128 bytes takes up to that many, or EAGAIN if there are none. -/
def pipeRead (fd : Fd) (r : Ret) : Option Fd :=
  if 0 < r.rc then
    if r.rc ≤ 128 ∧ r.rc.toNat ≤ fd.unread then some (fd.take r.rc.toNat) else none
  else failed (!fd.readable) fd r

/-! ## The code's side -/

namespace Eventfd

def signal (r : Ret) : Next :=
  if r.rc = 0 then .done
  else match r.errno with
    | .eintr => .again
    | .eagain => .done
    | _ => .abort

def drain (r : Ret) : Next :=
  if r.rc = 0 then .done
  else match r.errno with
    | .eintr => .again
    | .eagain => .done
    | _ => .abort

end Eventfd

namespace Selfpipe

def is_again (errno : Errno) : Bool := errno = .eagain || errno = .ewouldblock

def signal (r : Ret) : Next :=
  if r.rc = 1 then .done
  else if r.rc = -1 then
    match r.errno with
    | .eintr => .again
    | errno => if is_again errno then .done else .abort
  else .abort

def drain (r : Ret) : Next :=
  if 0 < r.rc then .again
  else if r.rc = 0 then .abort
  else match r.errno with
    | .eintr => .again
    | errno => if is_again errno then .done else .abort

end Selfpipe

/-- An eventfd counts up to `u64::MAX - 1`. -/
def eventfd : Backend where
  cap := 0xfffffffffffffffe
  cap_pos := Nat.succ_pos _
  write := sysWrite 0
  read := eventfdRead
  signal := Eventfd.signal
  drain := Eventfd.drain
  wrote := fun r => r.rc = 0

/-- A pipe with room for `cap` bytes. -/
def selfpipe (cap : Nat) (h : 0 < cap) : Backend where
  cap := cap
  cap_pos := h
  write := sysWrite 1
  read := pipeRead
  signal := Selfpipe.signal
  drain := Selfpipe.drain
  wrote := fun r => r.rc = 1

namespace Backend

/-- `open`: nothing is unread. -/
def open_ (B : Backend) : Fd := Fd.new B.cap B.cap_pos

variable (B : Backend)

/-- What a write of `signal` can do. -/
inductive Writes (fd : Fd) (r : Ret) : Fd → Prop
  | ok : B.signal r = .done → B.wrote r = true → fd.unread < fd.cap → Writes fd r fd.write
  /-- EAGAIN: a wakeup is pending already. -/
  | full : B.signal r = .done → B.wrote r = false → fd.unread = fd.cap → Writes fd r fd
  | intr : B.signal r = .again → B.wrote r = false → r = .eintr → Writes fd r fd

/-- What a read of `drain` can do. -/
inductive Reads (fd : Fd) (r : Ret) : Fd → Prop
  /-- Nothing is left. -/
  | last (fd' : Fd) : B.drain r = .done → fd' = fd.drain → Reads fd r fd'
  | part (fd' : Fd) : B.drain r = .again → 0 < r.rc → fd'.unread < fd.unread → fd'.cap = fd.cap → Reads fd r fd'
  | intr : B.drain r = .again → r = .eintr → Reads fd r fd

structure Lawful : Prop where
  writes : ∀ {fd r fd'}, B.write fd r = some fd' → B.Writes fd r fd'
  reads : ∀ {fd r fd'}, B.read fd r = some fd' → B.Reads fd r fd'
  /-- A call need not be interrupted. -/
  write_some : ∀ fd, ∃ r fd', B.write fd r = some fd' ∧ r ≠ .eintr
  read_some : ∀ fd, ∃ r fd', B.read fd r = some fd' ∧ r ≠ .eintr

end Backend

/-! ## Both backends are lawful -/

theorem failed_cases {block : Bool} {fd fd' : Fd} {r : Ret} (h : failed block fd r = some fd') :
    fd' = fd ∧ (r = .eintr ∨ block = true ∧ r = .eagain) := by
  unfold failed at h
  split at h
  · rename_i hr
    cases h
    exact ⟨rfl, hr⟩
  · cases h

/-- The write loops: `ok` ends them, EINTR repeats them and EAGAIN ends them. -/
theorem writes_cases {B : Backend} {ok : Int} (hw : B.write = sysWrite ok) (hok : ∀ r, r.rc = ok → B.signal r = .done)
    (hwrote : ∀ r, B.wrote r = decide (r.rc = ok)) (hintr : B.signal .eintr = .again)
    (hagain : B.signal .eagain = .done) {fd fd' : Fd} {r : Ret} (h : B.write fd r = some fd') : B.Writes fd r fd' := by
  rw [hw] at h
  unfold sysWrite at h
  split at h
  · rename_i hr
    split at h
    · rename_i hlt
      cases h
      exact .ok (hok r hr) (by rw [hwrote]; simpa using hr) hlt
    · cases h
  · rename_i hr
    obtain ⟨rfl, hc⟩ := failed_cases h
    have hnot : B.wrote r = false := by rw [hwrote]; simpa using hr
    rcases hc with rfl | ⟨hfull, rfl⟩
    · exact .intr hintr hnot rfl
    · exact .full hagain hnot (by simpa using hfull)

theorem sysWrite_some {ok : Int} (hne : ok ≠ -1) (fd : Fd) : ∃ r fd', sysWrite ok fd r = some fd' ∧ r ≠ .eintr := by
  by_cases h : fd.unread < fd.cap
  · refine ⟨⟨ok, .eagain⟩, fd.write, by simp [sysWrite, h], ?_⟩
    intro he
    cases he
  · have hle := fd.unread_le
    refine ⟨.eagain, fd, ?_, by intro he; cases he⟩
    have hne : (-1 : Int) ≠ ok := Ne.symm hne
    have hfull : fd.unread = fd.cap := by omega
    simp [sysWrite, Ret.eagain, hne, failed, hfull]

/-- A read that failed: EINTR repeats it, and EAGAIN ends a drain that has read everything. -/
theorem reads_failed {B : Backend} (hintr : B.drain .eintr = .again) (hagain : B.drain .eagain = .done) {fd fd' : Fd}
    {r : Ret} (h : failed (!fd.readable) fd r = some fd') : B.Reads fd r fd' := by
  obtain ⟨rfl, hc⟩ := failed_cases h
  rcases hc with rfl | ⟨hempty, rfl⟩
  · exact .intr hintr rfl
  · exact .last _ hagain (Fd.drain_of_unreadable (by simpa using hempty)).symm

theorem eventfd_lawful : eventfd.Lawful where
  writes h := writes_cases rfl (fun r hr => by simp [eventfd, Eventfd.signal, hr]) (fun _ => rfl) rfl rfl h
  reads := by
    intro fd r fd' h
    have h : eventfdRead fd r = some fd' := h
    unfold eventfdRead at h
    split at h
    · rename_i hr
      split at h
      · cases h
        exact .last _ (by simp [eventfd, Eventfd.drain, hr]) rfl
      · cases h
    · exact reads_failed rfl rfl h
  write_some := sysWrite_some (by decide)
  read_some := by
    intro fd
    by_cases h : fd.readable = true
    · exact ⟨⟨0, .eagain⟩, fd.drain, by simp [eventfd, eventfdRead, h], by intro he; cases he⟩
    · refine ⟨.eagain, fd, ?_, by intro he; cases he⟩
      simp [eventfd, eventfdRead, Ret.eagain, failed, h]

theorem selfpipe_lawful (cap : Nat) (hcap : 0 < cap) : (selfpipe cap hcap).Lawful where
  writes h := writes_cases rfl (fun r hr => by simp [selfpipe, Selfpipe.signal, hr]) (fun _ => rfl) rfl rfl h
  reads := by
    intro fd r fd' h
    have h : pipeRead fd r = some fd' := h
    unfold pipeRead at h
    split at h
    · rename_i hr
      split at h
      · rename_i hn
        cases h
        refine .part _ (by simp [selfpipe, Selfpipe.drain, hr]) hr ?_ rfl
        show fd.unread - r.rc.toNat < fd.unread
        omega
      · cases h
    · exact reads_failed rfl rfl h
  write_some := sysWrite_some (by decide)
  read_some := by
    intro fd
    by_cases h : fd.readable = true
    · have hpos := Fd.readable_iff.mp h
      refine ⟨⟨1, .eagain⟩, fd.take 1, ?_, by intro he; cases he⟩
      show pipeRead fd ⟨1, .eagain⟩ = some (fd.take 1)
      simp [pipeRead]
      omega
    · refine ⟨.eagain, fd, ?_, by intro he; cases he⟩
      simp [selfpipe, pipeRead, Ret.eagain, failed, h]

end NgxTickle.Notify
