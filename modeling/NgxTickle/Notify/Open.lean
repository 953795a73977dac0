/-
  NgxTickle.Notify.Open — the wakeup fds as `open` makes them (`src/notify/eventfd.rs`,
  `src/notify/selfpipe.rs`: `open`, `set_nonblocking`, `set_cloexec`).

  A process has a table of descriptors. A descriptor has flags of its own
  (close-on-exec) and refers to an open file, which has the status flags (non-blocking)
  and is shared after a fork. Open files refer to an object: an eventfd's counter, or the
  buffer of a pipe, which both its ends refer to. What each call answers is the kernel's
  choice (`Answers`); where one fails the code aborts, and `open_` is `none`.

  `Opener` is a backend with its `open` and what the rest of the development uses of it
  (`Opened`): both ends are non-blocking and close-on-exec, on an object of their own, and
  nothing else has changed.
-/

import Mathlib.Logic.Function.Basic
import NgxTickle.Notify.Backend

namespace NgxTickle.Notify

abbrev OfdId := Nat
abbrev ObjId := Nat
abbrev Flags := BitVec 32

def O_NONBLOCK : Flags := 0o4000

def FD_CLOEXEC : Flags := 1

/-- The bits of `m` are set in `f`. -/
def Has (f m : Flags) : Prop := f &&& m = m

instance (f m : Flags) : Decidable (Has f m) := inferInstanceAs (Decidable (_ = _))

theorem has_or (f m : Flags) : Has (f ||| m) m := by
  unfold Has
  ext i
  simp only [BitVec.getElem_and, BitVec.getElem_or]
  cases f[i] <;> simp

/-- Which way an open file goes. -/
inductive Side where
  | both
  | read
  | write
  deriving DecidableEq, Repr

structure Ofd where
  obj : ObjId
  side : Side
  status : Flags
  deriving DecidableEq, Repr

structure Desc where
  ofd : OfdId
  flags : Flags
  deriving DecidableEq, Repr

/-- A process's descriptors, and the kernel's files; ids from `next` on are unused. -/
structure Sys where
  table : Int → Option Desc
  ofds : OfdId → Option Ofd
  objs : ObjId → Fd
  next : Nat

inductive Cmd where
  | getfl
  | setfl
  | getfd
  | setfd
  deriving DecidableEq, Repr

/-- What the kernel answers the calls of one `open`. -/
structure Answers where
  /-- The descriptors of `pipe`, the first of them `eventfd`'s; none if the call fails. -/
  fds : Option (Int × Int)
  /-- `fcntl(fd, cmd)` does not return -1. -/
  fcntl : Int → Cmd → Bool

namespace Sys

variable (s : Sys)

def Fresh : Prop := ∀ i, s.next ≤ i → s.ofds i = none

/-- The open file behind a descriptor. -/
def file (fd : Int) : Option Ofd := (s.table fd).bind fun d => s.ofds d.ofd

def setDesc (fd : Int) (d : Desc) : Sys := { s with table := Function.update s.table fd (some d) }

def setOfd (i : OfdId) (f : Ofd) : Sys := { s with ofds := Function.update s.ofds i (some f) }

/-- `eventfd(0, O_NONBLOCK | O_CLOEXEC)`, which succeeds with `fd`. -/
def eventfd (new : Fd) (fd : Int) : Sys where
  table := Function.update s.table fd (some ⟨s.next, FD_CLOEXEC⟩)
  ofds := Function.update s.ofds s.next (some ⟨s.next, .both, 2 ||| O_NONBLOCK⟩)
  objs := Function.update s.objs s.next new
  next := s.next + 1

/-- `pipe(fds)`, which succeeds with `r` and `w`. -/
def pipe (new : Fd) (r w : Int) : Sys where
  table := Function.update (Function.update s.table r (some ⟨s.next, 0⟩)) w (some ⟨s.next + 1, 0⟩)
  ofds := Function.update (Function.update s.ofds s.next (some ⟨s.next, .read, 0⟩)) (s.next + 1)
    (some ⟨s.next, .write, 1⟩)
  objs := Function.update s.objs s.next new
  next := s.next + 2

/-- `fcntl(fd, cmd, v)`: the flags it returns, none for -1. -/
def fcntl (a : Answers) (fd : Int) (cmd : Cmd) (v : Flags) : Option (Flags × Sys) :=
  match s.table fd with
  | some d =>
    match s.ofds d.ofd with
    | some f =>
      if a.fcntl fd cmd then
        match cmd with
        | .getfl => some (f.status, s)
        | .setfl => some (0, s.setOfd d.ofd { f with status := v })
        | .getfd => some (d.flags, s)
        | .setfd => some (0, s.setDesc fd { d with flags := v })
      else none
    | none => none
  | none => none

end Sys

/-- The descriptors are ones that are not open. -/
def Answers.Free (a : Answers) (s : Sys) : Prop :=
  ∀ p ∈ a.fds, 0 ≤ p.1 ∧ 0 ≤ p.2 ∧ p.1 ≠ p.2 ∧ s.table p.1 = none ∧ s.table p.2 = none

instance (a : Answers) (s : Sys) : Decidable (a.Free s) := inferInstanceAs (Decidable (∀ p ∈ a.fds, _))

/-! ## `open` -/

namespace Eventfd

def open_ (new : Fd) (s : Sys) (a : Answers) : Option (Sys × Int × Int) :=
  a.fds.map fun p => (s.eventfd new p.1, p.1, p.1)

end Eventfd

namespace Selfpipe

def set_nonblocking (a : Answers) (fd : Int) (s : Sys) : Option Sys :=
  (s.fcntl a fd .getfl 0).bind fun p => (p.2.fcntl a fd .setfl (p.1 ||| O_NONBLOCK)).map (·.2)

def set_cloexec (a : Answers) (fd : Int) (s : Sys) : Option Sys :=
  (s.fcntl a fd .getfd 0).bind fun p => (p.2.fcntl a fd .setfd (p.1 ||| FD_CLOEXEC)).map (·.2)

def open_ (new : Fd) (s : Sys) (a : Answers) : Option (Sys × Int × Int) :=
  a.fds.bind fun p =>
    ((((set_nonblocking a p.1 (s.pipe new p.1 p.2)).bind (set_nonblocking a p.2)).bind (set_cloexec a p.1)).bind
      (set_cloexec a p.2)).map fun t => (t, p.1, p.2)

end Selfpipe

/-! ## What `open` leaves -/

/-- Descriptor `fd` is an end of the object, non-blocking and close-on-exec. -/
def Sys.Ready (s : Sys) (fd : Int) (obj : ObjId) (side : Side) : Prop :=
  ∃ d f, s.table fd = some d ∧ s.ofds d.ofd = some f ∧ f.obj = obj ∧ (f.side = .both ∨ f.side = side) ∧
    Has d.flags FD_CLOEXEC ∧ Has f.status O_NONBLOCK

structure Opened (new : Fd) (s s' : Sys) (r w : Int) : Prop where
  read : s'.Ready r s.next .read
  write : s'.Ready w s.next .write
  /-- Nothing was written yet. -/
  unread : s'.objs s.next = new
  nonneg : 0 ≤ r ∧ 0 ≤ w
  free : s.table r = none ∧ s.table w = none
  table : ∀ fd, fd ≠ r → fd ≠ w → s'.table fd = s.table fd
  ofds : ∀ i < s.next, s'.ofds i = s.ofds i
  objs : ∀ i < s.next, s'.objs i = s.objs i
  new : ∀ i f, s.next ≤ i → s'.ofds i = some f → f.obj = s.next
  next : s.next < s'.next
  fresh : s'.Fresh

structure Opener where
  backend : Backend
  open_ : Sys → Answers → Option (Sys × Int × Int)
  opened : ∀ {s s' a r w}, s.Fresh → a.Free s → open_ s a = some (s', r, w) → Opened backend.open_ s s' r w

theorem eventfd_opened {new : Fd} {s s' : Sys} {a : Answers} {r w : Int} (hs : s.Fresh) (ha : a.Free s)
    (h : Eventfd.open_ new s a = some (s', r, w)) : Opened new s s' r w := by
  obtain ⟨p, hp, he⟩ := Option.map_eq_some_iff.mp h
  cases he
  obtain ⟨hr, -, -, hf, -⟩ := ha _ hp
  have hready : ∀ side, (s.eventfd new p.1).Ready p.1 s.next side := by
    intro side
    exact ⟨⟨s.next, FD_CLOEXEC⟩, ⟨s.next, .both, 2 ||| O_NONBLOCK⟩, by simp [Sys.eventfd], by simp [Sys.eventfd], rfl,
      Or.inl rfl, (by decide : Has FD_CLOEXEC FD_CLOEXEC), (by decide : Has (2 ||| O_NONBLOCK) O_NONBLOCK)⟩
  refine ⟨hready _, hready _, by simp [Sys.eventfd], ⟨hr, hr⟩, ⟨hf, hf⟩, ?_, ?_, ?_, ?_, Nat.lt_succ_self _, ?_⟩
  · intro n hn _
    simp [Sys.eventfd, hn]
  · intro i hi
    simp [Sys.eventfd, Nat.ne_of_lt hi]
  · intro i hi
    simp [Sys.eventfd, Nat.ne_of_lt hi]
  · intro i f hi hf
    by_cases e : i = s.next
    · subst e
      simp only [Sys.eventfd, Function.update_self, Option.some.injEq] at hf
      rw [← hf]
    · simp [Sys.eventfd, e, hs i hi] at hf
  · intro i hi
    have hi : s.next + 1 ≤ i := hi
    simp [Sys.eventfd, show i ≠ s.next by omega, hs i (by omega)]

/-- The answers that make `set_nonblocking` and `set_cloexec` go on. -/
def Answers.set (a : Answers) (fd : Int) (get set : Cmd) : Bool := a.fcntl fd get && a.fcntl fd set

theorem set_nonblocking_eq {s : Sys} {a : Answers} {fd : Int} {d : Desc} {f : Ofd} (hd : s.table fd = some d)
    (hf : s.ofds d.ofd = some f) :
    Selfpipe.set_nonblocking a fd s =
      if a.set fd .getfl .setfl then some (s.setOfd d.ofd { f with status := f.status ||| O_NONBLOCK }) else none := by
  unfold Selfpipe.set_nonblocking Sys.fcntl Answers.set
  simp only [hd, hf]
  cases a.fcntl fd .getfl <;> cases a.fcntl fd .setfl <;> simp [hd, hf]

theorem set_cloexec_eq {s : Sys} {a : Answers} {fd : Int} {d : Desc} {f : Ofd} (hd : s.table fd = some d)
    (hf : s.ofds d.ofd = some f) :
    Selfpipe.set_cloexec a fd s =
      if a.set fd .getfd .setfd then some (s.setDesc fd { d with flags := d.flags ||| FD_CLOEXEC }) else none := by
  unfold Selfpipe.set_cloexec Sys.fcntl Answers.set
  simp only [hd, hf]
  cases a.fcntl fd .getfd <;> cases a.fcntl fd .setfd <;> simp [hd, hf]

/-- Every `fcntl` call of `open` on the pipe `r`, `w` succeeds. -/
def Answers.all (a : Answers) (r w : Int) : Bool :=
  a.set r .getfl .setfl && a.set w .getfl .setfl && a.set r .getfd .setfd && a.set w .getfd .setfd

namespace Sys

variable (s : Sys) (new : Fd) (r w : Int)

/-- The pipe after each of the four calls. -/
def pipe1 : Sys := (s.pipe new r w).setOfd s.next ⟨s.next, .read, 0 ||| O_NONBLOCK⟩

def pipe2 : Sys := (s.pipe1 new r w).setOfd (s.next + 1) ⟨s.next, .write, 1 ||| O_NONBLOCK⟩

def pipe3 : Sys := (s.pipe2 new r w).setDesc r ⟨s.next, 0 ||| FD_CLOEXEC⟩

def pipe4 : Sys := (s.pipe3 new r w).setDesc w ⟨s.next + 1, 0 ||| FD_CLOEXEC⟩

end Sys

/-- `open` makes its four calls in turn, and gives the pipe if all of them succeed. -/
theorem selfpipe_open_eq {new : Fd} {s : Sys} {a : Answers} {r w : Int} (hp : a.fds = some (r, w)) (hne : r ≠ w) :
    Selfpipe.open_ new s a = if a.all r w then some (s.pipe4 new r w, r, w) else none := by
  have h1 : Selfpipe.set_nonblocking a r (s.pipe new r w) =
      if a.set r .getfl .setfl then some (s.pipe1 new r w) else none :=
    set_nonblocking_eq (d := ⟨s.next, 0⟩) (f := ⟨s.next, .read, 0⟩) (by simp [Sys.pipe, hne]) (by simp [Sys.pipe])
  have h2 : Selfpipe.set_nonblocking a w (s.pipe1 new r w) =
      if a.set w .getfl .setfl then some (s.pipe2 new r w) else none :=
    set_nonblocking_eq (d := ⟨s.next + 1, 0⟩) (f := ⟨s.next, .write, 1⟩) (by simp [Sys.pipe1, Sys.pipe, Sys.setOfd])
      (by simp [Sys.pipe1, Sys.pipe, Sys.setOfd])
  have h3 : Selfpipe.set_cloexec a r (s.pipe2 new r w) =
      if a.set r .getfd .setfd then some (s.pipe3 new r w) else none :=
    set_cloexec_eq (d := ⟨s.next, 0⟩) (f := ⟨s.next, .read, 0 ||| O_NONBLOCK⟩)
      (by simp [Sys.pipe2, Sys.pipe1, Sys.pipe, Sys.setOfd, hne]) (by simp [Sys.pipe2, Sys.pipe1, Sys.setOfd])
  have h4 : Selfpipe.set_cloexec a w (s.pipe3 new r w) =
      if a.set w .getfd .setfd then some (s.pipe4 new r w) else none :=
    set_cloexec_eq (d := ⟨s.next + 1, 0⟩) (f := ⟨s.next, .write, 1 ||| O_NONBLOCK⟩)
      (by simp [Sys.pipe3, Sys.pipe2, Sys.pipe1, Sys.pipe, Sys.setOfd, Sys.setDesc, hne.symm])
      (by simp [Sys.pipe3, Sys.pipe2, Sys.setOfd, Sys.setDesc])
  simp only [Selfpipe.open_, hp, Option.bind_some, h1, Answers.all]
  by_cases b1 : a.set r .getfl .setfl = true
  · simp only [b1, if_true, Option.bind_some, h2, Bool.true_and]
    by_cases b2 : a.set w .getfl .setfl = true
    · simp only [b2, if_true, Option.bind_some, h3, Bool.true_and]
      by_cases b3 : a.set r .getfd .setfd = true
      · simp only [b3, if_true, Option.bind_some, h4, Bool.true_and]
        by_cases b4 : a.set w .getfd .setfd = true <;> simp [b4]
      · simp [b3]
    · simp [b2]
  · simp [b1]

theorem pipe4_opened {new : Fd} {s : Sys} {r w : Int} (hs : s.Fresh) (hr : 0 ≤ r) (hw : 0 ≤ w) (hne : r ≠ w)
    (hfr : s.table r = none) (hfw : s.table w = none) : Opened new s (s.pipe4 new r w) r w where
  read := ⟨⟨s.next, 0 ||| FD_CLOEXEC⟩, ⟨s.next, .read, 0 ||| O_NONBLOCK⟩,
    by simp [Sys.pipe4, Sys.pipe3, Sys.setDesc, hne],
    by simp [Sys.pipe4, Sys.pipe3, Sys.pipe2, Sys.pipe1, Sys.setDesc, Sys.setOfd], rfl, Or.inr rfl, has_or _ _, has_or _ _⟩
  write := ⟨⟨s.next + 1, 0 ||| FD_CLOEXEC⟩, ⟨s.next, .write, 1 ||| O_NONBLOCK⟩, by simp [Sys.pipe4, Sys.setDesc],
    by simp [Sys.pipe4, Sys.pipe3, Sys.pipe2, Sys.setDesc, Sys.setOfd], rfl, Or.inr rfl, has_or _ _, has_or _ _⟩
  unread := by simp [Sys.pipe4, Sys.pipe3, Sys.pipe2, Sys.pipe1, Sys.pipe, Sys.setDesc, Sys.setOfd]
  nonneg := ⟨hr, hw⟩
  free := ⟨hfr, hfw⟩
  table fd h1 h2 := by simp [Sys.pipe4, Sys.pipe3, Sys.pipe2, Sys.pipe1, Sys.pipe, Sys.setDesc, Sys.setOfd, h1, h2]
  ofds i hi := by
    have h1 : i ≠ s.next := Nat.ne_of_lt hi
    have h2 : i ≠ s.next + 1 := by omega
    simp [Sys.pipe4, Sys.pipe3, Sys.pipe2, Sys.pipe1, Sys.pipe, Sys.setDesc, Sys.setOfd, h1, h2]
  objs i hi := by
    simp [Sys.pipe4, Sys.pipe3, Sys.pipe2, Sys.pipe1, Sys.pipe, Sys.setDesc, Sys.setOfd, Nat.ne_of_lt hi]
  new i f hi hf := by
    by_cases e : i = s.next + 1
    · subst e
      simp only [Sys.pipe4, Sys.pipe3, Sys.pipe2, Sys.setDesc, Sys.setOfd, Function.update_self, Option.some.injEq] at hf
      rw [← hf]
    · by_cases e' : i = s.next
      · subst e'
        simp [Sys.pipe4, Sys.pipe3, Sys.pipe2, Sys.pipe1, Sys.setDesc, Sys.setOfd] at hf
        rw [← hf]
      · simp [Sys.pipe4, Sys.pipe3, Sys.pipe2, Sys.pipe1, Sys.pipe, Sys.setDesc, Sys.setOfd, e, e', hs i hi] at hf
  next := by
    show s.next < s.next + 2
    omega
  fresh i hi := by
    have hi : s.next + 2 ≤ i := hi
    have h1 : i ≠ s.next := by omega
    have h2 : i ≠ s.next + 1 := by omega
    simp [Sys.pipe4, Sys.pipe3, Sys.pipe2, Sys.pipe1, Sys.pipe, Sys.setDesc, Sys.setOfd, h1, h2, hs i (by omega)]

theorem selfpipe_opened {new : Fd} {s s' : Sys} {a : Answers} {r w : Int} (hs : s.Fresh) (ha : a.Free s)
    (h : Selfpipe.open_ new s a = some (s', r, w)) : Opened new s s' r w := by
  obtain ⟨⟨r', w'⟩, hp, -⟩ := Option.bind_eq_some_iff.mp h
  obtain ⟨hr, hw, hne, hfr, hfw⟩ := ha _ hp
  rw [selfpipe_open_eq hp hne, Option.ite_none_right_eq_some] at h
  obtain ⟨-, h⟩ := h
  cases h
  exact pipe4_opened hs hr hw hne hfr hfw

def Opener.eventfd : Opener where
  backend := Notify.eventfd
  open_ := Eventfd.open_ Notify.eventfd.open_
  opened := eventfd_opened

def Opener.selfpipe (cap : Nat) (h : 0 < cap) : Opener where
  backend := Notify.selfpipe cap h
  open_ := Selfpipe.open_ (Notify.selfpipe cap h).open_
  opened := selfpipe_opened

/-- In both backends `open` gives a fresh object with both ends non-blocking and
    close-on-exec and everything else as it was, or it aborts, and that just when one
    of its calls fails. -/
theorem open_ready_or_aborts (cap : Nat) (hcap : 0 < cap) {s : Sys} (hs : s.Fresh) {a : Answers} (ha : a.Free s) :
    (∀ O ∈ [Opener.eventfd, Opener.selfpipe cap hcap], ∀ s' r w, O.open_ s a = some (s', r, w) →
      Opened O.backend.open_ s s' r w) ∧
    (Opener.eventfd.open_ s a = none ↔ a.fds = none) ∧
    ((Opener.selfpipe cap hcap).open_ s a = none ↔ ∀ r w, a.fds = some (r, w) → a.all r w = false) := by
  refine ⟨fun O _ s' r w h => O.opened hs ha h, Option.map_eq_none_iff, ?_⟩
  show Selfpipe.open_ _ s a = none ↔ _
  cases hp : a.fds with
  | none => simp [Selfpipe.open_, hp]
  | some p =>
    obtain ⟨-, -, hne, -⟩ := ha _ hp
    rw [selfpipe_open_eq hp hne]
    cases h : a.all p.1 p.2 with
    | true =>
      simp only [if_true, reduceCtorEq, false_iff]
      intro hall
      rw [hall _ _ rfl] at h
      cases h
    | false =>
      simp only [Bool.false_eq_true, if_false, true_iff]
      rintro r w he
      cases he
      exact h

/-- A process with nothing open. -/
def noFiles : Sys := ⟨fun _ => none, fun _ => none, fun _ => Fd.new 1 Nat.one_pos, 0⟩

theorem open_ready_or_aborts_noFiles :
    Opened (Opener.selfpipe 1 Nat.one_pos).backend.open_ noFiles
      (noFiles.pipe4 (Opener.selfpipe 1 Nat.one_pos).backend.open_ 5 6) 5 6 := by
  have ha : (⟨some (5, 6), fun _ _ => true⟩ : Answers).Free noFiles := by
    intro p hp
    cases hp
    exact ⟨by decide, by decide, by decide, rfl, rfl⟩
  have ho : Selfpipe.open_ (Notify.selfpipe 1 Nat.one_pos).open_ noFiles ⟨some (5, 6), fun _ _ => true⟩ =
      some (noFiles.pipe4 (Notify.selfpipe 1 Nat.one_pos).open_ 5 6, 5, 6) :=
    selfpipe_open_eq (r := 5) (w := 6) rfl (by decide)
  exact (open_ready_or_aborts 1 Nat.one_pos (fun _ _ => rfl) ha).1 _ (by simp) _ _ _ ho

end NgxTickle.Notify
