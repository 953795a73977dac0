/-
  NgxTickle.Boot.Model — how worker processes come to have a wakeup fd (`src/lib.rs`:
  `init`; `src/notify/mod.rs`: `init`, `expect_init`, `tickle`, `on_tickled`, `INIT`, `CTX`;
  `src/ffi/expand.c`: `ngx_tickle_add_read_event`).

  A world is the processes of one nginx and the kernel's files. Each process has the
  crate's statics in its own memory (`Mem`, over the scheduler of `Sched.Model`), its
  descriptors, and the read events that its event loop watches. `tickle` writes to
  whatever CTX.write_fd is in that process, and `on_tickled` reads CTX.read_fd. A process
  that reaches `tickle_abort!` is gone (`kill`).

  nginx and the kernel, as assumed: a process starts as NGX_PROCESS_SINGLE and may become
  the master before its event module is initialised; the master never has an event loop,
  and it alone forks processes that go on in the same program. The child has a copy of its
  memory and descriptors and only the forking thread. A process that executes another
  program (a binary upgrade) passes on the descriptors that are not close-on-exec, and
  nothing else. Each worker, helper and single process makes its own event loop, and then
  modules' `init_process` run; before that, adding an event calls through a null pointer.
  The loop dispatches a registered read event while its file is readable. Other code opens
  and closes descriptors of its own.
-/

import NgxTickle.Notify.Open
import NgxTickle.Sched.Sys

namespace NgxTickle.Boot

open NgxTickle.Notify
open NgxTickle.Sched (Thread Pc Handler)

abbrev Pid := Nat

/-- `ngx_process`. -/
inductive Kind where
  | single
  | master
  | signaller
  | worker
  | helper
  deriving DecidableEq, Repr

/-- The crate's statics in a process, and where its threads are in the crate. -/
structure Mem (P ρ : Type) where
  /-- `INIT` is set. -/
  init : Bool
  read_fd : Int
  write_fd : Int
  chan : List ρ
  tickled : Bool
  batch : UInt32
  pc : Thread P → Pc ρ
  handler : Handler ρ

structure Proc (P ρ : Type) where
  kind : Kind
  mem : Mem P ρ
  table : Int → Option Desc
  /-- The open files on which CTX.rev is registered; none before there is an event loop. -/
  loop : Option (List OfdId)

structure World (P ρ : Type) where
  procs : Pid → Option (Proc P ρ)
  ofds : OfdId → Option Ofd
  objs : ObjId → Fd
  next : Nat

inductive Ev (P ρ : Type) where
  | master (p : Pid)
  | fork (p q : Pid) (kind : Kind)
  | exec (p q : Pid)
  | processInit (p : Pid)
  /-- `ngx_tickle::init()`, with what the kernel answers and whether `ngx_add_event` succeeds. -/
  | init (p : Pid) (a : Answers) (added : Bool)
  | sched (p : Pid) (e : Sched.Ev P ρ)
  | open_ (p : Pid) (fd : Int) (flags : Flags)
  | close (p : Pid) (fd : Int)
  | exit (p : Pid)

section

variable {P ρ : Type}

/-- The process that takes the step. -/
def Ev.pid : Ev P ρ → Pid
  | .master p | .fork p _ _ | .exec p _ | .processInit p | .init p _ _ | .sched p _ | .open_ p _ _ | .close p _
  | .exit p => p

namespace Mem

/-- The statics as the program has them. -/
def fresh : Mem P ρ := ⟨false, -1, -1, [], false, 8, fun _ => .out, .idle⟩

/-- The scheduler of the process, with the fd it would tickle. -/
def at_ (m : Mem P ρ) (fd : Fd) : Sched.St P ρ := ⟨m.chan, m.tickled, m.batch, fd, m.pc, m.handler⟩

def put (m : Mem P ρ) (s : Sched.St P ρ) : Mem P ρ :=
  { m with chan := s.chan, tickled := s.tickled, batch := s.batch, pc := s.pc, handler := s.handler }

end Mem

/-- The main thread runs nginx's code, or a module's. -/
def Proc.inLoop (x : Proc P ρ) : Prop := x.mem.handler = .idle ∧ x.mem.pc .main = .out

/-- A fresh process of the program with these descriptors. -/
def Proc.program (table : Int → Option Desc) : Proc P ρ := ⟨.single, .fresh, table, none⟩

/-- CTX after `notify::init`: the two ends of the fd, and `loop` with its read event. -/
def Proc.wire (x : Proc P ρ) (table : Int → Option Desc) (r wr : Int) (loop : List OfdId) : Proc P ρ :=
  { x with mem := { x.mem with init := true, read_fd := r, write_fd := wr }, table := table, loop := some loop }

/-- What `execve` leaves of the descriptors. -/
def Proc.inherited (x : Proc P ρ) (fd : Int) : Option Desc :=
  (x.table fd).filter fun d => !decide (Has d.flags FD_CLOEXEC)

namespace World

def sys (w : World P ρ) (x : Proc P ρ) : Sys := ⟨x.table, w.ofds, w.objs, w.next⟩

def setProc (w : World P ρ) (p : Pid) (x : Proc P ρ) : World P ρ := { w with procs := Function.update w.procs p (some x) }

def kill (w : World P ρ) (p : Pid) : World P ρ := { w with procs := Function.update w.procs p none }

def setObj (w : World P ρ) (i : ObjId) (fd : Fd) : World P ρ := { w with objs := Function.update w.objs i fd }

def putSys (w : World P ρ) (s : Sys) : World P ρ := { w with ofds := s.ofds, objs := s.objs, next := s.next }

/-- A file of other code. -/
def addFile (w : World P ρ) : World P ρ :=
  { w with ofds := Function.update w.ofds w.next (some ⟨w.next, .both, 0⟩), next := w.next + 1 }

/-- The object behind a descriptor. -/
def objOf (w : World P ρ) (x : Proc P ρ) (fd : Int) : Option ObjId := ((w.sys x).file fd).map (·.obj)

/-- Some file on which CTX.rev is registered is readable. -/
def dispatches (w : World P ρ) (x : Proc P ρ) : Bool :=
  (x.loop.getD []).any fun o =>
    match w.ofds o with
    | some f => (w.objs f.obj).readable
    | none => false

end World

variable (O : Opener)

instance [DecidableEq ρ] (x : Proc P ρ) : Decidable x.inLoop := inferInstanceAs (Decidable (_ ∧ _))

/-- What is behind a descriptor; as `open` would leave it where there is nothing yet. -/
def fdAt (w : World P ρ) (x : Proc P ρ) (fd : Int) : Fd :=
  match w.objOf x fd with
  | some i => w.objs i
  | none => O.backend.open_

/-- The scheduler of the process as it is. -/
def view (w : World P ρ) (x : Proc P ρ) : Sched.St P ρ := x.mem.at_ (fdAt O w x x.mem.read_fd)

variable [DecidableEq P] [DecidableEq ρ]

/-- `notify::init`. -/
def notifyInit (w : World P ρ) (p : Pid) (x : Proc P ρ) (a : Answers) (added : Bool) : World P ρ :=
  if x.mem.init then w
  else match O.open_ (w.sys x) a with
    | none => w.kill p
    | some (s, r, wr) =>
      match x.loop, s.table r, added with
      | some l, some d, true => (w.putSys s).setProc p (x.wire s.table r wr (d.ofd :: l))
      | _, _, _ => w.kill p

/-- `ngx_tickle::init`. -/
def init (w : World P ρ) (p : Pid) (x : Proc P ρ) (a : Answers) (added : Bool) : World P ρ :=
  match x.kind with
  | .single | .worker => notifyInit O w p x a added
  | _ => w.kill p

/-- A step of the process's scheduler that writes to or drains the fd behind the
    descriptor; where there is none the syscall fails, and the loop around it aborts. -/
def onFd (w : World P ρ) (p : Pid) (x : Proc P ρ) (fd : Int) (e : Sched.Ev P ρ) : Option (World P ρ) :=
  (Sched.step (x.mem.at_ (fdAt O w x fd)) e).map fun s =>
    match w.objOf x fd with
    | some i => (w.setProc p { x with mem := x.mem.put s }).setObj i s.fd
    | none => w.kill p

/-- `tickle`: `expect_init`, then the signal. -/
def tickle (w : World P ρ) (p : Pid) (x : Proc P ρ) (e : Sched.Ev P ρ) : Option (World P ρ) :=
  if x.mem.init then onFd O w p x x.mem.write_fd e
  else (Sched.step (x.mem.at_ (fdAt O w x x.mem.write_fd)) e).map fun _ => w.kill p

def schedStep (w : World P ρ) (p : Pid) (x : Proc P ρ) : Sched.Ev P ρ → Option (World P ρ)
  | .enter =>
    if x.inLoop ∧ w.dispatches x = true then some (w.setProc p { x with mem := { x.mem with handler := .entered } }) else none
  | .write t => tickle O w p x (.write t)
  | .tickle => tickle O w p x .tickle
  | .drain => onFd O w p x x.mem.read_fd .drain
  | e => (Sched.step (view O w x) e).map fun s => w.setProc p { x with mem := x.mem.put s }

def step (w : World P ρ) : Ev P ρ → Option (World P ρ)
  | .master p =>
    match w.procs p with
    | some x => if x.kind = .single ∧ x.loop = none then some (w.setProc p { x with kind := .master }) else none
    | none => none
  | .fork p q kind =>
    match w.procs p, w.procs q with
    | some x, none =>
      if x.kind = .master ∧ x.inLoop ∧ (kind = .worker ∨ kind = .helper) then
        some (w.setProc q { x with kind := kind, mem := { x.mem with pc := fun _ => .out } })
      else none
    | _, _ => none
  | .exec p q =>
    match w.procs p, w.procs q with
    | some x, none =>
      if x.inLoop then
        some (w.setProc q (.program x.inherited))
      else none
    | _, _ => none
  | .processInit p =>
    match w.procs p with
    | some x =>
      if x.loop = none ∧ x.kind ≠ .master ∧ x.kind ≠ .signaller then some (w.setProc p { x with loop := some [] }) else none
    | none => none
  | .init p a added =>
    match w.procs p with
    | some x => if x.inLoop ∧ a.Free (w.sys x) then some (init O w p x a added) else none
    | none => none
  | .sched p e =>
    match w.procs p with
    | some x => schedStep O w p x e
    | none => none
  | .open_ p fd flags =>
    match w.procs p with
    | some x =>
      if 0 ≤ fd ∧ x.table fd = none then
        some (w.addFile.setProc p { x with table := Function.update x.table fd (some ⟨w.next, flags⟩) })
      else none
    | none => none
  | .close p fd =>
    match w.procs p with
    | some x =>
      if fd ≠ x.mem.read_fd ∧ fd ≠ x.mem.write_fd then
        some (w.setProc p { x with table := Function.update x.table fd none })
      else none
    | none => none
  | .exit p => if (w.procs p).isSome then some (w.kill p) else none

/-- One process, started with whatever descriptors it was given. -/
def Init (w : World P ρ) : Prop :=
  ∃ table : Int → Option Desc, (∀ fd d, table fd = some d → 0 ≤ fd ∧ d.ofd < w.next) ∧
    w.procs = Function.update (fun _ => none) 0 (some (.program table)) ∧
    (∀ i, w.next ≤ i → w.ofds i = none) ∧ ∀ i f, w.ofds i = some f → f.obj < w.next

def machine (P ρ : Type) [DecidableEq P] [DecidableEq ρ] (O : Opener) : Lib.Machine (World P ρ) (Ev P ρ) :=
  ⟨Init, step O⟩

/-! ## What each step can do -/

inductive Step : World P ρ → Ev P ρ → World P ρ → Prop
  | master (w : World P ρ) (p : Pid) (x : Proc P ρ) : w.procs p = some x → x.loop = none →
      Step w (.master p) (w.setProc p { x with kind := .master })
  | fork (w : World P ρ) (p q : Pid) (kind : Kind) (x : Proc P ρ) : w.procs p = some x → w.procs q = none →
      x.kind = .master → x.inLoop → kind = .worker ∨ kind = .helper →
      Step w (.fork p q kind) (w.setProc q { x with kind := kind, mem := { x.mem with pc := fun _ => .out } })
  | exec (w : World P ρ) (p q : Pid) (x : Proc P ρ) : w.procs p = some x → w.procs q = none →
      Step w (.exec p q) (w.setProc q (.program x.inherited))
  | processInit (w : World P ρ) (p : Pid) (x : Proc P ρ) : w.procs p = some x → x.loop = none → x.kind ≠ .master →
      Step w (.processInit p) (w.setProc p { x with loop := some [] })
  | initAgain (w : World P ρ) (p : Pid) (a : Answers) (added : Bool) : Step w (.init p a added) w
  | initDone (w : World P ρ) (p : Pid) (a : Answers) (x : Proc P ρ) (s : Sys) (r wr : Int) (l : List OfdId) (d : Desc) :
      w.procs p = some x → a.Free (w.sys x) → x.kind = .single ∨ x.kind = .worker → x.mem.init = false →
      O.open_ (w.sys x) a = some (s, r, wr) → x.loop = some l → s.table r = some d →
      Step w (.init p a true) ((w.putSys s).setProc p (x.wire s.table r wr (d.ofd :: l)))
  /-- `tickle_abort!`, a call through a null pointer, or an exit. -/
  | gone (w : World P ρ) (e : Ev P ρ) : Step w e (w.kill e.pid)
  | enter (w : World P ρ) (p : Pid) (x : Proc P ρ) : w.procs p = some x → x.inLoop → w.dispatches x = true →
      Step w (.sched p .enter) (w.setProc p { x with mem := { x.mem with handler := .entered } })
  | onFd (w : World P ρ) (p : Pid) (x : Proc P ρ) (fd : Int) (e : Sched.Ev P ρ) (s : Sched.St P ρ) (i : ObjId) :
      w.procs p = some x → e.onFd = true → e ≠ .drain ∧ x.mem.init = true ∧ fd = x.mem.write_fd ∨ fd = x.mem.read_fd →
      Sched.Step (x.mem.at_ (fdAt O w x fd)) e s → w.objOf x fd = some i →
      Step w (.sched p e) ((w.setProc p { x with mem := x.mem.put s }).setObj i s.fd)
  | sched (w : World P ρ) (p : Pid) (x : Proc P ρ) (e : Sched.Ev P ρ) (s : Sched.St P ρ) : w.procs p = some x →
      e.onFd = false → e ≠ .enter → Sched.Step (view O w x) e s →
      Step w (.sched p e) (w.setProc p { x with mem := x.mem.put s })
  | open_ (w : World P ρ) (p : Pid) (fd : Int) (flags : Flags) (x : Proc P ρ) : w.procs p = some x → 0 ≤ fd →
      x.table fd = none →
      Step w (.open_ p fd flags)
        (w.addFile.setProc p { x with table := Function.update x.table fd (some ⟨w.next, flags⟩) })
  | close (w : World P ρ) (p : Pid) (fd : Int) (x : Proc P ρ) : w.procs p = some x → fd ≠ x.mem.read_fd →
      fd ≠ x.mem.write_fd → Step w (.close p fd) (w.setProc p { x with table := Function.update x.table fd none })

variable {O}

omit [DecidableEq ρ] in
theorem init_inv {w : World P ρ} {p : Pid} {a : Answers} {added : Bool} {x : Proc P ρ} (hp : w.procs p = some x)
    (ha : a.Free (w.sys x)) : Step O w (.init p a added) (init O w p x a added) := by
  have notify : x.kind = .single ∨ x.kind = .worker → Step O w (.init p a added) (notifyInit O w p x a added) := by
    intro hk
    unfold notifyInit
    split
    · exact .initAgain w p a added
    · rename_i hi
      split
      · exact .gone w _
      · rename_i s r wr ho
        split
        · rename_i l d hl hd
          exact .initDone w p a x s r wr l d hp ha hk (by simpa using hi) ho hl hd
        · exact .gone w _
  unfold init
  split
  · rename_i hk; exact notify (Or.inl hk)
  · rename_i hk; exact notify (Or.inr hk)
  · exact .gone w _

theorem onFd_inv {w w' : World P ρ} {p : Pid} {x : Proc P ρ} {fd : Int} {e : Sched.Ev P ρ} (hp : w.procs p = some x)
    (he : e.onFd = true) (hfd : e ≠ .drain ∧ x.mem.init = true ∧ fd = x.mem.write_fd ∨ fd = x.mem.read_fd)
    (h : onFd O w p x fd e = some w') : Step O w (.sched p e) w' := by
  obtain ⟨s, hs, rfl⟩ := Option.map_eq_some_iff.mp h
  split
  · rename_i i hi
    exact .onFd w p x fd e s i hp he hfd (Sched.step_inv hs) hi
  · exact .gone w _

theorem tickle_inv {w w' : World P ρ} {p : Pid} {x : Proc P ρ} {e : Sched.Ev P ρ} (hp : w.procs p = some x)
    (he : e.onFd = true) (hd : e ≠ .drain) (h : tickle O w p x e = some w') : Step O w (.sched p e) w' := by
  unfold tickle at h
  split at h
  · rename_i hi
    exact onFd_inv hp he (Or.inl ⟨hd, hi, rfl⟩) h
  · obtain ⟨s, -, rfl⟩ := Option.map_eq_some_iff.mp h
    exact .gone w _

theorem schedStep_inv {w w' : World P ρ} {p : Pid} {x : Proc P ρ} {e : Sched.Ev P ρ} (hp : w.procs p = some x)
    (h : schedStep O w p x e = some w') : Step O w (.sched p e) w' := by
  have other : e.onFd = false → e ≠ .enter →
      (Sched.step (view O w x) e).map (fun s => w.setProc p { x with mem := x.mem.put s }) = some w' →
      Step O w (.sched p e) w' := by
    intro he hn h
    obtain ⟨s, hs, rfl⟩ := Option.map_eq_some_iff.mp h
    exact .sched w p x e s hp he hn (Sched.step_inv hs)
  cases e with
  | enter =>
    simp only [schedStep, Option.ite_none_right_eq_some, Option.some.injEq] at h
    obtain ⟨⟨h1, h2⟩, rfl⟩ := h
    exact .enter w p x hp h1 h2
  | write t => exact tickle_inv hp rfl (by simp) h
  | tickle => exact tickle_inv hp rfl (by simp) h
  | drain => exact onFd_inv hp rfl (Or.inr rfl) h
  | _ => exact other rfl (by simp) h

theorem step_inv {w w' : World P ρ} {e : Ev P ρ} (h : step O w e = some w') : Step O w e w' := by
  cases e with
  | master p =>
    simp only [step] at h
    split at h
    · rename_i x hp
      simp only [Option.ite_none_right_eq_some, Option.some.injEq] at h
      obtain ⟨⟨-, h1⟩, rfl⟩ := h
      exact .master w p x hp h1
    · cases h
  | fork p q kind =>
    simp only [step] at h
    split at h
    · rename_i x hp hq
      simp only [Option.ite_none_right_eq_some, Option.some.injEq] at h
      obtain ⟨⟨h1, h2, h3⟩, rfl⟩ := h
      exact .fork w p q kind x hp hq h1 h2 h3
    · cases h
  | exec p q =>
    simp only [step] at h
    split at h
    · rename_i x hp hq
      simp only [Option.ite_none_right_eq_some, Option.some.injEq] at h
      obtain ⟨-, rfl⟩ := h
      exact .exec w p q x hp hq
    · cases h
  | processInit p =>
    simp only [step] at h
    split at h
    · rename_i x hp
      simp only [Option.ite_none_right_eq_some, Option.some.injEq] at h
      obtain ⟨⟨h1, h2, -⟩, rfl⟩ := h
      exact .processInit w p x hp h1 h2
    · cases h
  | init p a added =>
    simp only [step] at h
    split at h
    · rename_i x hp
      simp only [Option.ite_none_right_eq_some, Option.some.injEq] at h
      obtain ⟨⟨-, ha⟩, rfl⟩ := h
      exact init_inv hp ha
    · cases h
  | sched p e =>
    simp only [step] at h
    split at h
    · rename_i x hp
      exact schedStep_inv hp h
    · cases h
  | open_ p fd flags =>
    simp only [step] at h
    split at h
    · rename_i x hp
      simp only [Option.ite_none_right_eq_some, Option.some.injEq] at h
      obtain ⟨⟨h1, h2⟩, rfl⟩ := h
      exact .open_ w p fd flags x hp h1 h2
    · cases h
  | close p fd =>
    simp only [step] at h
    split at h
    · rename_i x hp
      simp only [Option.ite_none_right_eq_some, Option.some.injEq] at h
      obtain ⟨⟨h1, h2⟩, rfl⟩ := h
      exact .close w p fd x hp h1 h2
    · cases h
  | exit p =>
    simp only [step, Option.ite_none_right_eq_some, Option.some.injEq] at h
    obtain ⟨-, rfl⟩ := h
    exact .gone w _

end

end NgxTickle.Boot
