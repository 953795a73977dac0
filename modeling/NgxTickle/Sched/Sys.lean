/-
  NgxTickle.Sched.Sys — the scheduler over a notify backend, by its single syscalls
  (`src/notify/mod.rs`: `tickle`, `on_tickled`; the backend is chosen when the crate is
  built). Everything that does not touch the fd is the scheduler's own step; a write of
  `schedule`, a read of the drain and a write of the limit exit are one syscall each,
  with the loop around it, so other threads move between them.

  `view` is such a state as the scheduler's model has it. The drain takes effect with
  its last read: until then the fd counts as readable, as it was when the handler was
  dispatched. `view_sim` carries runs to the model and `follows_model` back, so what is
  reached is the same over every lawful backend (`same_views`, `same_shared`).
-/

import NgxTickle.Notify.Signal
import NgxTickle.Sched.Wakeup

namespace NgxTickle.Sched

open NgxTickle.Notify

/-- The event writes to the fd or drains it. -/
def Ev.onFd {P ρ : Type} : Ev P ρ → Bool
  | .write _ | .drain | .tickle => true
  | _ => false

namespace Sys

structure SysSt (P ρ : Type) where
  chan : List ρ
  tickled : Bool
  batch : UInt32
  fd : Fd
  pc : Thread P → Pc ρ
  handler : Handler ρ
  /-- A loop has reached `tickle_abort!`. -/
  aborted : Bool

inductive SysEv (P ρ : Type) where
  | core (e : Ev P ρ)
  | write (t : Thread P) (r : Ret)
  | read (r : Ret)
  | tickle (r : Ret)
  deriving DecidableEq, Repr

section

variable {P ρ : Type}

/-- A fd that is readable or not, and nothing else. -/
def bit : Bool → Fd
  | true => (Fd.new 1 Nat.one_pos).write
  | false => Fd.new 1 Nat.one_pos

@[simp] theorem bit_readable (b : Bool) : (bit b).readable = b := by cases b <;> simp [bit]

@[simp] theorem bit_write (b : Bool) : (bit b).write = bit true := by cases b <;> rfl

@[simp] theorem bit_drain (b : Bool) : (bit b).drain = bit false := by cases b <;> rfl

def Handler.inDrain : Handler ρ → Bool
  | .entered => true
  | _ => false

def SysSt.view (s : SysSt P ρ) : St P ρ :=
  ⟨s.chan, s.tickled, s.batch, bit (s.fd.readable || Handler.inDrain s.handler), s.pc, s.handler⟩

/-- The scheduler's fields after one of its steps. -/
def SysSt.put (s : SysSt P ρ) (v : St P ρ) : SysSt P ρ :=
  { s with chan := v.chan, tickled := v.tickled, batch := v.batch, pc := v.pc, handler := v.handler }

/-- What the loop around a syscall does: call again, go on with `f`, or abort. -/
def SysSt.after (s : SysSt P ρ) (f : SysSt P ρ → SysSt P ρ) : Next → SysSt P ρ
  | .again => s
  | .done => f s
  | .abort => { s with aborted := true }

def fresh (P ρ : Type) (B : Backend) : SysSt P ρ := ⟨[], false, 8, B.open_, fun _ => .out, .idle, false⟩

variable [DecidableEq P]

def SysSt.setPc (s : SysSt P ρ) (t : Thread P) (c : Pc ρ) : SysSt P ρ := { s with pc := Function.update s.pc t c }

variable [DecidableEq ρ]

def sysStep (B : Backend) (s : SysSt P ρ) : SysEv P ρ → Option (SysSt P ρ)
  | .core e => if s.aborted = false ∧ e.onFd = false then (step s.view e).map s.put else none
  | .write t r =>
    if s.aborted = false ∧ s.pc t = .won then
      (B.write s.fd r).map fun fd => ({ s with fd := fd }).after (·.setPc t .out) (B.signal r)
    else none
  | .read r =>
    if s.aborted = false ∧ s.handler = .entered then
      (B.read s.fd r).map fun fd => ({ s with fd := fd }).after ({ · with handler := .drained }) (B.drain r)
    else none
  | .tickle r =>
    if s.aborted = false ∧ s.handler = .limitHit then
      (B.write s.fd r).map fun fd => ({ s with fd := fd }).after ({ · with handler := .idle }) (B.signal r)
    else none

def sys (P ρ : Type) [DecidableEq P] [DecidableEq ρ] (B : Backend) : Lib.Machine (SysSt P ρ) (SysEv P ρ) :=
  ⟨fun s => s = fresh P ρ B, sysStep B⟩

/-! ## What a step can do, over a lawful backend -/

inductive SysStep (B : Backend) : SysSt P ρ → SysEv P ρ → SysSt P ρ → Prop
  | core (s : SysSt P ρ) (e : Ev P ρ) (v : St P ρ) : e.onFd = false → Step s.view e v →
      SysStep B s (.core e) (s.put v)
  | wrote (s : SysSt P ρ) (t : Thread P) (r : Ret) (fd : Fd) : s.pc t = .won → B.signal r = .done →
      fd.readable = true → fd.unread ≤ s.fd.unread + 1 → SysStep B s (.write t r) { s.setPc t .out with fd := fd }
  | writeIntr (s : SysSt P ρ) (t : Thread P) : s.pc t = .won → B.signal .eintr = .again →
      SysStep B s (.write t .eintr) s
  | drained (s : SysSt P ρ) (r : Ret) : s.handler = .entered → B.drain r = .done →
      SysStep B s (.read r) { s with fd := s.fd.drain, handler := .drained }
  | took (s : SysSt P ρ) (r : Ret) (fd : Fd) : s.handler = .entered → B.drain r = .again → 0 < r.rc →
      fd.unread < s.fd.unread → SysStep B s (.read r) { s with fd := fd }
  | readIntr (s : SysSt P ρ) : s.handler = .entered → B.drain .eintr = .again → SysStep B s (.read .eintr) s
  | tickled (s : SysSt P ρ) (r : Ret) (fd : Fd) : s.handler = .limitHit → B.signal r = .done → fd.readable = true →
      fd.unread ≤ s.fd.unread + 1 → SysStep B s (.tickle r) { s with fd := fd, handler := .idle }
  | tickleIntr (s : SysSt P ρ) : s.handler = .limitHit → B.signal .eintr = .again → SysStep B s (.tickle .eintr) s

theorem writes_done {B : Backend} {fd fd' : Fd} {r : Ret} (h : B.Writes fd r fd') :
    B.signal r = .done ∧ fd'.readable = true ∧ fd'.unread ≤ fd.unread + 1 ∨
      B.signal r = .again ∧ r = .eintr ∧ fd' = fd := by
  cases h with
  | ok hd _ _ => exact Or.inl ⟨hd, by simp, Fd.write_le fd⟩
  | full hd _ hf =>
    have := fd.cap_pos
    exact Or.inl ⟨hd, Fd.readable_iff.mpr (by omega), Nat.le_succ _⟩
  | intr ha _ hr => exact Or.inr ⟨ha, hr, rfl⟩

theorem sysStep_inv {B : Backend} (hB : B.Lawful) {s s' : SysSt P ρ} {e : SysEv P ρ} (h : sysStep B s e = some s') :
    s.aborted = false ∧ SysStep B s e s' := by
  cases e with
  | core e =>
    simp only [sysStep, Option.ite_none_right_eq_some, Option.map_eq_some_iff] at h
    obtain ⟨⟨ha, hf⟩, v, hv, rfl⟩ := h
    exact ⟨ha, .core s e v hf (step_inv hv)⟩
  | write t r =>
    simp only [sysStep, Option.ite_none_right_eq_some, Option.map_eq_some_iff] at h
    obtain ⟨⟨ha, hpc⟩, fd, hw, rfl⟩ := h
    refine ⟨ha, ?_⟩
    rcases writes_done (hB.writes hw) with ⟨hd, hr, hle⟩ | ⟨hd, rfl, rfl⟩
    · rw [hd]; exact .wrote s t r fd hpc hd hr hle
    · rw [hd]; exact .writeIntr s t hpc hd
  | read r =>
    simp only [sysStep, Option.ite_none_right_eq_some, Option.map_eq_some_iff] at h
    obtain ⟨⟨ha, hh⟩, fd, hr, rfl⟩ := h
    refine ⟨ha, ?_⟩
    cases hB.reads hr with
    | last _ hd he => rw [hd, he]; exact .drained s r hh hd
    | part _ hd hpos hlt _ => rw [hd]; exact .took s r fd hh hd hpos hlt
    | intr hd he => subst he; rw [hd]; exact .readIntr s hh hd
  | tickle r =>
    simp only [sysStep, Option.ite_none_right_eq_some, Option.map_eq_some_iff] at h
    obtain ⟨⟨ha, hh⟩, fd, hw, rfl⟩ := h
    refine ⟨ha, ?_⟩
    rcases writes_done (hB.writes hw) with ⟨hd, hr, hle⟩ | ⟨hd, rfl, rfl⟩
    · rw [hd]; exact .tickled s r fd hh hd hr hle
    · rw [hd]; exact .tickleIntr s hh hd

/-! ## The view -/

/-- The event of the model that this one is, if the loop around the syscall ends. -/
def event (B : Backend) : SysEv P ρ → List (Ev P ρ)
  | .core e => [e]
  | .write t r => if B.signal r = .done then [.write t] else []
  | .read r => if B.drain r = .done then [.drain] else []
  | .tickle r => if B.signal r = .done then [.tickle] else []

omit [DecidableEq ρ] in
/-- A step that does not touch the fd leaves it, and enters the handler only if it is readable. -/
theorem offFd_step {v v' : St P ρ} {e : Ev P ρ} (he : e.onFd = false) (h : Step v e v') :
    v'.fd = v.fd ∧ (Handler.inDrain v'.handler = Handler.inDrain v.handler ∨
      Handler.inDrain v'.handler = true ∧ Handler.inDrain v.handler = false ∧ v.fd.readable = true) := by
  cases h with
  | write t _ => cases he
  | drain _ => cases he
  | tickle _ => cases he
  | enter hh _ hr => exact ⟨rfl, Or.inr ⟨rfl, by rw [hh]; rfl, hr⟩⟩
  | call t r _ _ => exact ⟨rfl, Or.inl rfl⟩
  | send t r _ => exact ⟨rfl, Or.inl rfl⟩
  | casWon t _ _ => exact ⟨rfl, Or.inl rfl⟩
  | casLost t _ _ => exact ⟨rfl, Or.inl rfl⟩
  | setBatch value => exact ⟨rfl, Or.inl rfl⟩
  | clear hh => exact ⟨rfl, Or.inl (by rw [hh]; rfl)⟩
  | load hh => exact ⟨rfl, Or.inl (by rw [hh]; rfl)⟩
  | empty limit hh _ => exact ⟨rfl, Or.inl (by rw [hh]; rfl)⟩
  | nonempty limit hh _ => exact ⟨rfl, Or.inl (by rw [hh]; rfl)⟩
  | recvNone limit cnt hh _ => exact ⟨rfl, Or.inl (by rw [hh]; rfl)⟩
  | recvSome limit cnt r rest hh _ => exact ⟨rfl, Or.inl (by rw [hh]; rfl)⟩
  | run limit cnt r hh => exact ⟨rfl, Or.inl (by rw [hh]; rfl)⟩
  | retLimit limit cnt r hh _ _ => exact ⟨rfl, Or.inl (by rw [hh]; rfl)⟩
  | retNext limit cnt r hh _ _ => exact ⟨rfl, Or.inl (by rw [hh]; rfl)⟩

omit [DecidableEq ρ] in
theorem view_put {s : SysSt P ρ} {v : St P ρ} {e : Ev P ρ} (he : e.onFd = false) (h : Step s.view e v) :
    (s.put v).view = v := by
  obtain ⟨hf, hh⟩ := offFd_step he h
  have hbit : bit (s.fd.readable || Handler.inDrain v.handler) = v.fd := by
    rw [hf]
    show _ = bit (s.fd.readable || Handler.inDrain s.handler)
    rcases hh with hh | ⟨h1, h2, h3⟩
    · rw [show Handler.inDrain v.handler = Handler.inDrain s.handler from hh]
    · have h2 : Handler.inDrain s.handler = false := h2
      have h3 : (bit (s.fd.readable || Handler.inDrain s.handler)).readable = true := h3
      rw [bit_readable, h2, Bool.or_false] at h3
      rw [h1, h2, h3]
      rfl
  show (⟨v.chan, v.tickled, v.batch, bit (s.fd.readable || Handler.inDrain v.handler), v.pc, v.handler⟩ : St P ρ) = v
  rw [hbit]

/-- The model from a fd that holds one notification or none. -/
def unit (P ρ : Type) [DecidableEq P] [DecidableEq ρ] : Lib.Machine (St P ρ) (Ev P ρ) :=
  ⟨fun v => v = start [] false 8 (bit false), step⟩

theorem unit_sim : Lib.Machine.Sim (unit P ρ) (machine P ρ) id fun e => [e] := by
  constructor
  · rintro v rfl
    exact ⟨1, Nat.one_pos, rfl⟩
  · intro v e v' h
    have h : (machine P ρ).step v e = some v' := h
    exact .single h

theorem view_step {B : Backend} {s s' : SysSt P ρ} {e : SysEv P ρ} (h : SysStep B s e s') :
    (unit P ρ).Steps s.view (event B e) s'.view := by
  have one : ∀ {v v' : St P ρ} {e : Ev P ρ}, Step v e v' → (unit P ρ).Steps v [e] v' := by
    intro v v' e h
    have h : (unit P ρ).step v e = some v' := h.eq
    exact .single h
  cases h with
  | core e v he hv => rw [view_put he hv]; exact one hv
  | wrote t r fd hpc hd hr _ =>
    have h := Step.write s.view t hpc
    have hv : ({ s.setPc t .out with fd := fd } : SysSt P ρ).view = { s.view.setPc t .out with fd := s.view.fd.write } := by
      simp [SysSt.view, SysSt.setPc, St.setPc, hr]
    rw [hv]
    simpa [event, hd] using one h
  | writeIntr t _ hd => simpa [event, hd] using Lib.Machine.Steps.nil s.view
  | drained r hh hd =>
    have h := Step.drain s.view hh
    have hv : ({ s with fd := s.fd.drain, handler := .drained } : SysSt P ρ).view =
        { s.view with handler := .drained, fd := s.view.fd.drain } := by
      simp [SysSt.view, Handler.inDrain]
    rw [hv]
    simpa [event, hd] using one h
  | took r fd hh hd _ _ =>
    have hv : ({ s with fd := fd } : SysSt P ρ).view = s.view := by
      simp [SysSt.view, hh, Handler.inDrain]
    rw [hv]
    simpa [event, hd] using Lib.Machine.Steps.nil s.view
  | readIntr _ hd => simpa [event, hd] using Lib.Machine.Steps.nil s.view
  | tickled r fd hh hd hr _ =>
    have h := Step.tickle s.view hh
    have hv : ({ s with fd := fd, handler := .idle } : SysSt P ρ).view =
        { s.view with handler := .idle, fd := s.view.fd.write } := by
      simp [SysSt.view, hr]
    rw [hv]
    simpa [event, hd] using one h
  | tickleIntr _ hd => simpa [event, hd] using Lib.Machine.Steps.nil s.view

theorem view_sim {B : Backend} (hB : B.Lawful) : Lib.Machine.Sim (sys P ρ B) (unit P ρ) SysSt.view (event B) := by
  constructor
  · rintro s rfl
    show SysSt.view (fresh P ρ B) = _
    simp [SysSt.view, fresh, start, Backend.open_, Handler.inDrain]
  · intro s e s' h
    exact view_step (sysStep_inv hB h).2

/-! ## Following the model -/

/-- The view is `v`, with the fd as readable as the model has it. -/
structure Shows (s : SysSt P ρ) (v : St P ρ) : Prop where
  view : s.view = v
  fd : s.fd.readable = v.fd.readable
  running : s.aborted = false

/-- A syscall whose loop ends gives the model's event. -/
theorem shows_of_step {B : Backend} (hB : B.Lawful) {s s' : SysSt P ρ} {e : SysEv P ρ} {v v' : St P ρ} {b : Ev P ρ}
    (hv : s.view = v) (h : sysStep B s e = some s') (he : event B e = [b]) (hst : step v b = some v')
    (hfd : s'.fd.readable = v'.fd.readable) (ha : s'.aborted = false) : Shows s' v' := by
  refine ⟨?_, hfd, ha⟩
  have h1 := view_step (sysStep_inv hB h).2
  have h2 : (unit P ρ).step v b = some v' := hst
  rw [he, hv] at h1
  exact h1.det (.single h2)

/-- The main thread, left alone in the drain, reads until nothing is left. -/
theorem drains {B : Backend} (hB : B.Lawful) {s : SysSt P ρ} (hh : s.handler = .entered) (ha : s.aborted = false) :
    ∃ tr s', (sys P ρ B).Steps s tr s' ∧ s'.view = { s.view with handler := .drained, fd := s.view.fd.drain } ∧
      s'.fd.readable = false ∧ s'.aborted = false := by
  generalize hn : s.fd.unread = n
  induction n using Nat.strongRecOn generalizing s with
  | ind n ih =>
    subst hn
    obtain ⟨r, fd, hr, hne⟩ := hB.read_some s.fd
    have hstep : (sys P ρ B).step s (.read r) =
        some (({ s with fd := fd } : SysSt P ρ).after ({ · with handler := .drained }) (B.drain r)) := by
      show sysStep B s (.read r) = _
      simp [sysStep, ha, hh, hr]
    cases hB.reads hr with
    | last _ hd he =>
      rw [hd] at hstep
      refine ⟨[.read r], _, .single hstep, ?_, by simp [SysSt.after, he], ha⟩
      simp [SysSt.after, SysSt.view, Handler.inDrain, he]
    | part _ hd _ hlt _ =>
      rw [hd] at hstep
      obtain ⟨tr, s', hs, hv, hf, ha'⟩ := ih fd.unread hlt (s := { s with fd := fd }) hh ha rfl
      refine ⟨.read r :: tr, s', .cons hstep hs, ?_, hf, ha'⟩
      rw [hv]
      simp [SysSt.view, hh, Handler.inDrain]
    | intr _ he => exact absurd he hne

theorem follows_model {B : Backend} (hB : B.Lawful) : Lib.Machine.Follows (sys P ρ B) (unit P ρ) Shows := by
  constructor
  · rintro v rfl
    refine ⟨fresh P ρ B, rfl, (view_sim hB).init _ rfl, ?_, rfl⟩
    simp [fresh, start, Backend.open_]
  · intro s v b v' hR hst
    have hst : step v b = some v' := hst
    obtain ⟨hv, hf, ha⟩ := hR
    by_cases hb : b.onFd = false
    · have hs := step_inv hst
      have h : sysStep B s (.core b) = some (s.put v') := by simp [sysStep, ha, hb, hv, hst]
      refine ⟨[.core b], s.put v', .single h, view_put hb (by rw [hv]; exact hs), ?_, ha⟩
      rw [(offFd_step hb hs).1]
      exact hf
    · cases step_inv hst with
      | write t hpc =>
        obtain ⟨r, fd, hw, hne⟩ := hB.write_some s.fd
        rcases writes_done (hB.writes hw) with ⟨hd, hr, -⟩ | ⟨-, he, -⟩
        · have hpc : s.pc t = .won := by rw [← hv] at hpc; exact hpc
          have h : sysStep B s (.write t r) = some { s.setPc t .out with fd := fd } := by
            simp [sysStep, ha, hpc, hw, hd, SysSt.after, SysSt.setPc]
          exact ⟨[.write t r], _, .single h, shows_of_step hB hv h (by simp [event, hd]) hst (by simp [hr]) ha⟩
        · exact absurd he hne
      | tickle hh =>
        obtain ⟨r, fd, hw, hne⟩ := hB.write_some s.fd
        rcases writes_done (hB.writes hw) with ⟨hd, hr, -⟩ | ⟨-, he, -⟩
        · have hh : s.handler = .limitHit := by rw [← hv] at hh; exact hh
          have h : sysStep B s (.tickle r) = some { s with fd := fd, handler := .idle } := by
            simp [sysStep, ha, hh, hw, hd, SysSt.after]
          exact ⟨[.tickle r], _, .single h, shows_of_step hB hv h (by simp [event, hd]) hst (by simp [hr]) ha⟩
        · exact absurd he hne
      | drain hh =>
        have hh : s.handler = .entered := by rw [← hv] at hh; exact hh
        obtain ⟨tr, s', hs, hv', hf', ha'⟩ := drains hB hh ha
        exact ⟨tr, s', hs, by rw [hv', hv], by simp [hf'], ha'⟩
      | _ => exact absurd rfl hb

theorem unit_reach {B : Backend} (hB : B.Lawful) {s : SysSt P ρ} (h : (sys P ρ B).Reach s) :
    (unit P ρ).Reach s.view := by
  obtain ⟨tr, h⟩ := h
  exact ⟨_, (view_sim hB).run h⟩

/-- No loop of a run reaches its abort branch. -/
theorem sys_running {B : Backend} (hB : B.Lawful) :
    (sys P ρ B).Invariant fun s => s.aborted = false := by
  constructor
  · rintro s rfl
    rfl
  · intro s e s' _ h
    obtain ⟨ha, h⟩ := sysStep_inv hB h
    cases h <;> exact ha

/-- In the event loop with no thread inside `schedule`, a queued runnable has a readable
    fd, over every lawful backend. -/
theorem sys_wakeup {B : Backend} (hB : B.Lawful) {s : SysSt P ρ} (h : (sys P ρ B).Reach s) (hh : s.handler = .idle)
    (hq : ∀ t, s.pc t = .out) (hc : s.chan ≠ []) : s.fd.readable = true := by
  obtain ⟨tr, hr⟩ := unit_reach hB h
  have hr := unit_sim.run hr
  have := watched_rest (inv_reach hr.reach).queued (fun h => h) hh hq hc
  simpa [SysSt.view, hh, Handler.inDrain] using this

/-! ## The same over both backends -/

/-- The views reached are the same. -/
theorem same_views {B B' : Backend} (hB : B.Lawful) (hB' : B'.Lawful) {s : SysSt P ρ} (h : (sys P ρ B).Reach s) :
    ∃ s', (sys P ρ B').Reach s' ∧ s'.view = s.view := by
  obtain ⟨s', hs', hv⟩ := (follows_model hB').reach (unit_reach hB h)
  exact ⟨s', hs', hv.view⟩

/-- So are the combinations of the shared memory, the fd as it is and the threads'
    places, whatever a drain has read so far. -/
theorem same_shared {B B' : Backend} (hB : B.Lawful) (hB' : B'.Lawful) {s : SysSt P ρ} (h : (sys P ρ B).Reach s) :
    ∃ s', (sys P ρ B').Reach s' ∧ s'.tickled = s.tickled ∧ s'.chan = s.chan ∧ s'.batch = s.batch ∧ s'.pc = s.pc ∧
      s'.fd.readable = s.fd.readable := by
  have hu := unit_reach hB h
  by_cases hd : Handler.inDrain s.handler = true ∧ s.fd.readable = false
  · -- the loop has read everything and not seen it yet: the other drain is over
    obtain ⟨hd, hr⟩ := hd
    have hh : s.view.handler = .entered := by
      show s.handler = .entered
      cases he : s.handler <;> simp_all [Handler.inDrain]
    have hst : (unit P ρ).step s.view .drain = some { s.view with handler := .drained, fd := s.view.fd.drain } :=
      (Step.drain s.view hh).eq
    obtain ⟨tr, hrun⟩ := hu
    obtain ⟨s', hs', hv⟩ := (follows_model hB').reach (hrun.snoc hst).reach
    have hfd := hv.fd
    have hv := hv.view
    refine ⟨s', hs', ?_, ?_, ?_, ?_, by rw [hfd, hr]; simp⟩
    · exact congrArg St.tickled hv
    · exact congrArg St.chan hv
    · exact congrArg St.batch hv
    · exact congrArg St.pc hv
  · obtain ⟨s', hs', hv⟩ := (follows_model hB').reach hu
    have hfd := hv.fd
    have hv := hv.view
    refine ⟨s', hs', ?_, ?_, ?_, ?_, ?_⟩
    · exact congrArg St.tickled hv
    · exact congrArg St.chan hv
    · exact congrArg St.batch hv
    · exact congrArg St.pc hv
    · rw [hfd]
      show (bit (s.fd.readable || Handler.inDrain s.handler)).readable = s.fd.readable
      cases hr : s.fd.readable with
      | true => simp
      | false => simpa [hr] using hd

/-- The eventfd and the self-pipe are one wakeup signal, and the scheduler over them
    reaches the same states. -/
theorem backends_agree (cap : Nat) (hcap : 0 < cap) :
    (∀ B, B = eventfd ∨ B = selfpipe cap hcap →
      (∀ (tr : List (Signal.Ev P)) s s' p r, (Signal.machine B P).Run tr s → Signal.step B s (.write p r) = some s' →
        s'.signals p = .out → s'.fd.readable = true) ∧
      (∀ (pre post : List (Signal.Ev P)) m s r, (Signal.machine B P).Run pre m →
        (Signal.machine B P).Steps m (.read r :: post) s → B.drain r = .done → .drain ∉ post →
        (s.fd.readable = true ↔ ∃ p r', .write p r' ∈ post ∧ B.wrote r' = true)) ∧
      ∀ s, (Signal.machine B P).Reach s → (∀ p, s.signals p ≠ .aborted) ∧ s.drain ≠ .aborted) ∧
    (∀ v : St P ρ, (∃ s, (sys P ρ eventfd).Reach s ∧ s.view = v) ↔
      ∃ s, (sys P ρ (selfpipe cap hcap)).Reach s ∧ s.view = v) ∧
    ∀ tickled chan batch pc readable,
      (∃ s : SysSt P ρ, (sys P ρ eventfd).Reach s ∧ s.tickled = tickled ∧ s.chan = chan ∧ s.batch = batch ∧
        s.pc = pc ∧ s.fd.readable = readable) ↔
      ∃ s : SysSt P ρ, (sys P ρ (selfpipe cap hcap)).Reach s ∧ s.tickled = tickled ∧ s.chan = chan ∧
        s.batch = batch ∧ s.pc = pc ∧ s.fd.readable = readable := by
  have hp := selfpipe_lawful cap hcap
  have he := eventfd_lawful
  refine ⟨fun B hBs => ?_, fun v => ⟨?_, ?_⟩, fun tickled chan batch pc readable => ⟨?_, ?_⟩⟩
  · have hB : B.Lawful := by
      rcases hBs with rfl | rfl
      · exact he
      · exact hp
    refine ⟨fun tr s s' p r _ hst hret => Signal.signal_readable hB hst hret, ?_, fun s h => ?_⟩
    · intro pre post m s r _ hpost hret hne
      exact Signal.drained_iff hB hpost hret hne
    · have hi := (Signal.never_aborts hB).reach h
      exact ⟨hi.signals, hi.drain⟩
  · rintro ⟨s, hs, rfl⟩
    exact same_views he hp hs
  · rintro ⟨s, hs, rfl⟩
    exact same_views hp he hs
  · rintro ⟨s, hs, rfl, rfl, rfl, rfl, rfl⟩
    exact same_shared he hp hs
  · rintro ⟨s, hs, rfl, rfl, rfl, rfl, rfl⟩
    exact same_shared hp he hs

/-- Three signals fill a pipe of two bytes; the second is interrupted once. -/
def filled : List (Signal.Ev Nat) :=
  [.signal 0, .write 0 ⟨1, .eagain⟩, .signal 1, .write 1 .eintr, .write 1 ⟨1, .eagain⟩, .signal 2]

/-- The third finds it full; the drain takes one byte at a time, and is interrupted between. -/
def halfDrained : List (Signal.Ev Nat) :=
  filled ++ [.write 2 .eagain, .drain, .read ⟨1, .eagain⟩, .read .eintr, .read ⟨1, .eagain⟩]

/-- A signal that finds the pipe full leaves it readable, a drain by single bytes leaves
    it unreadable until the next write; and what one schedule over the eventfd reaches, a
    self-pipe of one byte reaches too. -/
theorem backends_agree_one :
    (∃ s s' : Signal.St Nat, (Signal.machine (selfpipe 2 Nat.two_pos) Nat).Run filled s ∧
      Signal.step (selfpipe 2 Nat.two_pos) s (.write 2 .eagain) = some s' ∧ s'.signals 2 = .out ∧
      s'.fd.readable = true) ∧
    (∃ m s s' : Signal.St Nat, (Signal.machine (selfpipe 2 Nat.two_pos) Nat).Run halfDrained m ∧
      (Signal.machine (selfpipe 2 Nat.two_pos) Nat).Steps m [.read .eagain] s ∧ ¬ s.fd.readable = true ∧
      (Signal.machine (selfpipe 2 Nat.two_pos) Nat).Steps m [.read .eagain, .signal 0, .write 0 ⟨1, .eagain⟩] s' ∧
      s'.fd.readable = true) ∧
    ∃ s : SysSt Nat Nat, (sys Nat Nat (selfpipe 1 Nat.one_pos)).Reach s ∧ s.tickled = true ∧ s.chan = [7] ∧
      s.fd.readable = true := by
  have h2 := (backends_agree (P := Nat) (ρ := Nat) 2 Nat.two_pos).1 (selfpipe 2 Nat.two_pos) (Or.inr rfl)
  obtain ⟨hsignal, hdrain, -⟩ := h2
  refine ⟨?_, ?_, ?_⟩
  · obtain ⟨s, hs, s', hst, hret⟩ : ∃ s, (Signal.machine (selfpipe 2 Nat.two_pos) Nat).exec
        ⟨(selfpipe 2 Nat.two_pos).open_, fun _ => .out, .out⟩ filled = some s ∧
        ∃ s', Signal.step (selfpipe 2 Nat.two_pos) s (.write 2 .eagain) = some s' ∧ s'.signals 2 = .out :=
      ⟨_, rfl, _, rfl, rfl⟩
    have hrun : (Signal.machine (selfpipe 2 Nat.two_pos) Nat).Run filled s := ⟨_, rfl, Lib.Machine.steps_of_exec hs⟩
    exact ⟨s, s', hrun, hst, hret, hsignal filled s s' 2 .eagain hrun hst hret⟩
  · obtain ⟨m, hm, s, hs, s', hs'⟩ : ∃ m, (Signal.machine (selfpipe 2 Nat.two_pos) Nat).exec
        ⟨(selfpipe 2 Nat.two_pos).open_, fun _ => .out, .out⟩ halfDrained = some m ∧
        ∃ s, (Signal.machine (selfpipe 2 Nat.two_pos) Nat).exec m [.read .eagain] = some s ∧
        ∃ s', (Signal.machine (selfpipe 2 Nat.two_pos) Nat).exec m
          [.read .eagain, .signal 0, .write 0 ⟨1, .eagain⟩] = some s' := ⟨_, rfl, _, rfl, _, rfl⟩
    have hrun : (Signal.machine (selfpipe 2 Nat.two_pos) Nat).Run halfDrained m := ⟨_, rfl, Lib.Machine.steps_of_exec hm⟩
    have hs := Lib.Machine.steps_of_exec hs
    have hs' := Lib.Machine.steps_of_exec hs'
    refine ⟨m, s, s', hrun, hs, ?_, hs', ?_⟩
    · rw [hdrain halfDrained [] m s .eagain hrun hs rfl (by simp)]
      simp
    · rw [hdrain halfDrained _ m s' .eagain hrun hs' rfl (by simp)]
      exact ⟨0, ⟨1, .eagain⟩, by simp, rfl⟩
  · obtain ⟨s, hs, ht, hc, hr⟩ : ∃ s : SysSt Nat Nat, (sys Nat Nat eventfd).exec (fresh Nat Nat eventfd)
        [.core (.call (.other 0) 7), .core (.send (.other 0) 7), .core (.cas (.other 0) true),
         .write (.other 0) ⟨0, .eagain⟩] = some s ∧ s.tickled = true ∧ s.chan = [7] ∧ s.fd.readable = true :=
      ⟨_, rfl, rfl, rfl, rfl⟩
    have hreach : (sys Nat Nat eventfd).Reach s := ⟨_, fresh Nat Nat eventfd, rfl, Lib.Machine.steps_of_exec hs⟩
    obtain ⟨s', hs', h1, h2, -, -, h5⟩ :=
      ((backends_agree 1 Nat.one_pos).2.2 _ _ _ _ _).mp ⟨s, hreach, rfl, rfl, rfl, rfl, rfl⟩
    exact ⟨s', hs', by rw [h1, ht], by rw [h2, hc], by rw [h5, hr]⟩

end

end Sys

end NgxTickle.Sched
