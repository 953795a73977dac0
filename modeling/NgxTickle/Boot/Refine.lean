/-
  NgxTickle.Boot.Refine — each process over the scheduler of `Sched.Model`. If the program
  is forked only while no thread of the parent is inside `schedule`, what a process sees
  of its own scheduler is a state that the scheduler reaches alone (`view_reach`), from
  before its `init` on: until then a thread that would write to the fd aborts the
  process, so all that a child can inherit is the batch size. What holds of every
  reachable state of the scheduler therefore holds in each process; with `Boot.Own`, a
  queued runnable makes the process's own event loop dispatch the handler
  (`process_scheduler`).

  A fork while another thread of the master is between its `compare_exchange` and its
  tickle hands a set TICKLED down, and nothing ever wakes the child
  (`fork_in_schedule_stalls`).
-/

import NgxTickle.Boot.Own

namespace NgxTickle.Boot

open NgxTickle.Notify
open NgxTickle.Sched (Thread Pc Handler)

variable {P ρ : Type}

/-- The parent of a fork has no thread inside `schedule`. -/
def QuietFork (w : World P ρ) : Ev P ρ → Prop
  | .fork p _ _ => ∀ x, w.procs p = some x → ∀ t, x.mem.pc t = .out
  | _ => True

/-! ## What the process sees -/

variable {O : Opener}

theorem put_at (m : Mem P ρ) (s : Sched.St P ρ) : (m.put s).at_ s.fd = s := rfl

theorem fdAt_some {w : World P ρ} {x : Proc P ρ} {fd : Int} {i : ObjId} (h : w.objOf x fd = some i) :
    fdAt O w x fd = w.objs i := by
  simp only [fdAt, h]

theorem fdAt_none {w : World P ρ} {x : Proc P ρ} {fd : Int} (h : w.objOf x fd = none) :
    fdAt O w x fd = O.backend.open_ := by
  simp only [fdAt, h]

/-- Both ends of a wired process show the same object. -/
theorem WiredTo.view {w : World P ρ} {p : Pid} {x : Proc P ρ} {i : ObjId} (h : WiredTo w p x i) :
    view O w x = x.mem.at_ (w.objs i) := by
  unfold Boot.view
  rw [fdAt_some (Ready.objOf h.read)]

theorem view_unwired {w : World P ρ} (hi : Inv w) {p : Pid} {x : Proc P ρ} (hp : w.procs p = some x)
    (hinit : x.mem.init = false) : view O w x = x.mem.at_ O.backend.open_ := by
  obtain ⟨hr, -, hnone⟩ := hi.no_fd hp hinit
  unfold view
  rw [hr, fdAt_none hnone]

/-- The loop of a wired process dispatches just when its fd is readable. -/
theorem WiredTo.dispatches {w : World P ρ} {p : Pid} {x : Proc P ρ} {i : ObjId} (h : WiredTo w p x i) :
    w.dispatches x = (w.objs i).readable := by
  obtain ⟨d, hd, hl⟩ := h.loop
  obtain ⟨d', f, hd', hf, rfl, -⟩ := h.read
  have hd' : x.table x.mem.read_fd = some d' := hd'
  rw [hd] at hd'
  cases hd'
  have hf : w.ofds d.ofd = some f := hf
  simp only [World.dispatches, hl, Option.getD_some, List.any_cons, List.any_nil, hf, Bool.or_false]

/-- The view does not change with a descriptor that is not CTX.read_fd. -/
theorem view_of_table {w w' : World P ρ} (hi : Inv w) (hg : Grows w w') {p : Pid} {x x' : Proc P ρ}
    (hp : w.procs p = some x) (hm : x'.mem = x.mem) (ht : x'.table x.mem.read_fd = x.table x.mem.read_fd)
    (ho : w'.objs = w.objs) : view O w' x' = view O w x := by
  have hobj : w'.objOf x' x.mem.read_fd = w.objOf x x.mem.read_fd := by
    rw [← hg.objOf hi hp]
    simp only [World.objOf, Sys.file, World.sys, ht]
  simp only [view, fdAt, hm, hobj, ho]

variable [DecidableEq P] [DecidableEq ρ]

theorem reach_step {v v' : Sched.St P ρ} {e : Sched.Ev P ρ} (h : (Sched.machine P ρ).Reach v) (hs : Sched.Step v e v') :
    (Sched.machine P ρ).Reach v' := by
  obtain ⟨tr, h⟩ := h
  have hs : (Sched.machine P ρ).step v e = some v' := hs.eq
  exact (h.snoc hs).reach

/-- A fresh scheduler, with any batch size. -/
theorem reach_start (batch : UInt32) : (Sched.machine P ρ).Reach (Sched.start [] false batch O.backend.open_) := by
  have h0 : (Sched.machine P ρ).Reach (Sched.start [] false 8 O.backend.open_) :=
    ⟨[], _, ⟨_, O.backend.cap_pos, rfl⟩, .nil _⟩
  exact reach_step h0 (.setBatch _ batch)

/-- All that a process which is not wired can have, with no thread inside `schedule`, is
    a batch size. -/
theorem quiet_unwired {w : World P ρ} (hi : Inv w) {p : Pid} {x : Proc P ρ} (hp : w.procs p = some x)
    (hinit : x.mem.init = false) (hr : (Sched.machine P ρ).Reach (view O w x)) (hq : ∀ t, x.mem.pc t = .out) :
    x.mem.chan = [] ∧ x.mem.tickled = false ∧ x.mem.handler = .idle := by
  have hidle := (hi.unwired p x hp hinit).idle
  have hinv := Sched.inv_reach hr
  rw [view_unwired hi hp hinit] at hinv
  have hread : O.backend.open_.readable = false := Fd.new_readable _ _
  refine ⟨?_, ?_, hidle⟩
  · by_contra hc
    have h := Sched.watched_rest hinv.queued (fun h => h) hidle hq hc
    have h : O.backend.open_.readable = true := h
    rw [hread] at h
    cases h
  · cases ht : x.mem.tickled with
    | false => rfl
    | true =>
      rcases hinv.tickled ht with h | ⟨t, h⟩ | h
      · have h : O.backend.open_.readable = true := h
        rw [hread] at h
        cases h
      · have h : x.mem.pc t = .won := h
        rw [hq t] at h
        cases h
      · have h : x.mem.handler = .drained := h
        rw [hidle] at h
        cases h

omit [DecidableEq P] [DecidableEq ρ] in
theorem master_unwired {w : World P ρ} (hi : Inv w) {p : Pid} {x : Proc P ρ} (hp : w.procs p = some x)
    (hk : x.kind = .master) : x.mem.init = false := by
  cases hinit : x.mem.init with
  | false => rfl
  | true =>
    obtain ⟨i, hw⟩ := hi.wired p x hp hinit
    rcases hw.kind with h | h <;> rw [hk] at h <;> cases h

/-- What a child starts with. -/
theorem view_fork {w : World P ρ} (hi : Inv w) {p q : Pid} {x : Proc P ρ} (hp : w.procs p = some x)
    (hk : x.kind = .master) (hr : (Sched.machine P ρ).Reach (view O w x)) (hq : ∀ t, x.mem.pc t = .out) (kind : Kind) :
    (Sched.machine P ρ).Reach
      (view O (w.setProc q { x with kind := kind, mem := { x.mem with pc := fun _ => .out } })
        { x with kind := kind, mem := { x.mem with pc := fun _ => .out } }) := by
  have hinit := master_unwired hi hp hk
  obtain ⟨h1, h2, h3⟩ := quiet_unwired hi hp hinit hr hq
  obtain ⟨hfd, -, hnone⟩ := hi.no_fd hp hinit
  have hfd' : fdAt O w x x.mem.read_fd = O.backend.open_ := by rw [hfd, fdAt_none hnone]
  show (Sched.machine P ρ).Reach
    ⟨x.mem.chan, x.mem.tickled, x.mem.batch, fdAt O w x x.mem.read_fd, fun _ => .out, x.mem.handler⟩
  rw [h1, h2, h3, hfd']
  exact reach_start x.mem.batch

omit [DecidableEq P] [DecidableEq ρ] in
/-- The fd that `open` made is the one the scheduler was started with. -/
theorem view_wire {w : World P ρ} (hi : Inv w) {p : Pid} {x : Proc P ρ} {s : Sys} {r wr : Int} {l : List OfdId}
    (hp : w.procs p = some x) (hinit : x.mem.init = false) (hop : Opened O.backend.open_ (w.sys x) s r wr) :
    view O ((w.putSys s).setProc p (x.wire s.table r wr l)) (x.wire s.table r wr l) = view O w x := by
  have hobj := Ready.objOf (w := (w.putSys s).setProc p (x.wire s.table r wr l)) (x := x.wire s.table r wr l) hop.read
  rw [view_unwired hi hp hinit]
  show x.mem.at_ (fdAt O _ _ r) = _
  rw [fdAt_some hobj]
  exact congrArg x.mem.at_ hop.unread

omit [DecidableEq ρ] in
/-- What a process writes to or drains is its own scheduler's fd. -/
theorem view_onFd {w : World P ρ} (hi : Inv w) {p : Pid} {x : Proc P ρ} {fd : Int} {e : Sched.Ev P ρ} {s : Sched.St P ρ}
    {i : ObjId} (hp : w.procs p = some x)
    (hfd : e ≠ .drain ∧ x.mem.init = true ∧ fd = x.mem.write_fd ∨ fd = x.mem.read_fd)
    (hs : Sched.Step (x.mem.at_ (fdAt O w x fd)) e s) (ho : w.objOf x fd = some i) :
    Sched.Step (view O w x) e s ∧
      view O ((w.setProc p { x with mem := x.mem.put s }).setObj i s.fd) { x with mem := x.mem.put s } = s := by
  have hinit : x.mem.init = true := by
    cases hinit : x.mem.init with
    | true => rfl
    | false =>
      obtain ⟨hr', -, hnone⟩ := hi.no_fd hp hinit
      rcases hfd with ⟨-, h, -⟩ | rfl
      · rw [hinit] at h; cases h
      · rw [hr', hnone] at ho; cases ho
  obtain ⟨j, hw⟩ := hi.wired p x hp hinit
  have hij : w.objOf x fd = some j := by
    rcases hfd with ⟨-, -, rfl⟩ | rfl
    · exact Ready.objOf hw.write
    · exact Ready.objOf hw.read
  rw [ho] at hij
  cases hij
  rw [fdAt_some ho, ← hw.view (O := O)] at hs
  refine ⟨hs, ?_⟩
  have hobj : ((w.setProc p { x with mem := x.mem.put s }).setObj i s.fd).objOf { x with mem := x.mem.put s }
      x.mem.read_fd = some i := Ready.objOf hw.read
  show (x.mem.put s).at_ (fdAt O _ _ x.mem.read_fd) = s
  rw [fdAt_some hobj]
  show (x.mem.put s).at_ (Function.update w.objs i s.fd i) = s
  rw [Function.update_self]
  exact put_at x.mem s

/-- A process that a step made, or the one that took it, sees a state of the scheduler. -/
theorem view_step {w w' : World P ρ} {e : Ev P ρ} (hi : Inv w) (hc : QuietFork w e)
    (hr : ∀ p x, w.procs p = some x → (Sched.machine P ρ).Reach (view O w x)) (h : Step O w e w') {p : Pid}
    {x' : Proc P ρ} (hp : w'.procs p = some x') (hn : w.procs p = some x' → p = e.pid) :
    (Sched.machine P ρ).Reach (view O w' x') := by
  have at_ : ∀ {q : Pid} {y : Proc P ρ}, Function.update w.procs q (some y) p = some x' →
      p = q ∧ x' = y ∨ w.procs p = some x' ∧ p ≠ q := by
    intro q y hq
    by_cases e : p = q
    · subst e
      rw [Function.update_self] at hq
      exact Or.inl ⟨rfl, (Option.some.inj hq).symm⟩
    · rw [Function.update_of_ne e] at hq
      exact Or.inr ⟨hq, e⟩
  cases h with
  | initAgain q a added => exact hr p x' hp
  | gone e =>
    exfalso
    by_cases he : p = e.pid
    · subst he
      simp [World.kill] at hp
    · have hp : w.procs p = some x' := by simpa [World.kill, he] using hp
      exact he (hn hp)
  | master q x hx _ =>
    rcases at_ hp with ⟨rfl, rfl⟩ | ⟨hp, hne⟩
    · exact hr p x hx
    · exact absurd (hn hp) hne
  | processInit q x hx _ _ =>
    rcases at_ hp with ⟨rfl, rfl⟩ | ⟨hp, hne⟩
    · exact hr p x hx
    · exact absurd (hn hp) hne
  | fork q r kind x hx _ hk _ _ =>
    rcases at_ hp with ⟨rfl, rfl⟩ | ⟨hp, -⟩
    · exact view_fork hi hx hk (hr q x hx) (hc x hx) kind
    · exact hr p x' hp
  | exec q r x hx hnone =>
    rcases at_ hp with ⟨rfl, rfl⟩ | ⟨hp, -⟩
    · have hi' := inv_step (O := O) hi (.exec w q p x hx hnone)
      rw [view_unwired hi' hp rfl]
      exact reach_start 8
    · exact hr p x' hp
  | initDone q a x s r wr l d hx ha hk hinit ho hl hd =>
    rcases at_ hp with ⟨rfl, rfl⟩ | ⟨hp, hne⟩
    · rw [view_wire hi hx hinit (O.opened (s := w.sys x) hi.fresh ha ho)]
      exact hr p x hx
    · exact absurd (hn hp) hne
  | enter q x hx hloop hdisp =>
    rcases at_ hp with ⟨rfl, rfl⟩ | ⟨hp, hne⟩
    · have hread : (view O w x).fd.readable = true := by
        cases hinit : x.mem.init with
        | false =>
          rw [World.dispatches, (hi.unwired p x hx hinit).loop] at hdisp
          cases hdisp
        | true =>
          obtain ⟨i, hw⟩ := hi.wired p x hx hinit
          rw [hw.dispatches] at hdisp
          rw [hw.view]
          exact hdisp
      exact reach_step (hr p x hx) (.enter (view O w x) hloop.1 hloop.2 hread)
    · exact absurd (hn hp) hne
  | onFd q x fd e s i hx _ hfd hs ho =>
    rcases at_ hp with ⟨rfl, rfl⟩ | ⟨hp, hne⟩
    · obtain ⟨hs, hv⟩ := view_onFd hi hx hfd hs ho
      rw [hv]
      exact reach_step (hr p x hx) hs
    · exact absurd (hn hp) hne
  | sched q x e s hx he _ hs =>
    rcases at_ hp with ⟨rfl, rfl⟩ | ⟨hp, hne⟩
    · have hv : view O (w.setProc p { x with mem := x.mem.put s }) { x with mem := x.mem.put s } = s := by
        show (x.mem.put s).at_ (view O w x).fd = s
        rw [← (Sched.Sys.offFd_step he hs).1]
        exact put_at x.mem s
      rw [hv]
      exact reach_step (hr p x hx) hs
    · exact absurd (hn hp) hne
  | open_ q fd flags x hx hfd hfree =>
    rcases at_ hp with ⟨rfl, rfl⟩ | ⟨hp, hne⟩
    · have hne : x.mem.read_fd ≠ fd := by
        rintro rfl
        cases hinit : x.mem.init with
        | false =>
          have := (hi.no_fd hx hinit).1
          omega
        | true =>
          obtain ⟨i, hw⟩ := hi.wired p x hx hinit
          obtain ⟨d, hd, -⟩ := hw.loop
          rw [hfree] at hd
          cases hd
      have hv : view O (w.addFile.setProc p { x with table := Function.update x.table fd (some ⟨w.next, flags⟩) })
          { x with table := Function.update x.table fd (some ⟨w.next, flags⟩) } = view O w x :=
        view_of_table hi (hi.grows_addFile p _) hx rfl (Function.update_of_ne hne _ _) rfl
      rw [hv]
      exact hr p x hx
    · exact absurd (hn hp) hne
  | close q fd x hx hfd _ =>
    rcases at_ hp with ⟨rfl, rfl⟩ | ⟨hp, hne⟩
    · have hg : Grows w (w.setProc p { x with table := Function.update x.table fd none }) := hi.grows rfl rfl
      have hv : view O (w.setProc p { x with table := Function.update x.table fd none })
          { x with table := Function.update x.table fd none } = view O w x :=
        view_of_table hi hg hx rfl (Function.update_of_ne hfd.symm _ _) rfl
      rw [hv]
      exact hr p x hx
    · exact absurd (hn hp) hne

theorem view_reach {tr : List (Ev P ρ)} {w : World P ρ} (h : (machine P ρ O).RunIf QuietFork tr w) {p : Pid}
    {x : Proc P ρ} (hp : w.procs p = some x) : (Sched.machine P ρ).Reach (view O w x) := by
  have hI : (machine P ρ O).InvariantIf QuietFork fun w =>
      Inv w ∧ ∀ p x, w.procs p = some x → (Sched.machine P ρ).Reach (view O w x) := by
    constructor
    · intro w h0
      have hi := inv_init h0
      refine ⟨hi, fun p x hp => ?_⟩
      obtain ⟨table, -, hprocs, -⟩ := h0
      have hx : x = .program table := by
        rw [hprocs] at hp
        by_cases e : p = 0
        · subst e
          rw [Function.update_self] at hp
          exact (Option.some.inj hp).symm
        · rw [Function.update_of_ne e] at hp
          cases hp
      subst hx
      rw [view_unwired hi hp rfl]
      exact reach_start 8
    · rintro w e w' ⟨hi, hr⟩ hc hs
      have hs := step_inv hs
      refine ⟨inv_step hi hs, fun p x hp => ?_⟩
      by_cases hn : w.procs p = some x → p = e.pid
      · exact view_step hi hc hr hs hp hn
      · rw [Classical.not_imp] at hn
        rw [(step_frame hi hs hn.1 hn.2).2.1]
        exact hr p x hn.1
  exact (hI.run h).2 p x hp

/-- With the main thread in the event loop and no thread inside `schedule`, a runnable
    queued in a process makes that process's own loop dispatch its handler. -/
theorem process_scheduler {tr : List (Ev P ρ)} {w : World P ρ} (h : (machine P ρ O).RunIf QuietFork tr w) {p : Pid}
    {x : Proc P ρ} (hp : w.procs p = some x) :
    (Sched.machine P ρ).Reach (view O w x) ∧
    (x.mem.handler = .idle → (∀ t, x.mem.pc t = .out) → x.mem.chan ≠ [] →
      x.mem.init = true ∧ ∃ w', step O w (.sched p .enter) = some w') := by
  have hi := inv_reach h.run.reach
  have hr := view_reach h hp
  refine ⟨hr, fun hh hq hc => ?_⟩
  have hread := Sched.watched_rest (Sched.inv_reach hr).queued (fun h => h) hh hq hc
  cases hinit : x.mem.init with
  | false => exact absurd (quiet_unwired hi hp hinit hr hq).1 hc
  | true =>
    obtain ⟨i, hw⟩ := hi.wired p x hp hinit
    rw [hw.view] at hread
    have hdisp : w.dispatches x = true := by rw [hw.dispatches]; exact hread
    refine ⟨rfl, w.setProc p { x with mem := { x.mem with handler := .entered } }, ?_⟩
    have hloop : x.inLoop := ⟨hh, hq .main⟩
    simp only [step, hp, schedStep, hloop, hdisp, and_self, if_true]

/-! ## A run, and the run that stalls -/

theorem bootWorker_run : ∃ w x, onPipe.RunIf QuietFork bootWorker w ∧ w.procs 1 = some x ∧ x.mem.handler = .idle ∧
    (∀ t, x.mem.pc t = .out) ∧ x.mem.chan = [7] := by
  have h : ∃ m m' w x, onPipe.step boot (.master 0) = some m ∧ onPipe.step m (.fork 0 1 .worker) = some m' ∧
      onPipe.exec m' (bootWorker.drop 2) = some w ∧ w.procs 1 = some x ∧ x.mem.handler = .idle ∧
      (∀ t, x.mem.pc t = .out) ∧ x.mem.chan = [7] :=
    ⟨_, _, _, _, rfl, rfl, rfl, rfl, rfl, fun t => (by rcases t with _ | _ | n <;> rfl), rfl⟩
  obtain ⟨m, m', w, x, h1, h2, h3, hx⟩ := h
  have hsteps := Lib.Machine.steps_of_exec h3
  have hquiet : QuietFork m (.fork 0 1 .worker) := by
    intro y hy t
    cases h1
    cases hy
    rfl
  have hrest : onPipe.Meets QuietFork m' (bootWorker.drop 2) := by
    refine Lib.Machine.meets_of_events fun e he v => ?_
    simp only [bootWorker, List.drop_succ_cons, List.drop_zero, List.mem_cons, List.not_mem_nil, or_false] at he
    rcases he with rfl | rfl | rfl | rfl | rfl | rfl <;> trivial
  exact ⟨w, x, ⟨boot, boot_init, .cons h1 (.cons h2 hsteps), .cons trivial h1 (.cons hquiet h2 hrest)⟩, hx⟩

theorem process_scheduler_bootWorker : ∃ w x, w.procs 1 = some x ∧ x.mem.chan = [7] ∧ x.mem.init = true ∧
    ∃ w', onPipe.step w (.sched 1 .enter) = some w' := by
  obtain ⟨w, x, h, hp, hh, hq, hc⟩ := bootWorker_run
  obtain ⟨hinit, hs⟩ := (process_scheduler h hp).2 hh hq (by rw [hc]; simp)
  exact ⟨w, x, hp, hc, hinit, hs⟩

/-- Before the fork a thread of the master is about to tickle; worker 1 inherits TICKLED,
    and finds it set. -/
def forkInSchedule : List (Ev Nat Nat) :=
  [.master 0, .sched 0 (.call (.other 0) 7), .sched 0 (.send (.other 0) 7), .sched 0 (.cas (.other 0) true),
    .fork 0 1 .worker, .processInit 1, .init 1 answers true, .sched 1 (.call .main 8), .sched 1 (.send .main 8),
    .sched 1 (.cas .main false)]

theorem fork_in_schedule_stalls : ∃ w x, onPipe.Reach w ∧ w.procs 1 = some x ∧ x.mem.init = true ∧
    x.mem.handler = .idle ∧ (∀ t, x.mem.pc t = .out) ∧ x.mem.chan = [7, 8] ∧
    onPipe.step w (.sched 1 .enter) = none := by
  have h : ∃ w x, onPipe.exec boot forkInSchedule = some w ∧ w.procs 1 = some x ∧ x.mem.init = true ∧
      x.mem.handler = .idle ∧ (∀ t, x.mem.pc t = .out) ∧ x.mem.chan = [7, 8] ∧
      onPipe.step w (.sched 1 .enter) = none :=
    ⟨_, _, rfl, rfl, rfl, rfl, fun t => (by rcases t with _ | _ | n <;> rfl), rfl, rfl⟩
  obtain ⟨w, x, he, h⟩ := h
  exact ⟨w, x, ⟨_, boot, boot_init, Lib.Machine.steps_of_exec he⟩, h⟩

end NgxTickle.Boot
