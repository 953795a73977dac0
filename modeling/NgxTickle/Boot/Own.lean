/-
  NgxTickle.Boot.Own — whose wakeup fd it is. In every state that any number of
  processes reach, a process whose INIT is set is a worker or runs alone, CTX holds the two
  ends of one object that no other descriptor of any process refers to, and its own event
  loop has the read event on it, once (`inv_reach`). So a wakeup stays in the process it
  is for: a step of one process changes nothing of another's scheduler (`wakeups_stay_home`).

  Three things make it so: `init` refuses the master, from which every other process of
  the program is forked; the fd is close-on-exec; and INIT lets no second `open` run.
-/

import NgxTickle.Boot.Model

namespace NgxTickle.Boot

open NgxTickle.Notify
open NgxTickle.Sched (Thread Pc Handler)

variable {P ρ : Type}

/-- CTX as the program has it: no fd, and no read event registered. -/
structure Unwired (x : Proc P ρ) : Prop where
  read_fd : x.mem.read_fd = -1
  write_fd : x.mem.write_fd = -1
  loop : x.loop.getD [] = []
  idle : x.mem.handler = .idle

/-- CTX holds the two ends of object `i`, which is the process's own. -/
structure WiredTo (w : World P ρ) (p : Pid) (x : Proc P ρ) (i : ObjId) : Prop where
  kind : x.kind = .single ∨ x.kind = .worker
  read : (w.sys x).Ready x.mem.read_fd i .read
  write : (w.sys x).Ready x.mem.write_fd i .write
  loop : ∃ d, x.table x.mem.read_fd = some d ∧ x.loop = some [d.ofd]
  own : ∀ q y fd, w.procs q = some y → w.objOf y fd = some i → q = p ∧ (fd = x.mem.read_fd ∨ fd = x.mem.write_fd)

structure Inv (w : World P ρ) : Prop where
  fresh : ∀ i, w.next ≤ i → w.ofds i = none
  objs : ∀ i f, w.ofds i = some f → f.obj < w.next
  tables : ∀ q y fd d, w.procs q = some y → y.table fd = some d → 0 ≤ fd ∧ d.ofd < w.next
  unwired : ∀ p x, w.procs p = some x → x.mem.init = false → Unwired x
  wired : ∀ p x, w.procs p = some x → x.mem.init = true → ∃ i, WiredTo w p x i

/-! ## Objects behind descriptors -/

theorem objOf_some {w : World P ρ} {x : Proc P ρ} {fd : Int} {i : ObjId} :
    w.objOf x fd = some i ↔ ∃ d f, x.table fd = some d ∧ w.ofds d.ofd = some f ∧ f.obj = i := by
  unfold World.objOf Sys.file
  constructor
  · intro h
    obtain ⟨f, hf, hi⟩ := Option.map_eq_some_iff.mp h
    obtain ⟨d, hd, hf⟩ := Option.bind_eq_some_iff.mp hf
    exact ⟨d, f, hd, hf, hi⟩
  · rintro ⟨d, f, hd, hf, rfl⟩
    exact Option.map_eq_some_iff.mpr ⟨f, Option.bind_eq_some_iff.mpr ⟨d, hd, hf⟩, rfl⟩

theorem Ready.objOf {w : World P ρ} {x : Proc P ρ} {fd : Int} {i : ObjId} {side : Side} (h : (w.sys x).Ready fd i side) :
    w.objOf x fd = some i := by
  obtain ⟨d, f, hd, hf, hi, -⟩ := h
  exact objOf_some.mpr ⟨d, f, hd, hf, hi⟩

theorem objOf_lt {w : World P ρ} (hi : Inv w) {x : Proc P ρ} {fd : Int} {i : ObjId} (h : w.objOf x fd = some i) :
    i < w.next := by
  obtain ⟨d, f, -, hf, rfl⟩ := objOf_some.mp h
  exact hi.objs _ _ hf

/-- Files are added, and none of those there is changed. -/
structure Grows (w w' : World P ρ) : Prop where
  next : w.next ≤ w'.next
  ofds : ∀ i < w.next, w'.ofds i = w.ofds i
  fresh : ∀ i, w'.next ≤ i → w'.ofds i = none
  objs : ∀ i f, w'.ofds i = some f → f.obj < w'.next

theorem Inv.grows {w w' : World P ρ} (hi : Inv w) (ho : w'.ofds = w.ofds) (hn : w'.next = w.next) : Grows w w' :=
  ⟨Nat.le_of_eq hn.symm, fun _ _ => by rw [ho], by rw [ho, hn]; exact hi.fresh, by rw [ho, hn]; exact hi.objs⟩

theorem Grows.objOf {w w' : World P ρ} (hg : Grows w w') (hi : Inv w) {q : Pid} {y : Proc P ρ} (hq : w.procs q = some y)
    (fd : Int) : w'.objOf y fd = w.objOf y fd := by
  unfold World.objOf Sys.file World.sys
  cases hd : y.table fd with
  | none => simp only [hd, Option.bind_none]
  | some d => simp only [hd, Option.bind_some, hg.ofds _ (hi.tables q y fd d hq hd).2]

theorem Grows.ready {w w' : World P ρ} (hg : Grows w w') (hi : Inv w) {q : Pid} {y x : Proc P ρ} {fd : Int} {i : ObjId}
    {side : Side} (hq : w.procs q = some y) (ht : x.table fd = y.table fd) (h : (w.sys y).Ready fd i side) :
    (w'.sys x).Ready fd i side := by
  obtain ⟨d, f, hd, hf, h⟩ := h
  exact ⟨d, f, ht.trans hd, (hg.ofds _ (hi.tables q y fd d hq hd).2).trans hf, h⟩

theorem Inv.grows_addFile {w : World P ρ} (hi : Inv w) (p : Pid) (x : Proc P ρ) : Grows w (w.addFile.setProc p x) := by
  refine ⟨Nat.le_succ _, fun i h => ?_, fun i h => ?_, fun i f h => ?_⟩
  · simp [World.setProc, World.addFile, Nat.ne_of_lt h]
  · have h : w.next + 1 ≤ i := h
    simp [World.setProc, World.addFile, show i ≠ w.next by omega, hi.fresh i (by omega)]
  · show f.obj < w.next + 1
    by_cases e : i = w.next
    · subst e
      have h : some (⟨w.next, .both, 0⟩ : Ofd) = some f := by simpa [World.setProc, World.addFile] using h
      cases h
      exact Nat.lt_succ_self _
    · have h : w.ofds i = some f := by simpa [World.setProc, World.addFile, e] using h
      exact Nat.lt_succ_of_lt (hi.objs i f h)

/-- One process is set, and its descriptors reach no object that another one is wired to. -/
theorem Inv.set {w w' : World P ρ} {p : Pid} {x' : Proc P ρ} (hi : Inv w) (hg : Grows w w')
    (hp : w'.procs = Function.update w.procs p (some x'))
    (htab : ∀ fd d, x'.table fd = some d → 0 ≤ fd ∧ d.ofd < w'.next)
    (hshare : ∀ q y i, q ≠ p → w.procs q = some y → WiredTo w q y i → ∀ fd, w'.objOf x' fd ≠ some i)
    (hun : x'.mem.init = false → Unwired x') (hw : x'.mem.init = true → ∃ i, WiredTo w' p x' i) : Inv w' := by
  have hne : ∀ q y, q ≠ p → w'.procs q = some y → w.procs q = some y := by
    intro q y hq h
    rw [hp, Function.update_of_ne hq] at h
    exact h
  have heq : ∀ y, w'.procs p = some y → x' = y := by
    intro y h
    rw [hp, Function.update_self] at h
    exact Option.some.inj h
  refine ⟨hg.fresh, hg.objs, ?_, ?_, ?_⟩
  · intro q y fd d hq hd
    by_cases e : q = p
    · subst e
      rw [← heq y hq] at hd
      exact htab fd d hd
    · have h := hi.tables q y fd d (hne q y e hq) hd
      exact ⟨h.1, Nat.lt_of_lt_of_le h.2 hg.next⟩
  · intro q y hq
    by_cases e : q = p
    · subst e
      rw [← heq y hq]
      exact hun
    · exact hi.unwired q y (hne q y e hq)
  · intro q y hq hinit
    by_cases e : q = p
    · subst e
      rw [← heq y hq] at hinit ⊢
      exact hw hinit
    · have hq' := hne q y e hq
      obtain ⟨i, h⟩ := hi.wired q y hq' hinit
      refine ⟨i, h.kind, hg.ready hi hq' rfl h.read, hg.ready hi hq' rfl h.write, h.loop, ?_⟩
      intro r z fd hr ho
      by_cases e' : r = p
      · subst e'
        rw [← heq z hr] at ho
        exact absurd ho (hshare q y i e hq' h fd)
      · have hr' := hne r z e' hr
        rw [hg.objOf hi hr'] at ho
        exact h.own r z fd hr' ho

/-- A process goes on with its CTX, kind and loop, and with no more of the objects that were there. -/
theorem Inv.go {w w' : World P ρ} {p : Pid} {x x' : Proc P ρ} (hi : Inv w) (hx : w.procs p = some x) (hg : Grows w w')
    (hp : w'.procs = Function.update w.procs p (some x'))
    (htab : ∀ fd d, x'.table fd = some d → 0 ≤ fd ∧ d.ofd < w'.next)
    (hsub : ∀ fd, ∀ i < w.next, w'.objOf x' fd = some i → w.objOf x fd = some i)
    (hends : x.mem.init = true → x'.table x.mem.read_fd = x.table x.mem.read_fd ∧
      x'.table x.mem.write_fd = x.table x.mem.write_fd)
    (hkind : x.mem.init = true → x'.kind = x.kind ∧ x'.loop = x.loop)
    (hctx : x'.mem.init = x.mem.init ∧ x'.mem.read_fd = x.mem.read_fd ∧ x'.mem.write_fd = x.mem.write_fd)
    (hun : x.mem.init = false → Unwired x') : Inv w' := by
  obtain ⟨h0, h1, h2⟩ := hctx
  refine hi.set hg hp htab ?_ (fun h => hun (h0 ▸ h)) ?_
  · intro q y i hq hy hwt fd ho
    have hlt := objOf_lt hi (Ready.objOf hwt.read)
    exact hq (hwt.own p x fd hx (hsub fd i hlt ho)).1.symm
  · intro hinit
    rw [h0] at hinit
    obtain ⟨i, h⟩ := hi.wired p x hx hinit
    obtain ⟨hk, hl⟩ := hkind hinit
    obtain ⟨hr, hwr⟩ := hends hinit
    have hlt := objOf_lt hi (Ready.objOf h.read)
    refine ⟨i, hk ▸ h.kind, ?_, ?_, ?_, ?_⟩
    · rw [h1]; exact hg.ready hi hx hr h.read
    · rw [h2]; exact hg.ready hi hx hwr h.write
    · rw [h1, hr, hl]; exact h.loop
    · intro q y fd hq ho
      rw [h1, h2]
      rw [hp] at hq
      by_cases e : q = p
      · subst e
        rw [Function.update_self] at hq
        cases hq
        exact h.own q x fd hx (hsub fd i hlt ho)
      · rw [Function.update_of_ne e] at hq
        rw [hg.objOf hi hq] at ho
        exact h.own q y fd hq ho

/-! ## What each step keeps -/

theorem Inv.kill {w : World P ρ} (hi : Inv w) (p : Pid) : Inv (w.kill p) := by
  have hsome : ∀ q y, (w.kill p).procs q = some y → w.procs q = some y := by
    intro q y h
    by_cases e : q = p
    · subst e
      simp [World.kill] at h
    · simpa [World.kill, e] using h
  refine ⟨hi.fresh, hi.objs, fun q y fd d hq => hi.tables q y fd d (hsome q y hq),
    fun q y hq => hi.unwired q y (hsome q y hq), ?_⟩
  intro q y hq hinit
  obtain ⟨i, h⟩ := hi.wired q y (hsome q y hq) hinit
  exact ⟨i, h.kind, h.read, h.write, h.loop, fun r z fd hr => h.own r z fd (hsome r z hr)⟩

theorem Inv.no_loop {w : World P ρ} (hi : Inv w) {p : Pid} {x : Proc P ρ} (hp : w.procs p = some x) (hl : x.loop = none) :
    x.mem.init = false := by
  cases hinit : x.mem.init with
  | false => rfl
  | true =>
    obtain ⟨i, h⟩ := hi.wired p x hp hinit
    obtain ⟨d, -, hd⟩ := h.loop
    rw [hl] at hd
    cases hd

/-- CTX.read_fd and CTX.write_fd refer to nothing before `init`. -/
theorem Inv.no_fd {w : World P ρ} (hi : Inv w) {p : Pid} {x : Proc P ρ} (hp : w.procs p = some x)
    (hinit : x.mem.init = false) : x.mem.read_fd = -1 ∧ x.mem.write_fd = -1 ∧ w.objOf x (-1) = none := by
  have hu := hi.unwired p x hp hinit
  refine ⟨hu.read_fd, hu.write_fd, ?_⟩
  cases ho : w.objOf x (-1) with
  | none => rfl
  | some i =>
    obtain ⟨d, f, hd, -⟩ := objOf_some.mp ho
    have := (hi.tables p x _ d hp hd).1
    omega

/-- A step of `exec` passes no end of a wakeup fd on. -/
theorem inherited_not_own {w : World P ρ} {p : Pid} {x : Proc P ρ} {i : ObjId} (h : WiredTo w p x i) {fd : Int}
    (hfd : fd = x.mem.read_fd ∨ fd = x.mem.write_fd) : x.inherited fd = none := by
  have hclo : ∃ d, x.table fd = some d ∧ Has d.flags FD_CLOEXEC := by
    rcases hfd with rfl | rfl
    · obtain ⟨d, f, hd, -, -, -, hf, -⟩ := h.read
      exact ⟨d, hd, hf⟩
    · obtain ⟨d, f, hd, -, -, -, hf, -⟩ := h.write
      exact ⟨d, hd, hf⟩
  obtain ⟨d, hd, hf⟩ := hclo
  simp [Proc.inherited, hd, hf]

variable {O : Opener}

/-- The process `x` after an `open` that gave `s`, `r` and `wr`. -/
theorem objOf_wire {w : World P ρ} (hi : Inv w) {p : Pid} {x : Proc P ρ} {s : Sys} {r wr : Int} {l : List OfdId}
    (hp : w.procs p = some x) (hop : Opened O.backend.open_ (w.sys x) s r wr) {fd : Int} {j : ObjId}
    (hj : ((w.putSys s).setProc p (x.wire s.table r wr l)).objOf (x.wire s.table r wr l) fd = some j) :
    j = w.next ∧ (fd = r ∨ fd = wr) ∨ w.objOf x fd = some j := by
  by_cases e : fd = r ∨ fd = wr
  · have hn : some w.next = some j := by
      rcases e with rfl | rfl
      · exact (Ready.objOf (w := (w.putSys s).setProc p _) (x := x.wire s.table _ wr l) hop.read).symm.trans hj
      · exact (Ready.objOf (w := (w.putSys s).setProc p _) (x := x.wire s.table r _ l) hop.write).symm.trans hj
    exact Or.inl ⟨(Option.some.inj hn).symm, e⟩
  · rw [not_or] at e
    have ht : s.table fd = x.table fd := hop.table fd e.1 e.2
    obtain ⟨d', f, hd', hf, rfl⟩ := objOf_some.mp hj
    have hd' : x.table fd = some d' := ht ▸ hd'
    exact Or.inr (objOf_some.mpr ⟨d', f, hd', (hop.ofds _ (hi.tables p x fd d' hp hd').2).symm.trans hf, rfl⟩)

theorem table_wire {w : World P ρ} (hi : Inv w) {p : Pid} {x : Proc P ρ} {s : Sys} {r wr : Int} (hp : w.procs p = some x)
    (hop : Opened O.backend.open_ (w.sys x) s r wr) {fd : Int} {d : Desc} (hd : s.table fd = some d) :
    0 ≤ fd ∧ d.ofd < s.next := by
  have end_ : ∀ side, s.Ready fd w.next side → d.ofd < s.next := by
    rintro side ⟨d₁, f, hd₁, hf, -⟩
    rw [hd] at hd₁
    cases hd₁
    by_contra h
    rw [hop.fresh _ (Nat.le_of_not_lt h)] at hf
    cases hf
  by_cases e : fd = r ∨ fd = wr
  · rcases e with rfl | rfl
    · exact ⟨hop.nonneg.1, end_ _ hop.read⟩
    · exact ⟨hop.nonneg.2, end_ _ hop.write⟩
  · rw [not_or] at e
    rw [hop.table fd e.1 e.2] at hd
    have h := hi.tables p x fd d hp hd
    exact ⟨h.1, Nat.lt_trans h.2 hop.next⟩

theorem grows_open {w w' : World P ρ} (hi : Inv w) {x : Proc P ρ} {s : Sys} {r wr : Int}
    (hop : Opened O.backend.open_ (w.sys x) s r wr) (ho : w'.ofds = s.ofds) (hn : w'.next = s.next) : Grows w w' := by
  refine ⟨by rw [hn]; exact Nat.le_of_lt hop.next, by rw [ho]; exact hop.ofds, by rw [ho, hn]; exact hop.fresh, ?_⟩
  intro i f hf
  rw [ho] at hf
  rw [hn]
  by_cases h : i < w.next
  · rw [hop.ofds i h] at hf
    exact Nat.lt_trans (hi.objs i f hf) hop.next
  · rw [hop.new i f (Nat.le_of_not_lt h) hf]
    exact hop.next

/-- `notify::init` wires the process to the object that `open` made. -/
theorem inv_wire {w : World P ρ} (hi : Inv w) {p : Pid} {x : Proc P ρ} {s : Sys} {r wr : Int} {l : List OfdId} {d : Desc}
    (hp : w.procs p = some x) (hk : x.kind = .single ∨ x.kind = .worker) (hinit : x.mem.init = false)
    (hop : Opened O.backend.open_ (w.sys x) s r wr) (hl : x.loop = some l) (hd : s.table r = some d) :
    Inv ((w.putSys s).setProc p (x.wire s.table r wr (d.ofd :: l))) := by
  have hl0 : l = [] := by
    have h := (hi.unwired p x hp hinit).loop
    rw [hl] at h
    exact h
  subst hl0
  have hg : Grows w ((w.putSys s).setProc p (x.wire s.table r wr [d.ofd])) := grows_open hi hop rfl rfl
  refine hi.set hg rfl (fun fd d' hd' => table_wire hi hp hop hd') ?_ (fun h => by cases h) ?_
  · intro q y i hq hy hwt fd hj
    have hlt := objOf_lt hi (Ready.objOf hwt.read)
    rcases objOf_wire hi hp hop hj with ⟨rfl, -⟩ | hj
    · exact Nat.lt_irrefl _ hlt
    · exact hq (hwt.own p x fd hp hj).1.symm
  · intro _
    refine ⟨w.next, hk, hop.read, hop.write, ⟨d, hd, rfl⟩, ?_⟩
    intro q y fd hq hj
    by_cases e : q = p
    · subst e
      have hy : x.wire s.table r wr [d.ofd] = y := by simpa [World.setProc] using hq
      subst hy
      rcases objOf_wire hi hp hop hj with ⟨-, h⟩ | hj
      · exact ⟨rfl, h⟩
      · exact absurd (objOf_lt hi hj) (Nat.lt_irrefl _)
    · have hq : w.procs q = some y := by simpa [World.setProc, World.putSys, e] using hq
      rw [hg.objOf hi hq] at hj
      exact absurd (objOf_lt hi hj) (Nat.lt_irrefl _)

variable [DecidableEq P]

/-- Code outside the handler leaves it idle. -/
theorem idle_step {v v' : Sched.St P ρ} {e : Sched.Ev P ρ} (h : Sched.Step v e v') (he : e ≠ .enter)
    (hh : v.handler = .idle) : v'.handler = .idle := by
  cases h with
  | call t r _ _ => exact hh
  | send t r _ => exact hh
  | casWon t _ _ => exact hh
  | casLost t _ _ => exact hh
  | write t _ => exact hh
  | setBatch value => exact hh
  | enter _ _ _ => exact absurd rfl he
  | empty limit _ _ => rfl
  | recvNone limit cnt _ _ => rfl
  | tickle _ => rfl
  | drain h => rw [hh] at h; cases h
  | clear h => rw [hh] at h; cases h
  | load h => rw [hh] at h; cases h
  | nonempty limit h _ => rw [hh] at h; cases h
  | recvSome limit cnt r rest h _ => rw [hh] at h; cases h
  | run limit cnt r h => rw [hh] at h; cases h
  | retLimit limit cnt r h _ _ => rw [hh] at h; cases h
  | retNext limit cnt r h _ _ => rw [hh] at h; cases h

theorem inv_step {w w' : World P ρ} {e : Ev P ρ} (hi : Inv w) (h : Step O w e w') : Inv w' := by
  cases h with
  | initAgain p a added => exact hi
  | gone e => exact hi.kill _
  | initDone p a x s r wr l d hp ha hk hinit ho hl hd =>
    exact inv_wire hi hp hk hinit (O.opened (s := w.sys x) hi.fresh ha ho) hl hd
  | master p x hp hl =>
    have h0 := hi.no_loop hp hl
    exact hi.go hp (hi.grows rfl rfl) rfl (fun fd d => hi.tables p x fd d hp) (fun _ _ _ h => h) (fun _ => ⟨rfl, rfl⟩)
      (fun h => by rw [h0] at h; cases h) ⟨rfl, rfl, rfl⟩
      fun h => let hu := hi.unwired p x hp h; ⟨hu.read_fd, hu.write_fd, hu.loop, hu.idle⟩
  | processInit p x hp hl _ =>
    have h0 := hi.no_loop hp hl
    exact hi.go hp (hi.grows rfl rfl) rfl (fun fd d => hi.tables p x fd d hp) (fun _ _ _ h => h) (fun _ => ⟨rfl, rfl⟩)
      (fun h => by rw [h0] at h; cases h) ⟨rfl, rfl, rfl⟩
      fun h => let hu := hi.unwired p x hp h; ⟨hu.read_fd, hu.write_fd, rfl, hu.idle⟩
  | fork p q kind x hp hq hk _ _ =>
    -- the master has no wakeup fd to hand down
    have hnot : ∀ {q y i fd}, w.procs q = some y → WiredTo w q y i → w.objOf x fd ≠ some i := by
      intro q y i fd hy hwt ho
      obtain ⟨rfl, -⟩ := hwt.own p x fd hp ho
      rw [hp] at hy
      cases hy
      rcases hwt.kind with h | h <;> rw [hk] at h <;> cases h
    have h0 : x.mem.init = false := by
      cases hinit : x.mem.init with
      | false => rfl
      | true =>
        obtain ⟨i, h⟩ := hi.wired p x hp hinit
        exact absurd (Ready.objOf h.read) (hnot hp h)
    have hu := hi.unwired p x hp h0
    exact hi.set (hi.grows rfl rfl) rfl (fun fd d => hi.tables p x fd d hp) (fun _ _ _ _ hy hwt _ => hnot hy hwt)
      (fun _ => ⟨hu.read_fd, hu.write_fd, hu.loop, hu.idle⟩) fun h => by
        have h : x.mem.init = true := h
        rw [h0] at h; cases h
  | exec p q x hp hq =>
    have hsub : ∀ fd d, x.inherited fd = some d → x.table fd = some d := by
      intro fd d h
      exact (Option.filter_eq_some_iff.mp h).1
    refine hi.set (hi.grows rfl rfl) rfl (fun fd d h => hi.tables p x fd d hp (hsub fd d h)) ?_
      (fun _ => ⟨rfl, rfl, rfl, rfl⟩) fun h => by cases h
    intro r y i _ hy hwt fd ho
    obtain ⟨d, f, hd, hf, rfl⟩ := objOf_some.mp ho
    have hd : x.inherited fd = some d := hd
    obtain ⟨rfl, hfd⟩ := hwt.own p x fd hp (objOf_some.mpr ⟨d, f, hsub fd d hd, hf, rfl⟩)
    rw [hp] at hy
    cases hy
    rw [inherited_not_own hwt hfd] at hd
    cases hd
  | enter p x hp _ hdisp =>
    refine hi.go hp (hi.grows rfl rfl) rfl (fun fd d => hi.tables p x fd d hp) (fun _ _ _ h => h) (fun _ => ⟨rfl, rfl⟩)
      (fun _ => ⟨rfl, rfl⟩) ⟨rfl, rfl, rfl⟩ fun h => ?_
    unfold World.dispatches at hdisp
    rw [(hi.unwired p x hp h).loop] at hdisp
    cases hdisp
  | onFd p x fd e s i hp _ hfd _ ho =>
    refine hi.go hp (hi.grows rfl rfl) rfl (fun fd d => hi.tables p x fd d hp) (fun _ _ _ h => h) (fun _ => ⟨rfl, rfl⟩)
      (fun _ => ⟨rfl, rfl⟩) ⟨rfl, rfl, rfl⟩ fun h => ?_
    obtain ⟨hr, -, hnone⟩ := hi.no_fd hp h
    rcases hfd with ⟨-, hinit, -⟩ | rfl
    · rw [h] at hinit; cases hinit
    · rw [hr, hnone] at ho; cases ho
  | sched p x e s hp _ he hs =>
    refine hi.go hp (hi.grows rfl rfl) rfl (fun fd d => hi.tables p x fd d hp) (fun _ _ _ h => h) (fun _ => ⟨rfl, rfl⟩)
      (fun _ => ⟨rfl, rfl⟩) ⟨rfl, rfl, rfl⟩ fun h => ?_
    have hu := hi.unwired p x hp h
    exact ⟨hu.read_fd, hu.write_fd, hu.loop, idle_step hs he hu.idle⟩
  | open_ p fd flags x hp hfd hfree =>
    have hg := hi.grows_addFile p { x with table := Function.update x.table fd (some ⟨w.next, flags⟩) }
    have hne : ∀ n d, x.table n = some d → n ≠ fd := by
      rintro n d h rfl
      rw [hfree] at h
      cases h
    refine hi.go hp hg rfl ?_ ?_ ?_ (fun _ => ⟨rfl, rfl⟩) ⟨rfl, rfl, rfl⟩ fun h =>
      let hu := hi.unwired p x hp h; ⟨hu.read_fd, hu.write_fd, hu.loop, hu.idle⟩
    · intro n d h
      by_cases e : n = fd
      · subst e
        have h : some (⟨w.next, flags⟩ : Desc) = some d := by simpa using h
        cases h
        exact ⟨hfd, Nat.lt_succ_self _⟩
      · have h : x.table n = some d := by simpa [e] using h
        have h := hi.tables p x n d hp h
        exact ⟨h.1, Nat.lt_succ_of_lt h.2⟩
    · intro n i hlt ho
      obtain ⟨d, f, hd, hf, rfl⟩ := objOf_some.mp ho
      by_cases e : n = fd
      · subst e
        have hd : some (⟨w.next, flags⟩ : Desc) = some d := by simpa using hd
        cases hd
        have hf : some (⟨w.next, .both, 0⟩ : Ofd) = some f := by simpa [World.setProc, World.addFile] using hf
        cases hf
        exact absurd hlt (Nat.lt_irrefl _)
      · have hd : x.table n = some d := by simpa [e] using hd
        have hlt' := (hi.tables p x n d hp hd).2
        exact objOf_some.mpr ⟨d, f, hd, (hg.ofds _ hlt').symm.trans hf, rfl⟩
    · intro hinit
      obtain ⟨i, h⟩ := hi.wired p x hp hinit
      obtain ⟨d, f, hd, -⟩ := h.read
      obtain ⟨d', f', hd', -⟩ := h.write
      exact ⟨Function.update_of_ne (hne _ d hd) _ _, Function.update_of_ne (hne _ d' hd') _ _⟩
  | close p fd x hp hr hwr =>
    have hsub : ∀ n d, Function.update x.table fd none n = some d → x.table n = some d := by
      intro n d h
      by_cases e : n = fd
      · subst e; simp at h
      · simpa [e] using h
    refine hi.go hp (hi.grows rfl rfl) rfl (fun n d h => hi.tables p x n d hp (hsub n d h)) ?_
      (fun _ => ⟨Function.update_of_ne hr.symm _ _, Function.update_of_ne hwr.symm _ _⟩) (fun _ => ⟨rfl, rfl⟩)
      ⟨rfl, rfl, rfl⟩ fun h => let hu := hi.unwired p x hp h; ⟨hu.read_fd, hu.write_fd, hu.loop, hu.idle⟩
    intro n i _ ho
    obtain ⟨d, f, hd, hf, rfl⟩ := objOf_some.mp ho
    exact objOf_some.mpr ⟨d, f, hsub n d hd, hf, rfl⟩

/-! ## Other processes -/

omit [DecidableEq P] in
/-- What a process sees of the files stays, if its own object does. -/
theorem view_frame {w w' : World P ρ} (hi : Inv w) (hg : Grows w w') {q : Pid} {y : Proc P ρ} (hq : w.procs q = some y)
    (hobj : ∀ i, WiredTo w q y i → w'.objs i = w.objs i) :
    view O w' y = view O w y ∧ w'.dispatches y = w.dispatches y := by
  cases hinit : y.mem.init with
  | false =>
    obtain ⟨hr, -, hnone⟩ := hi.no_fd hq hinit
    have hl := (hi.unwired q y hq hinit).loop
    simp only [view, fdAt, World.dispatches, hg.objOf hi hq, hr, hnone, hl, List.any_nil, and_self]
  | true =>
    obtain ⟨i, h⟩ := hi.wired q y hq hinit
    have ho := Ready.objOf h.read
    obtain ⟨d, hd, hl⟩ := h.loop
    obtain ⟨d', f, hd', hf, hfi, -⟩ := h.read
    have hd' : y.table y.mem.read_fd = some d' := hd'
    rw [hd] at hd'
    cases hd'
    have hf : w.ofds d.ofd = some f := hf
    have hf' : w'.ofds d.ofd = some f := (hg.ofds _ (hi.tables q y _ d hq hd).2).trans hf
    have hi' := hobj i h
    subst hfi
    constructor
    · simp only [view, fdAt, hg.objOf hi hq, ho, hi']
    · simp only [World.dispatches, hl, Option.getD_some, List.any_cons, List.any_nil, hf, hf', hi']

/-- A step of one process leaves the others, their wakeup fds included. -/
theorem step_frame {w w' : World P ρ} {e : Ev P ρ} (hi : Inv w) (h : Step O w e w') {q : Pid} {y : Proc P ρ}
    (hq : w.procs q = some y) (hne : q ≠ e.pid) :
    w'.procs q = some y ∧ view O w' y = view O w y ∧ w'.dispatches y = w.dispatches y := by
  have keep : ∀ {p : Pid} {x : Proc P ρ}, q ≠ p → Function.update w.procs p (some x) q = some y := by
    intro p x hp
    rw [Function.update_of_ne hp, hq]
  cases h with
  | initAgain p a added => exact ⟨hq, rfl, rfl⟩
  | gone e => exact ⟨(Function.update_of_ne hne _ _).trans hq, rfl, rfl⟩
  | master p x hp hl => exact ⟨keep hne, rfl, rfl⟩
  | processInit p x hp hl _ => exact ⟨keep hne, rfl, rfl⟩
  | fork p r kind x hp hr _ _ _ =>
    have hqr : q ≠ r := by rintro rfl; rw [hr] at hq; cases hq
    exact ⟨keep hqr, rfl, rfl⟩
  | exec p r x hp hr =>
    have hqr : q ≠ r := by rintro rfl; rw [hr] at hq; cases hq
    exact ⟨keep hqr, rfl, rfl⟩
  | enter p x hp _ _ => exact ⟨keep hne, rfl, rfl⟩
  | sched p x e s hp _ _ _ => exact ⟨keep hne, rfl, rfl⟩
  | close p fd x hp _ _ => exact ⟨keep hne, rfl, rfl⟩
  | open_ p fd flags x hp hfd hfree =>
    have hg := hi.grows_addFile p { x with table := Function.update x.table fd (some ⟨w.next, flags⟩) }
    exact ⟨keep hne, view_frame hi hg hq fun _ _ => rfl⟩
  | initDone p a x s r wr l d hp ha hk hinit ho hl hd =>
    have hop := O.opened (s := w.sys x) hi.fresh ha ho
    refine ⟨keep hne, view_frame hi (grows_open hi hop rfl rfl) hq fun i h => ?_⟩
    exact hop.objs i (objOf_lt hi (Ready.objOf h.read))
  | onFd p x fd e s i hp _ _ _ ho =>
    have hg : Grows w ((w.setProc p { x with mem := x.mem.put s }).setObj i s.fd) := hi.grows rfl rfl
    refine ⟨keep hne, view_frame hi hg hq fun j h => ?_⟩
    have hji : j ≠ i := by
      rintro rfl
      exact hne (h.own p x fd hp ho).1.symm
    exact Function.update_of_ne hji _ _

/-! ## Every run -/

omit [DecidableEq P] in
theorem inv_init {w : World P ρ} (h : Init w) : Inv w := by
  obtain ⟨table, htab, hp, hf, ho⟩ := h
  have only : ∀ q y, w.procs q = some y → y = .program table := by
    intro q y hq
    rw [hp] at hq
    by_cases e : q = 0
    · subst e
      rw [Function.update_self] at hq
      exact (Option.some.inj hq).symm
    · rw [Function.update_of_ne e] at hq
      cases hq
  refine ⟨hf, ho, ?_, ?_, ?_⟩
  · intro q y fd d hq hd
    rw [only q y hq] at hd
    exact htab fd d hd
  · intro q y hq _
    rw [only q y hq]
    exact ⟨rfl, rfl, rfl, rfl⟩
  · intro q y hq h
    rw [only q y hq] at h
    cases h

variable [DecidableEq ρ]

theorem inv_reach {w : World P ρ} (h : (machine P ρ O).Reach w) : Inv w := by
  have hI : (machine P ρ O).Invariant Inv := ⟨fun _ => inv_init, fun _ _ _ hi hs => inv_step hi (step_inv hs)⟩
  exact hI.reach h

/-- A wakeup stays in the process it is for: the fd of a process that `init` wired is its
    own, watched by its own event loop and no other, and no step of another process
    changes what its scheduler sees. -/
theorem wakeups_stay_home {w : World P ρ} (h : (machine P ρ O).Reach w) {p : Pid} {x : Proc P ρ} (hp : w.procs p = some x) :
    (x.mem.init = true → ∃ i, WiredTo w p x i) ∧
    (x.mem.init = false → w.objOf x x.mem.read_fd = none ∧ w.objOf x x.mem.write_fd = none ∧ w.dispatches x = false) ∧
    ∀ e w', step O w e = some w' → p ≠ e.pid →
      w'.procs p = some x ∧ view O w' x = view O w x ∧ w'.dispatches x = w.dispatches x := by
  have hi := inv_reach h
  refine ⟨hi.wired p x hp, fun hinit => ?_, fun e w' hs hne => step_frame hi (step_inv hs) hp hne⟩
  obtain ⟨hr, hwr, hnone⟩ := hi.no_fd hp hinit
  have hl := (hi.unwired p x hp hinit).loop
  rw [hr, hwr]
  exact ⟨hnone, hnone, by simp only [World.dispatches, hl, List.any_nil]⟩

/-- The master, before its first fork; no file is open. -/
def boot : World Nat Nat :=
  ⟨Function.update (fun _ => none) 0 (some (.program fun _ => none)), fun _ => none, fun _ => Fd.new 1 Nat.one_pos, 0⟩

theorem boot_init : Init boot :=
  ⟨fun _ => none, fun _ _ h => (by cases h), rfl, fun _ _ => rfl, fun _ _ h => (by cases h)⟩

/-- Pipe ends 5 and 6, and no call that fails. -/
def answers : Answers := ⟨some (5, 6), fun _ _ => true⟩

/-- The master forks worker 1, which calls `init`; a thread of it schedules a runnable. -/
def bootWorker : List (Ev Nat Nat) :=
  [.master 0, .fork 0 1 .worker, .processInit 1, .init 1 answers true, .sched 1 (.call (.other 0) 7),
    .sched 1 (.send (.other 0) 7), .sched 1 (.cas (.other 0) true), .sched 1 (.write (.other 0))]

abbrev onPipe : Lib.Machine (World Nat Nat) (Ev Nat Nat) := machine Nat Nat (.selfpipe 1 Nat.one_pos)

theorem wakeups_stay_home_bootWorker : ∃ w x, onPipe.Reach w ∧ w.procs 1 = some x ∧ ∃ i, WiredTo w 1 x i := by
  have h : ∃ w x, onPipe.exec boot bootWorker = some w ∧ w.procs 1 = some x ∧ x.mem.init = true :=
    ⟨_, _, rfl, rfl, rfl⟩
  obtain ⟨w, x, he, hp, hinit⟩ := h
  have hr : onPipe.Reach w := ⟨_, boot, boot_init, Lib.Machine.steps_of_exec he⟩
  exact ⟨w, x, hr, hp, (wakeups_stay_home hr hp).1 hinit⟩

end NgxTickle.Boot
