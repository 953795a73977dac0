/-
  NgxTickle.Worker.Spawn — `RequestSpawn::spawn` is all or nothing. With a slot from the
  allocator the task is anchored in the pool and then scheduled once (`Spawning`); the
  call is inside `schedule` until it returns, and the other threads can neither touch
  the pools nor take the Runnable. Without one the Task is dropped first and the
  Runnable after it: the task still counts as scheduled, so the Task's Drop hands
  nothing to `schedule`, and the Runnable's drops the future (`Refusing`).
-/

import NgxTickle.Sched.Bound
import NgxTickle.Worker.Cancel
import NgxTickle.Worker.Refine

namespace NgxTickle.Worker

open NgxTickle.Task
open NgxTickle.Sched (Thread Pc Handler)

variable {A : AsyncTask} {P : Type}

/-- The accesses left to a thread inside `schedule`. -/
def left : Pc TaskId → Nat
  | .out => 0
  | .entered _ => 3
  | .sent => 2
  | .won => 1

variable [DecidableEq P]

/-! ## While the main thread is inside `schedule` -/

/-- The handler's own code does not call `schedule`. -/
theorem main_out {tr : List (Act P)} {w : St A P} (h : (machine A P).Run tr w)
    (ho : w.core.handler.open_ = false) : w.core.pc .main = .out :=
  (Sched.bounded_run (core_sim.run h)).main ho

/-- The other threads leave the pools and the main thread's stack alone. -/
theorem inside_step {w w' : St A P} {a : Act P} (hm : w.core.handler.open_ = false → w.core.pc .main = .out)
    (hp : w.core.pc .main ≠ .out) (h : Step w a w') :
    w'.pools = w.pools ∧ w'.cont .main = w.cont .main ∧ ∀ r c handed, a ≠ .cleanup r c handed := by
  cases h with
  | core e s _ _ _ => exact ⟨rfl, rfl, by simp⟩
  | runPoll k c s _ _ hs => exact absurd (hm (run_handler hs).1) hp
  | runDrop k c s _ _ hs => exact absurd (hm (run_handler hs).1) hp
  | pending k again c rest s _ _ hpc _ _ _ => exact absurd hpc hp
  | pendingClosed k c rest _ _ hpc _ => exact absurd hpc hp
  | ready k rest _ hpc => exact absurd hpc hp
  | dropDone k why c rest _ _ hpc => exact absurd hpc hp
  | glueDone t rest _ hpc =>
    cases t with
    | main => exact absurd hpc hp
    | other p => exact ⟨rfl, by simp, by simp⟩
  | op t k o handed c h s _ _ hf _ _ _ =>
    cases t with
    | main => exact absurd (free_main hf).1 hp
    | other p => exact ⟨rfl, by simp, by simp⟩
  | spawn t k s _ _ _ => exact ⟨rfl, rfl, by simp⟩
  | newRequest r c hf _ => exact absurd (free_main hf).1 hp
  | requestSpawn r k p s _ hf _ _ _ => exact absurd (free_main hf).1 hp
  | requestRefused r k p s _ hf _ _ _ => exact absurd (free_main hf).1 hp
  | addCleanup r p _ hf _ => exact absurd (free_main hf).1 hp
  | destroyPool r p _ hf _ => exact absurd (free_main hf).1 hp
  | cleanupTask r k handed p cs rest c s _ hpc _ _ _ _ _ _ => exact absurd hpc hp
  | cleanupTaken r k p cs rest c _ hpc _ _ _ _ => exact absurd hpc hp
  | cleanupFin r f p cs rest x _ hpc _ _ _ => exact absurd hpc hp
  | cleanupOther r p cs rest _ hpc _ _ => exact absurd hpc hp
  | freePool r p rest _ hpc _ _ => exact absurd hpc hp
  | finalize f r rc p _ hf _ _ => exact absurd (free_main hf).1 hp
  | popPosted f rest x _ _ _ _ hpc => exact absurd hpc hp
  | fini f a a' rest _ hpc _ => exact absurd hpc hp
  | finiDone f c rest _ hpc => exact absurd hpc hp

/-- The next access of the main thread is possible, and there is one less after it. -/
theorem inside_progress {w : St A P} (hp : w.core.pc .main ≠ .out) :
    ∃ e w', step w (.core e) = some w' ∧ left (w'.core.pc .main) < left (w.core.pc .main) := by
  cases hpc : w.core.pc .main with
  | out => exact absurd hpc hp
  | entered k =>
    refine ⟨.send .main k, _, by simp [step, inner, atBottom, Sched.step, hpc]; rfl, ?_⟩
    simp [left]
  | sent =>
    refine ⟨.cas .main (!w.core.tickled), _, by simp [step, inner, atBottom, Sched.step, hpc]; rfl, ?_⟩
    cases w.core.tickled <;> simp [left]
  | won =>
    refine ⟨.write .main, _, by simp [step, inner, atBottom, Sched.step, hpc]; rfl, ?_⟩
    simp [left]

/-! ## With a slot -/

/-- The spawn of `k` is inside `schedule`, or has just returned from it; `w₀` is the
    worker when it was anchored. -/
structure Spawning (w₀ : St A P) (k : TaskId) (post : List (Act P)) (w : St A P) : Prop where
  pools : w.pools = w₀.pools
  stack : w.cont .main = w₀.cont .main
  /-- The cleanup owns the handle, unless someone has used it already. -/
  handle : ∃ c, w.cells k = some c ∧ (c.handle = .slot ∨ ∃ t handed, .op t k .cancel handed ∈ post)
  phase : Fits w k (.hand .main) ∧ sendsOf k post = 0 ∨ Fits w k .queued ∧ sendsOf k post = 1

/-- A Runnable is only taken from the channel when the main thread is outside `schedule`. -/
theorem recv_main {w w' : St A P} {k : TaskId} (hm : w.core.handler.open_ = false → w.core.pc .main = .out)
    (h : Step w (.core (.tryRecv (some k))) w') : w.core.pc .main = .out := by
  cases h with
  | core e s _ _ hs =>
    cases hs with
    | recvSome limit cnt r rest hh _ => exact hm (by rw [hh]; rfl)

theorem spawning_step {w₀ w w' : St A P} {k : TaskId} {post : List (Act P)} {a : Act P} (hi : Spawning w₀ k post w)
    (hm : w.core.handler.open_ = false → w.core.pc .main = .out) (hp : w.core.pc .main ≠ .out) (h : Step w a w') :
    Spawning w₀ k (post ++ [a]) w' := by
  obtain ⟨hpools, hstack, hclean⟩ := inside_step hm hp h
  refine ⟨hpools.trans hi.pools, hstack.trans hi.stack, ?_, ?_⟩
  · obtain ⟨c, hc, hh⟩ := hi.handle
    obtain ⟨c', hc', -, -⟩ := cell_step h hc
    refine ⟨c', hc', ?_⟩
    rcases hh with hh | ⟨t, handed, hmem⟩
    · by_cases hs' : c'.handle = .slot
      · exact Or.inl hs'
      · -- only a cancel takes the handle out of its slot
        have hcl := slot_step h hc hc' hh hs'
        unfold Act.closes at hcl
        split at hcl
        · rename_i t j handed
          obtain rfl : j = k := by simpa using hcl
          exact Or.inr ⟨t, handed, by simp⟩
        · rename_i r j handed
          exact absurd rfl (hclean r (.task j) handed)
        · cases hcl
    · exact Or.inr ⟨t, handed, List.mem_append_left _ hmem⟩
  · rw [sendsOf_snoc]
    rcases hi.phase with ⟨hφ, hs⟩ | ⟨hφ, hs⟩
    · obtain ⟨φ', h', hmv | ⟨hmv, rfl⟩⟩ := fits_step hφ h
      · cases hmv with
        | send => exact Or.inr ⟨h', by simp [hs, Act.sends]⟩
      · exact Or.inl ⟨h', by simp [hs, (unmoved hmv).1]⟩
    · obtain ⟨φ', h', hmv | ⟨hmv, rfl⟩⟩ := fits_step hφ h
      · cases hmv with
        | recv => exact absurd (recv_main hm h) hp
      · exact Or.inr ⟨h', by simp [hs, (unmoved hmv).1]⟩

theorem spawning_run {pre post : List (Act P)} {w w₀ : St A P} {k : TaskId} (hpre : (machine A P).Run pre w₀)
    (hi : Spawning w₀ k [] w₀) (h : (machine A P).Steps w₀ post w)
    (hin : (machine A P).Meets (fun w _ => w.core.pc .main ≠ .out) w₀ post) : Spawning w₀ k post w := by
  refine Lib.Machine.steps_induction (J := fun post w => (machine A P).Meets (fun w _ => w.core.pc .main ≠ .out) w₀ post →
    Spawning w₀ k post w) (fun _ => hi) ?_ h hin
  intro post w a w' hs ih hst hin
  exact spawning_step (ih hin.init) (main_out (hpre.append hs)) (hin.last hs) (step_inv hst)

/-- Where the call has returned, the Runnable is in the channel. -/
theorem Spawning.returned {w₀ w : St A P} {k : TaskId} {post : List (Act P)} (hi : Spawning w₀ k post w)
    (hp : w.core.pc .main = .out) : sendsOf k post = 1 ∧ w.core.chan.count k = 1 := by
  rcases hi.phase with ⟨hφ, -⟩ | ⟨hφ, hs⟩
  · have := (hφ.place.hand .main).mpr rfl
    rw [hp] at this
    cases this
  · exact ⟨hs, hφ.place.queued⟩

/-! ## Without a slot -/

/-- The Runnable of a refused spawn is being dropped, or has been. -/
structure Refusing (k : TaskId) (post : List (Act P)) (w : St A P) : Prop where
  polls : ∀ polls, .run k polls ∉ post
  sends : sendsOf k post = 0
  phase : Fits w k (.dropping .runnable) ∧ dropsOf k post = 0 ∨ Fits w k .finished ∧ dropsOf k post = 1

theorem refusing_step {w w' : St A P} {k : TaskId} {post : List (Act P)} {a : Act P} (hi : Refusing k post w)
    (h : Step w a w') : Refusing k (post ++ [a]) w' := by
  -- neither of the two phases is left by a run or a send
  have next : (∀ polls, a ≠ .run k polls) ∧ Act.sends k a = false ∧
      (Fits w' k (.dropping .runnable) ∧ dropsOf k (post ++ [a]) = 0 ∨
        Fits w' k .finished ∧ dropsOf k (post ++ [a]) = 1) := by
    rw [dropsOf_snoc]
    rcases hi.phase with ⟨hφ, hd⟩ | ⟨hφ, hd⟩
    · obtain ⟨φ', h', hmv | ⟨hmv, rfl⟩⟩ := fits_step hφ h
      · cases hmv with
        | dropDone => exact ⟨by simp, rfl, Or.inr ⟨h', by simp [hd, Act.drops]⟩⟩
      · obtain ⟨h1, h2⟩ := unmoved hmv
        refine ⟨fun polls he => ?_, h1, Or.inl ⟨h', by simp [hd, h2]⟩⟩
        subst he
        simp [Act.moves] at hmv
    · obtain ⟨φ', h', hmv | ⟨hmv, rfl⟩⟩ := fits_step hφ h
      · cases hmv
      · obtain ⟨h1, h2⟩ := unmoved hmv
        refine ⟨fun polls he => ?_, h1, Or.inr ⟨h', by simp [hd, h2]⟩⟩
        subst he
        simp [Act.moves] at hmv
  refine ⟨fun polls => ?_, by rw [sendsOf_snoc, next.2.1, hi.sends]; rfl, next.2.2⟩
  rw [List.mem_append, not_or]
  exact ⟨hi.polls polls, by simpa using (next.1 polls).symm⟩

theorem Refusing.dropped {w : St A P} {k : TaskId} {post : List (Act P)} (hi : Refusing k post w) :
    dropsOf k post ≤ 1 ∧ (dropsOf k post = 1 ↔ .drop k .runnable ∉ w.cont .main) := by
  have hmem : .drop k .runnable ∈ w.cont .main ↔ .drop k .runnable ∈ framesOf k (w.cont .main) := by
    simp [framesOf, Frame.code]
  rw [hmem]
  rcases hi.phase with ⟨hφ, hd⟩ | ⟨hφ, hd⟩
  · rw [hφ.frames, hd]
    simp [Phase.frames]
  · rw [hφ.frames, hd]
    simp [Phase.frames]

/-- Dropping the Runnable, and what follows it, are no accesses of `spawn` to the
    scheduler or to a pool. -/
theorem refused_own {w w' : St A P} {k : TaskId}
    (h : step w (.dropDone k .runnable) = some w' ∨ step w (.glueDone .main) = some w') :
    w'.core = w.core ∧ w'.pools = w.pools := by
  rcases h with h | h
  · cases step_inv h with
    | dropDone => exact ⟨rfl, rfl⟩
  · cases step_inv h with
    | glueDone => exact ⟨rfl, rfl⟩

/-! ## All or nothing -/

theorem spawning_start {pre : List (Act P)} {w w₁ : St A P} {r : ReqId} {k : TaskId} (h : (machine A P).Run pre w)
    (hs : Step w (.requestSpawn r k true) w₁) : Spawning w₁ k [] w₁ := by
  obtain ⟨φ, hφ⟩ := fits_run h k
  obtain ⟨φ', h', hmv⟩ := fits_step hφ hs
  refine ⟨rfl, rfl, ?_, Or.inl ⟨?_, rfl⟩⟩
  · cases hs with
    | requestSpawn => exact ⟨_, Function.update_self _ _ _, Or.inl rfl⟩
  · rcases hmv with hmv | ⟨hmv, -⟩
    · cases hmv with
      | requestSpawn => exact h'
    · simp [Act.moves] at hmv

theorem refusing_start {pre : List (Act P)} {w w₁ : St A P} {r : ReqId} {k : TaskId} (h : (machine A P).Run pre w)
    (hs : Step w (.requestSpawn r k false) w₁) : Refusing k [] w₁ := by
  obtain ⟨φ, hφ⟩ := fits_run h k
  obtain ⟨φ', h', hmv⟩ := fits_step hφ hs
  refine ⟨fun polls => by simp, rfl, Or.inl ⟨?_, rfl⟩⟩
  rcases hmv with hmv | ⟨hmv, -⟩
  · cases hmv with
    | refused => exact h'
  · simp [Act.moves] at hmv

/-- A Runnable is dropped, with a future whose drop calls nothing. -/
theorem drop_alone {w : St A P} {k : TaskId} {c : Cell A} {rest : List Frame} (hc : w.cells k = some c)
    (hf : w.cont .main = .drop k .runnable :: rest) (hpc : w.core.pc .main = .out) :
    ∃ w', (machine A P).Steps w [.dropDone k .runnable, .glueDone .main] w' ∧ w'.core = w.core ∧ w'.pools = w.pools ∧
      w'.fins = w.fins ∧ w'.posted = w.posted ∧ w'.cont = Function.update w.cont .main rest := by
  let m := (w.setCell k { c with st := A.dropped c.st .runnable, live := false }).setCont .main (.glue :: rest)
  have h1 : (machine A P).step w (.dropDone k .runnable) = some m := by simp [machine, step, hc, hf, hpc, m]
  have h2 : (machine A P).step m (.glueDone .main) = some (m.setCont .main rest) := by
    simp [machine, step, hpc, m]
  refine ⟨_, .cons h1 (.single h2), rfl, rfl, rfl, rfl, ?_⟩
  show Function.update (Function.update w.cont .main (.glue :: rest)) .main rest = _
  rw [Function.update_idem]

/-- What a refused spawn does by itself, and all that it does if the future's drop calls nothing. -/
theorem refused_alone {w w₁ : St A P} {r : ReqId} {k : TaskId} (hs : Step w (.requestSpawn r k false) w₁) :
    w₁.core = w.core ∧ w₁.pools = w.pools ∧ w₁.fins = w.fins ∧ w₁.posted = w.posted ∧
      ∃ w₂, (machine A P).Steps w₁ [.dropDone k .runnable, .glueDone .main] w₂ ∧ w₂.core = w.core ∧
        w₂.pools = w.pools ∧ w₂.fins = w.fins ∧ w₂.posted = w.posted ∧ w₂.cont = w.cont := by
  cases hs with
  | requestRefused _ _ p s hp hf hl hc hs =>
    obtain rfl : s = w.core := hs.kept_eq (A.spawn_op .drop)
    obtain ⟨hpc, -⟩ := free_main hf
    refine ⟨rfl, rfl, rfl, rfl, ?_⟩
    let m := (w.setCell k ⟨(A.op A.spawn .drop).1, true, some r, false, .gone⟩).push .main (.drop k .runnable)
    have hstack : m.cont .main = .drop k .runnable :: w.cont .main := by simp [m]
    obtain ⟨w₂, h2, h3, h4, h5, h6, h7⟩ := drop_alone (w := m) (Function.update_self _ _ _) hstack hpc
    refine ⟨w₂, h2, h3, h4, h5, h6, h7.trans ?_⟩
    show Function.update (Function.update w.cont .main _) .main (w.cont .main) = w.cont
    rw [Function.update_idem, Function.update_eq_self]

/-- `RequestSpawn::spawn`, with a slot from the allocator or without one, from the event
    loop or from under any frame of code that may call it. -/
theorem spawn_all_or_nothing {pre : List (Act P)} {w w₁ : St A P} {r : ReqId} {k : TaskId}
    (h : (machine A P).Run pre w) :
    (step w (.requestSpawn r k true) = some w₁ →
      (∃ p, w.pools r = some p ∧
        w₁.pools = Function.update w.pools r (some { p with cleanups := .task k :: p.cleanups })) ∧
      (∃ c, w₁.cells k = some c ∧ c.handle = .slot ∧ c.req = some r) ∧
      ∀ post w₂, (machine A P).Steps w₁ post w₂ →
        (machine A P).Meets (fun w _ => w.core.pc .main ≠ .out) w₁ post →
        w₂.pools = w₁.pools ∧ w₂.cont .main = w.cont .main ∧
        (∃ c, w₂.cells k = some c ∧ (c.handle = .slot ∨ ∃ t handed, .op t k .cancel handed ∈ post)) ∧
        Sched.Inv w₂.core ∧ sendsOf k post ≤ 1 ∧
        (w₂.core.pc .main = .out → sendsOf k post = 1 ∧ w₂.core.chan.count k = 1) ∧
        (w₂.core.pc .main ≠ .out →
          ∃ e w₃, step w₂ (.core e) = some w₃ ∧ left (w₃.core.pc .main) < left (w₂.core.pc .main))) ∧
    (step w (.requestSpawn r k false) = some w₁ →
      (w₁.core = w.core ∧ w₁.pools = w.pools ∧ w₁.fins = w.fins ∧ w₁.posted = w.posted ∧
        ∃ w₂, (machine A P).Steps w₁ [.dropDone k .runnable, .glueDone .main] w₂ ∧ w₂.core = w.core ∧
          w₂.pools = w.pools ∧ w₂.fins = w.fins ∧ w₂.posted = w.posted ∧ w₂.cont = w.cont) ∧
      ∀ post w₂, (machine A P).Steps w₁ post w₂ →
        (∀ polls, .run k polls ∉ post) ∧ sendsOf k post = 0 ∧ dropsOf k post ≤ 1 ∧
        (dropsOf k post = 1 ↔ .drop k .runnable ∉ w₂.cont .main) ∧
        ∀ w₃, step w₂ (.dropDone k .runnable) = some w₃ ∨ step w₂ (.glueDone .main) = some w₃ →
          w₃.core = w₂.core ∧ w₃.pools = w₂.pools) := by
  constructor
  · intro hs
    have hm : (machine A P).step w (.requestSpawn r k true) = some w₁ := hs
    have hrun := h.snoc hm
    have hs := step_inv hs
    have hstart := spawning_start h hs
    have hcont : w₁.cont = w.cont := by
      cases hs with
      | requestSpawn => rfl
    refine ⟨?_, ?_, fun post w₂ hpost hin => ?_⟩
    · cases hs with
      | requestSpawn _ _ p _ hp => exact ⟨p, hp, rfl⟩
    · cases hs with
      | requestSpawn => exact ⟨_, Function.update_self _ _ _, rfl, rfl⟩
    · have hi := spawning_run hrun hstart hpost hin
      refine ⟨hi.pools, hi.stack.trans (by rw [hcont]), hi.handle, ?_, ?_, hi.returned, inside_progress⟩
      · exact Sched.inv_reach (core_sim.run (hrun.append hpost)).reach
      · rcases hi.phase with ⟨-, hn⟩ | ⟨-, hn⟩ <;> omega
  · intro hs
    have hs := step_inv hs
    refine ⟨refused_alone hs, fun post w₂ hpost => ?_⟩
    have hi : Refusing k post w₂ :=
      Lib.Machine.steps_induction (J := Refusing k) (refusing_start h hs)
        (fun _ _ _ _ _ hi hst => refusing_step hi (step_inv hst)) hpost
    obtain ⟨hle, hiff⟩ := hi.dropped
    exact ⟨hi.polls, hi.sends, hle, hiff, fun w₃ h₃ => refused_own h₃⟩

/-- Under its first poll task 7 spawns 8 on request 1, with a slot or without one. -/
theorem spawn_all_or_nothing_nested :
    ∃ w w₂ v₁ : St .plain Nat, (machine .plain Nat).Run (.newRequest 1 0 :: firstPoll) w ∧ .poll 7 ∈ w.cont .main ∧
      (machine .plain Nat).Steps w [.requestSpawn 1 8 true, .core (.send .main 8), .core (.cas .main true),
        .core (.write .main)] w₂ ∧ w₂.core.chan.count 8 = 1 ∧
      step w (.requestSpawn 1 8 false) = some v₁ ∧ v₁.core = w.core := by
  obtain ⟨w, hw, hf, w₁, h1, v₁, hv⟩ : ∃ w, (machine .plain Nat).exec fresh (.newRequest 1 0 :: firstPoll) = some w ∧
      .poll 7 ∈ w.cont .main ∧ ∃ w₁, step w (.requestSpawn 1 8 true) = some w₁ ∧
      ∃ v₁, step w (.requestSpawn 1 8 false) = some v₁ := ⟨_, rfl, List.mem_cons_self, _, rfl, _, rfl⟩
  obtain ⟨m, n, w₂, hm, hn, hw₂, p1, p2, p3, p4⟩ : ∃ m n w₂, step w₁ (.core (.send .main 8)) = some m ∧
      step m (.core (.cas .main true)) = some n ∧ step n (.core (.write .main)) = some w₂ ∧
      w₁.core.pc .main ≠ .out ∧ m.core.pc .main ≠ .out ∧ n.core.pc .main ≠ .out ∧ w₂.core.pc .main = .out := by
    cases hw
    cases h1
    exact ⟨_, _, _, rfl, rfl, rfl, by decide, by decide, by decide, rfl⟩
  have hrun : (machine .plain Nat).Run (.newRequest 1 0 :: firstPoll) w :=
    ⟨fresh, fresh_init, Lib.Machine.steps_of_exec hw⟩
  have hpost : (machine .plain Nat).Steps w₁ [.core (.send .main 8), .core (.cas .main true), .core (.write .main)] w₂ :=
    .cons hm (.cons hn (.single hw₂))
  have hin : (machine .plain Nat).Meets (fun w _ => w.core.pc .main ≠ .out) w₁
      [.core (.send .main 8), .core (.cas .main true), .core (.write .main)] :=
    .cons p1 hm (.cons p2 hn (.cons p3 hw₂ Lib.Machine.meets_nil))
  have hok := ((spawn_all_or_nothing hrun).1 h1).2.2 _ _ hpost hin
  have herr := ((spawn_all_or_nothing hrun).2 hv).1
  exact ⟨w, w₂, v₁, hrun, hf, .cons h1 hpost, (hok.2.2.2.2.2.1 p4).2, hv, herr.1⟩

end NgxTickle.Worker
