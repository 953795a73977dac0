/-
  NgxTickle.Worker.Teardown — what a teardown drops. `RequestSpawn` promises that a
  task's future is dropped when its request is torn down. The pool cleanup drops the
  `RequestTask`, but all that does is close the task and send its Runnable through the
  channel once more: the future is dropped by a later `async_handler`, when the pool,
  and the request in it, are freed.

  - `teardown_exact`: from the start of a teardown to its return no task is dropped, so
    at the return a task's future is dropped if and only if the task was finished
    (`Cell.Finished`) at the start.
  - `dropped_at_teardown`: in a run whose teardowns all start with every task of their
    request finished, no future of a request outlives it, and none is polled or
    dropped after.
  - `an_asleep_task_outlives_its_request`: a task asleep at the teardown is dropped
    after its request is freed.
-/

import NgxTickle.Worker.Cancel
import NgxTickle.Worker.Pools

namespace NgxTickle.Worker

open NgxTickle.Task
open NgxTickle.Sched (Thread Pc Handler)

variable {A : AsyncTask} {P : Type}

/-- Completed or closed, and its Runnable neither queued nor running. -/
def Cell.Finished (c : Cell A) : Prop :=
  (A.bits c.st).scheduled = false ∧ (A.bits c.st).running = false ∧ (A.bits c.st).done = true

/-- The task was spawned on `r`, which returned its handle. -/
def Cell.On (c : Cell A) (r : ReqId) : Prop := c.ok = true ∧ c.req = some r

/-- A teardown starts with every task of its request finished; none is spawned on a
    request that is being torn down. -/
def Orderly (w : St A P) : Act P → Prop
  | .destroyPool r => ∀ k c, w.cells k = some c → c.On r → c.Finished
  | .requestSpawn r _ true => ∀ p, w.pools r = some p → p.life = .live
  | _ => True

/-- The act starts no teardown and spawns nothing on a request. -/
def Act.calm : Act P → Bool
  | .destroyPool _ | .requestSpawn _ _ true => false
  | _ => true

theorem orderly_of_calm {w : St A P} {a : Act P} (h : a.calm = true) : Orderly w a := by
  unfold Orderly
  split
  · cases h
  · cases h
  · trivial

variable [DecidableEq P]

/-! ## A task's future is there until it is finished -/

theorem Fits.finished_bits {w : St A P} {k : TaskId} {φ : Phase P} {c : Cell A} (h : Fits w k φ)
    (hc : w.cells k = some c) : c.live = false ↔ c.Finished := by
  obtain ⟨hok, hl⟩ := h.ok c hc
  rw [hl]
  unfold Cell.Finished
  cases φ with
  | unborn => cases hok
  | dropping why => cases why <;> simp_all [Phase.live, Phase.Ok]
  | idle => rw [show A.bits c.st = _ from hok]; simp [Phase.live, Bits.done]
  | finished => exact ⟨fun _ => hok, fun _ => rfl⟩
  | _ => simp_all [Phase.live, Phase.Ok]

/-- A frame that runs a future's code has the future. -/
theorem Fits.live_of_frame {w : St A P} {k : TaskId} {φ : Phase P} {c : Cell A} {f : Frame} (h : Fits w k φ)
    (hc : w.cells k = some c) (hf : f ∈ w.cont .main) (hk : f.code = some k) : c.live = true := by
  have hm : f ∈ framesOf k (w.cont .main) := List.mem_filter.mpr ⟨hf, by simpa using hk⟩
  rw [h.frames] at hm
  rw [(h.ok c hc).2]
  cases φ with
  | finished => cases hm
  | _ => rfl

/-! ## No task is dropped during a teardown -/

/-- The frame of a teardown stays on the stack until it returns. -/
theorem destroy_step {w w' : St A P} {a : Act P} {r : ReqId} (h : Step w a w') (hd : .destroy r ∈ w.cont .main)
    (ha : a ≠ .freePool r) : .destroy r ∈ w'.cont .main := by
  obtain ⟨h1, -, h3⟩ := destroys_step h r
  rw [← St.destroys_pos] at hd ⊢
  by_cases hr : a = .destroyPool r
  · rw [h1 hr]; omega
  · rw [h3 hr ha]; exact hd

/-- Under a teardown no task with a handle is dropped. -/
theorem live_in_teardown {w w' : St A P} {a : Act P} {r : ReqId} {k : TaskId} {c : Cell A} (hw : Stacked w)
    (hr : Refused w) (h : Step w a w') (hd : .destroy r ∈ w.cont .main) (hc : w'.cells k = some c) (ho : c.ok = true)
    (hl : c.live = false) : ∃ c₀, w.cells k = some c₀ ∧ c₀.ok = true ∧ c₀.live = false := by
  cases hk : w.cells k with
  | none => rw [(cell_born h hk hc).1] at hl; cases hl
  | some c₀ =>
    obtain ⟨d, hd', hlt, hv⟩ := cell_step h hk
    rw [hc] at hd'
    cases hd'
    have ho' : c₀.ok = true := hlt.ok.symm.trans ho
    rcases hv with hv | ⟨why, rest, rfl, hf, -⟩
    · exact ⟨c₀, rfl, ho', hv.symm.trans hl⟩
    · exfalso
      rcases hw.code [] rest hf rfl with ⟨rfl, -⟩ | h
      · rw [hf] at hd; simp at hd
      · cases h
        obtain ⟨e, he, hoe⟩ := hr k (by rw [hf]; exact List.mem_cons_self)
        rw [hk] at he
        cases he
        rw [ho'] at hoe
        cases hoe

/-- A dropped future stays dropped. -/
theorem dead_steps {w w' : St A P} {tr : List (Act P)} {k : TaskId} {c c' : Cell A} (h : (machine A P).Steps w tr w')
    (hc : w.cells k = some c) (hl : c.live = false) (hc' : w'.cells k = some c') : c'.live = false := by
  have := Lib.Machine.steps_induction (J := fun _ w => ∃ d, w.cells k = some d ∧ d.live = false) ⟨c, hc, hl⟩ ?_ h
  · obtain ⟨d, hd, hl'⟩ := this
    rw [hc'] at hd
    cases hd
    exact hl'
  · intro tr v a v' _ hi hst
    obtain ⟨d, hd, hl'⟩ := hi
    obtain ⟨e, he, -, hv⟩ := cell_step (step_inv hst) hd
    rcases hv with hv | ⟨_, _, _, _, hv⟩
    · exact ⟨e, he, hv.trans hl'⟩
    · exact ⟨e, he, hv⟩

/-- When a teardown returns, a task of its request is dropped if and only if it was
    finished when the teardown started. -/
theorem teardown_exact {pre mid : List (Act P)} {m w : St A P} {r : ReqId} {k : TaskId} {c : Cell A}
    (hpre : (machine A P).Run pre m) (h : (machine A P).Steps m (.destroyPool r :: mid ++ [.freePool r]) w)
    (hmid : .freePool r ∉ mid) (hc : w.cells k = some c) (hk : c.On r) :
    c.live = false ↔ ∃ c₀, m.cells k = some c₀ ∧ c₀.Finished := by
  obtain ⟨v, hv, hlast⟩ := Lib.Machine.steps_snoc.mp h
  obtain ⟨m₁, h1, hmids⟩ := Lib.Machine.steps_cons.mp hv
  -- the frame is there from the first step to the last, and no task is dropped above it
  have key : .freePool r ∉ mid → .destroy r ∈ v.cont .main ∧ ∀ c, v.cells k = some c → c.ok = true → c.live = false →
      ∃ c₀, m.cells k = some c₀ ∧ c₀.live = false := by
    refine Lib.Machine.steps_induction (J := fun mid v => .freePool r ∉ mid → .destroy r ∈ v.cont .main ∧
      ∀ c, v.cells k = some c → c.ok = true → c.live = false → ∃ c₀, m.cells k = some c₀ ∧ c₀.live = false) ?_ ?_ hmids
    · intro _
      have h1 : step m (.destroyPool r) = some m₁ := h1
      cases step_inv h1 with
      | destroyPool _ p _ _ _ => exact ⟨by simp, fun c hc _ hl => ⟨c, hc, hl⟩⟩
    · intro mid' u a u' hs ih hst hn
      rw [List.mem_append, not_or] at hn
      obtain ⟨hd, hi⟩ := ih hn.1
      have hrun := (hpre.snoc h1).append hs
      refine ⟨destroy_step (step_inv hst) hd (by simpa using Ne.symm (by simpa using hn.2)), fun c hc ho hl => ?_⟩
      obtain ⟨c₀, h0, ho, hl⟩ :=
        live_in_teardown (stacked_invariant.run hrun) (refused_invariant.run hrun) (step_inv hst) hd hc ho hl
      exact hi c₀ h0 ho hl
  have hcells : w.cells = v.cells := by
    have hlast : step v (.freePool r) = some w := hlast
    cases step_inv hlast with
    | freePool _ p rest _ _ _ _ => rfl
  obtain ⟨φ, hφ⟩ := fits_run hpre k
  constructor
  · intro hl
    obtain ⟨c₀, h0, hl0⟩ := (key hmid).2 c (by rw [← hcells]; exact hc) hk.1 hl
    exact ⟨c₀, h0, (hφ.finished_bits h0).mp hl0⟩
  · intro hfin
    obtain ⟨c₀, h0, hf⟩ := hfin
    exact dead_steps h h0 ((hφ.finished_bits h0).mpr hf) hc

/-! ## Orderly teardowns -/

/-- No future outlives the start of its request's teardown. -/
def Outlived (w : St A P) : Prop :=
  ∀ r p, w.pools r = some p → p.life ≠ .live → ∀ k c, w.cells k = some c → c.On r → c.live = false

theorem outlived_step {w w' : St A P} {a : Act P} (h : Outlived w) (hd : Dying w) (hf : ∀ k, ∃ φ, Fits w k φ)
    (ho : Orderly w a) (hst : Step w a w') : Outlived w' := by
  intro r p' hp' hl' k c' hc' hon
  cases hp : w.pools r with
  | none => exact absurd (pool_born hst hp hp').2.1 hl'
  | some p =>
    cases hc : w.cells k with
    | none =>
      -- a task born now, on a pool that is not live any more
      exfalso
      obtain ⟨q, hq, -, hql⟩ := pool_step hst hp
      rw [hp'] at hq
      cases hq
      obtain ⟨-, ⟨-, hr⟩ | ⟨⟨r', rfl, hr⟩, -⟩ | hr⟩ := cell_born hst hc hc'
      · rw [hon.2] at hr; cases hr
      · rw [hon.2] at hr
        cases hr
        rcases hql with h | ⟨h, -⟩ | ⟨h, -⟩
        · exact hl' (h.trans (ho p hp))
        · cases h
        · cases h
      · rw [hon.1] at hr; cases hr
    | some c =>
      obtain ⟨d, hd', hlt, hv⟩ := cell_step hst hc
      rw [hc'] at hd'
      cases hd'
      have hon' : c.On r := ⟨hlt.ok.symm.trans hon.1, hlt.req.symm.trans hon.2⟩
      have hlive : c.live = false := by
        obtain ⟨q, hq, -, hql⟩ := pool_step hst hp
        rw [hp'] at hq
        cases hq
        rcases hql with hl | ⟨rfl, -, -⟩ | ⟨rfl, hfr, -⟩
        · exact h r p hp (hl ▸ hl') k c hc hon'
        · obtain ⟨φ, hφ⟩ := hf k
          exact (hφ.finished_bits hc).mpr (ho k c hc hon')
        · have hdy := hd.of_frame hfr
          refine h r p hp ?_ k c hc hon'
          simp [St.dying, hp] at hdy
          rw [hdy]
          simp
      rcases hv with hv | ⟨_, _, _, _, hv⟩
      · exact hv.trans hlive
      · exact hv

theorem outlived_run {tr : List (Act P)} {w : St A P} (h : (machine A P).RunIf Orderly tr w) : Outlived w := by
  refine Lib.Machine.runIf_induction (J := fun _ w => Outlived w) ?_ ?_ h
  · intro w hw r p hp
    obtain ⟨s, -, rfl⟩ := hw
    cases hp
  · intro tr w a w' hrun hi ho hst
    exact outlived_step hi (dying_invariant.run hrun.run) (fits_run hrun.run) ho (step_inv hst)

/-- In a run of orderly teardowns, once a request is freed the futures of its tasks are
    dropped, and no frame runs their code any more. And for each teardown of any run: a
    task is dropped at its return if and only if it was finished at its start. -/
theorem dropped_at_teardown :
    (∀ (tr : List (Act P)) (w : St A P), (machine A P).RunIf Orderly tr w → ∀ r p, w.pools r = some p →
      p.life = .freed → ∀ k c, w.cells k = some c → c.On r → c.live = false ∧ ∀ t, ∀ f ∈ w.cont t, f.code ≠ some k) ∧
    ∀ (pre mid : List (Act P)) (m w : St A P) r, (machine A P).Run pre m →
      (machine A P).Steps m (.destroyPool r :: mid ++ [.freePool r]) w → .freePool r ∉ mid →
      ∀ k c, w.cells k = some c → c.On r → (c.live = false ↔ ∃ c₀, m.cells k = some c₀ ∧ c₀.Finished) := by
  constructor
  · intro tr w h r p hp hfr k c hc hon
    have hl := outlived_run h r p hp (by rw [hfr]; simp) k c hc hon
    refine ⟨hl, fun t f hf hk => ?_⟩
    cases t with
    | other q =>
      rw [(stacked_invariant.run h.run).other q f hf] at hk
      cases hk
    | main =>
      obtain ⟨φ, hφ⟩ := fits_run h.run k
      rw [hφ.live_of_frame hc hf hk] at hl
      cases hl
  · intro pre mid m w r hpre h hmid k c hc hon
    exact teardown_exact hpre h hmid hc hon

/-! ## A task asleep at the teardown -/

/-- Request 1 is torn down while its task 7 is asleep: the cleanup sends the Runnable. -/
def tornDown : List (Act Nat) :=
  asleep ++ [.destroyPool 1, .cleanup 1 (.task 7) true, .core (.send .main 7), .core (.cas .main true),
    .core (.write .main), .glueDone .main, .freePool 1]

/-- The handler drops the future. -/
def afterwards : List (Act Nat) :=
  [.core .enter, .core .drain, .core .clear, .core (.load 8), .core (.isEmpty false), .core (.tryRecv (some 7)),
   .run 7 false]

/-- At the return of `ngx_destroy_pool` the future is still there, and its destructor
    runs after the request is freed. -/
theorem an_asleep_task_outlives_its_request :
    (∃ w, (machine .plain Nat).Run tornDown w ∧ (∃ p, w.pools 1 = some p ∧ p.life = .freed) ∧
      ∃ c, w.cells 7 = some c ∧ c.On 1 ∧ c.live = true) ∧
    ∃ w, (machine .plain Nat).Run (tornDown ++ afterwards) w ∧ (∃ p, w.pools 1 = some p ∧ p.life = .freed) ∧
      .drop 7 .closed ∈ w.cont .main := by
  constructor
  · exact ⟨_, ⟨fresh, fresh_init, Lib.Machine.steps_of_exec rfl⟩, ⟨_, rfl, rfl⟩, _, rfl, ⟨rfl, rfl⟩, rfl⟩
  · exact ⟨_, ⟨fresh, fresh_init, Lib.Machine.steps_of_exec rfl⟩, ⟨_, rfl, rfl⟩, List.mem_cons_self⟩

/-- Task 7 of request 1 completes in its first poll. -/
def completed : List (Act Nat) :=
  [.core (.send .main 7), .core (.cas .main true), .core (.write .main), .core .enter, .core .drain, .core .clear,
   .core (.load 8), .core (.isEmpty false), .core (.tryRecv (some 7)), .run 7 true, .pollReady 7, .dropDone 7 .ready,
   .glueDone .main, .core (.ret 7 false), .core (.tryRecv none)]

/-- Its request is torn down. -/
def tearDown : List (Act Nat) := [.cleanup 1 (.task 7) false, .glueDone .main, .freePool 1]

theorem dropped_at_teardown_completed :
    ∃ w, (machine .plain Nat).Run
        ([.newRequest 1 0, .requestSpawn 1 7 true] ++ completed ++ .destroyPool 1 :: tearDown) w ∧
      ∃ c, w.cells 7 = some c ∧ c.live = false := by
  obtain ⟨m, hm, p, hp, hpl⟩ : ∃ m, (machine .plain Nat).exec fresh [.newRequest 1 0] = some m ∧
      ∃ p, m.pools 1 = some p ∧ p.life = .live := ⟨_, rfl, _, rfl, rfl⟩
  obtain ⟨n, hn, hfin⟩ : ∃ n, (machine .plain Nat).exec m (.requestSpawn 1 7 true :: completed) = some n ∧
      ∀ k c, n.cells k = some c → c.On 1 → c.Finished := by
    cases hm
    refine ⟨_, rfl, fun k c hc _ => ?_⟩
    by_cases hk : k = 7
    · subst hk; cases hc; exact ⟨rfl, rfl, rfl⟩
    · simp [hk, fresh, St.start] at hc
  obtain ⟨w, hw, hcell, q, hq, hql⟩ : ∃ w, (machine .plain Nat).exec n (.destroyPool 1 :: tearDown) = some w ∧
      (∃ c, w.cells 7 = some c ∧ c.On 1) ∧ ∃ q, w.pools 1 = some q ∧ q.life = .freed := by
    cases hm
    cases hn
    exact ⟨_, rfl, ⟨_, rfl, rfl, rfl⟩, _, rfl, rfl⟩
  obtain ⟨c, hc, hon⟩ := hcell
  have h1 := Lib.Machine.steps_of_exec hm
  have h2 := Lib.Machine.steps_of_exec hn
  have h3 := Lib.Machine.steps_of_exec hw
  have hrun : (machine .plain Nat).Steps fresh
      ([.newRequest 1 0, .requestSpawn 1 7 true] ++ completed ++ .destroyPool 1 :: tearDown) w :=
    (h1.append h2).append h3
  refine ⟨w, ⟨fresh, fresh_init, hrun⟩, c, hc, ?_⟩
  refine (dropped_at_teardown.1 _ w ⟨fresh, fresh_init, hrun, ?_⟩ 1 q hq hql 7 c hc hon).1
  have calm : ∀ a ∈ completed ++ tearDown, a.calm = true := by decide
  have g1 : (machine .plain Nat).Meets Orderly fresh [.newRequest 1 0] := Lib.Machine.meets_single trivial
  have g2 : (machine .plain Nat).Meets Orderly m (.requestSpawn 1 7 true :: completed) := by
    obtain ⟨m', hm', -⟩ := Lib.Machine.steps_cons.mp h2
    refine (Lib.Machine.meets_single ?_).append (Lib.Machine.Steps.single hm')
      (Lib.Machine.meets_of_events fun a ha _ => orderly_of_calm (calm a (List.mem_append_left _ ha)))
    intro p' hp'
    rw [hp] at hp'
    cases hp'
    exact hpl
  have g3 : (machine .plain Nat).Meets Orderly n (.destroyPool 1 :: tearDown) := by
    obtain ⟨n', hn', -⟩ := Lib.Machine.steps_cons.mp h3
    exact (Lib.Machine.meets_single hfin).append (Lib.Machine.Steps.single hn')
      (Lib.Machine.meets_of_events fun a ha _ => orderly_of_calm (calm a (List.mem_append_right _ ha)))
  exact (g1.append h1 g2).append (h1.append h2) g3

end NgxTickle.Worker
