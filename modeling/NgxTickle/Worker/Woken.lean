/-
  NgxTickle.Worker.Woken — what `schedule` promises the futures (`src/spawn.rs`), told of
  their polls and drops, without the channel, TICKLED and the fd between.

  - `polled_as_woken`: a poll comes after a wake, or the spawn, that no poll has come
    after yet; and where nginx sleeps, every wake has had its poll, in whatever thread,
    handler or poll it was made, unless the future is dropped. It is not said that a wake
    has a poll of its own: those made before the task is run are answered together.
  - `lives_until_ended`: a future is dropped only after it returned Ready, or where its
    task was ended: cancelled, its handle dropped, its request torn down, its spawn
    refused, or the last reference to a task without a handle dropped. Where nginx sleeps
    any of these is also enough. So a task that is detached (`init_process` of
    `examples/compat.rs`) goes on to its end if a Waker of it is kept, and one whose
    handle is dropped instead does not.
-/

import NgxTickle.Worker.Cancel
import NgxTickle.Worker.Settle

namespace NgxTickle.Worker

open NgxTickle.Task
open NgxTickle.Sched (Thread Pc Handler Place Placed)

variable {A : AsyncTask} {P : Type}

/-- The act asks for a poll of the task. -/
def Act.wakes (k : TaskId) : Act P → Bool
  | .op _ j .wake _ | .spawn _ j | .requestSpawn _ j true => j == k
  | _ => false

/-- The act ends the task, whether its future has finished or not. -/
def Act.ends (k : TaskId) : Act P → Bool
  | .op _ j .cancel _ | .op _ j .drop _ | .op _ j .dropWaker true | .op _ j .detach true | .cleanup _ (.task j) _
  | .requestSpawn _ j false => j == k
  | _ => false

theorem ends_op {k j : TaskId} {t : Thread P} {o : Op} {handed : Bool} : Act.ends k (.op t j o handed) = true ↔
    j = k ∧ (o = .cancel ∨ o = .drop ∨ (o = .dropWaker ∨ o = .detach) ∧ handed = true) := by
  cases o <;> cases handed <;> simp [Act.ends]

/-- A wake of the task that no poll has come after. -/
def Woken (k : TaskId) (tr : List (Act P)) : Prop :=
  ∃ pre a post, tr = pre ++ a :: post ∧ Act.wakes k a = true ∧ .run k true ∉ post

/-- The task is to be polled: scheduled, and not closed. -/
def Owed (w : St A P) (k : TaskId) : Prop :=
  ∃ c, w.cells k = some c ∧ (A.bits c.st).scheduled = true ∧ (A.bits c.st).closed = false

/-- A wake of the task has not been forgotten: it is scheduled, or there is nothing left to poll. -/
def Noted (w : St A P) (k : TaskId) : Prop :=
  ∃ c, w.cells k = some c ∧ ((A.bits c.st).scheduled = true ∨ (A.bits c.st).done = true)

theorem woken_wake {k : TaskId} {a : Act P} (tr : List (Act P)) (h : Act.wakes k a = true) : Woken k (tr ++ [a]) :=
  ⟨tr, a, [], rfl, h, List.not_mem_nil⟩

theorem Woken.snoc {k : TaskId} {a : Act P} {tr : List (Act P)} (h : Woken k tr) (ha : a ≠ .run k true) :
    Woken k (tr ++ [a]) := by
  obtain ⟨pre, b, post, rfl, hb, hp⟩ := h
  refine ⟨pre, b, post ++ [a], by simp, hb, ?_⟩
  rw [List.mem_append, not_or]
  exact ⟨hp, by simpa using Ne.symm ha⟩

/-- The future of the task has returned Ready, or the task was ended. -/
def Ended (k : TaskId) (tr : List (Act P)) : Prop := .pollReady k ∈ tr ∨ ∃ a ∈ tr, Act.ends k a = true

theorem ended_snoc {k : TaskId} {tr : List (Act P)} {a : Act P} :
    Ended k (tr ++ [a]) ↔ Ended k tr ∨ a = .pollReady k ∨ Act.ends k a = true := by
  simp only [Ended, List.mem_append, List.mem_singleton, or_and_right, exists_or, exists_eq_left]
  grind

variable [DecidableEq P]

/-! ## One step -/

/-- A task is made by a spawn that leaves it scheduled, or by a refused one. -/
theorem born_inv {w w' : St A P} {a : Act P} {k : TaskId} {φ : Phase P} {c : Cell A} (h : Fits w k φ)
    (hst : Step w a w') (hc : w.cells k = none) (hc' : w'.cells k = some c) :
    Act.wakes k a = true ∧ A.bits c.st = .fresh ∧ c.ok = true ∨ Act.ends k a = true ∧ (A.bits c.st).closed = true := by
  obtain rfl := h.unborn.mpr hc
  obtain ⟨φ', h', hm | ⟨-, rfl⟩⟩ := fits_step h hst
  · cases hm with
    | spawn t =>
      cases hst with
      | spawn =>
        simp at hc'
        subst hc'
        exact Or.inl ⟨by simp [Act.wakes], A.spawn_bits, rfl⟩
    | requestSpawn r =>
      cases hst with
      | requestSpawn =>
        simp at hc'
        subst hc'
        exact Or.inl ⟨by simp [Act.wakes], A.spawn_bits, rfl⟩
    | refused r =>
      cases hst with
      | requestRefused =>
        simp at hc'
        subst hc'
        exact Or.inr ⟨by simp [Act.ends], A.close_closed (Or.inr rfl) (by rw [A.spawn_bits]; rfl)⟩
  · rw [h'.unborn.mp rfl] at hc'
    cases hc'

theorem run_inv {w w' : St A P} {k : TaskId} {polls : Bool} {c : Cell A} (hst : Step w (.run k polls) w')
    (hc : w.cells k = some c) :
    (A.begin c.st).2 = polls ∧ w'.cells k = some { c with st := (A.begin c.st).1 } := by
  cases hst with
  | runPoll _ d s hd hp _ =>
    rw [hc] at hd
    cases hd
    exact ⟨hp, Function.update_self _ _ _⟩
  | runDrop _ d s hd hp _ =>
    rw [hc] at hd
    cases hd
    exact ⟨hp, Function.update_self _ _ _⟩

/-- A run that polls begins with a task that is scheduled and open, and unschedules it. -/
theorem run_owed {w w' : St A P} {k : TaskId} {φ : Phase P} (h : Fits w k φ) (hst : Step w (.run k true) w') :
    Owed w k ∧ ¬ Owed w' k := by
  obtain ⟨c, s, hc, hp, hs⟩ : ∃ c s, w.cells k = some c ∧ (A.begin c.st).2 = true ∧ Sched.Step w.core (.run k) s := by
    cases hst with
    | runPoll _ c s hc hp hs => exact ⟨c, s, hc, hp, hs⟩
  obtain ⟨rfl, -⟩ := h.taken hs
  obtain ⟨hsch, -, -⟩ := (h.ok c hc).1
  refine ⟨⟨c, hc, hsch, by simpa [A.begin_polls] using hp⟩, ?_⟩
  rintro ⟨c', hc', hs', -⟩
  rw [(run_inv hst hc).2] at hc'
  cases hc'
  rw [A.begin_polled hp] at hs'
  cases hs'

/-- A poll is owed for a wake only. -/
theorem owed_step {w w' : St A P} {a : Act P} {k : TaskId} {φ : Phase P} (hφ : Fits w k φ) (hst : Step w a w')
    (h : Owed w' k) : Act.wakes k a = true ∨ Owed w k ∧ a ≠ .run k true := by
  have hrun : a ≠ .run k true := fun ha => (run_owed hφ (ha ▸ hst)).2 h
  obtain ⟨c', hc', hs, hcl⟩ := h
  cases hc : w.cells k with
  | none =>
    obtain ⟨ha, -⟩ | ⟨-, hd⟩ := born_inv hφ hst hc hc'
    · exact Or.inl ha
    · rw [hcl] at hd
      cases hd
  | some c =>
    have keeps : (A.bits c.st).scheduled = true ∧ (A.bits c.st).closed = false →
        Act.wakes k a = true ∨ Owed w k ∧ a ≠ .run k true := fun h => Or.inr ⟨⟨c, hc, h⟩, hrun⟩
    obtain ⟨d, hd, hcs⟩ := cell_inv hst hc
    rw [hc'] at hd
    cases hd
    cases hcs with
    | keep => exact keeps ⟨hs, hcl⟩
    | begin polls =>
      cases polls with
      | true => exact absurd rfl hrun
      | false =>
        rw [(A.begin_unpolled (run_inv hst hc).1).1] at hs hcl
        exact keeps ⟨hs, hcl⟩
    | pending again hopen =>
      have hb : A.bits (A.pending c.st).1 = (A.bits c.st).pending.1 := congrArg Prod.fst (A.pending_bits c.st hopen)
      rw [hb] at hs
      exact keeps ⟨hs, hopen⟩
    | dropped why =>
      rcases A.dropped_bits c.st why with h1 | ⟨-, h1⟩
      · rw [h1] at hs; cases why <;> cases hs
      · rw [h1] at hs; cases why <;> cases hs
    | op t o handed h hh =>
      by_cases ho : o = .wake
      · subst ho
        exact Or.inl (by simp [Act.wakes])
      · exact keeps (A.op_open ho hs hcl)
    | cleanup r handed hsl => exact keeps (A.op_open (by simp) hs hcl)

/-- A wake is noted. -/
theorem noted_wake {w w' : St A P} {a : Act P} {k : TaskId} (hst : Step w a w') (ha : Act.wakes k a = true) :
    Noted w' k := by
  cases hst with
  | op t j o handed c h s hc _ _ _ _ _ =>
    cases o with
    | wake =>
      obtain rfl : j = k := by simpa [Act.wakes] using ha
      exact ⟨_, Function.update_self _ _ _, A.wake_scheduled c.st⟩
    | _ => cases ha
  | spawn t j s _ _ _ =>
    obtain rfl : j = k := by simpa [Act.wakes] using ha
    exact ⟨_, Function.update_self _ _ _, Or.inl (by rw [A.spawn_bits]; rfl)⟩
  | requestSpawn r j p s _ _ _ _ _ =>
    obtain rfl : j = k := by simpa [Act.wakes] using ha
    exact ⟨_, Function.update_self _ _ _, Or.inl (by rw [A.spawn_bits]; rfl)⟩
  | _ => cases ha

/-- What is noted stays so until the poll. -/
theorem noted_step {w w' : St A P} {a : Act P} {k : TaskId} {φ : Phase P} (hφ : Fits w' k φ) (hst : Step w a w')
    (ha : a ≠ .run k true) (h : Noted w k) : Noted w' k := by
  obtain ⟨c, hc, h⟩ := h
  obtain ⟨c', hc', hcs⟩ := cell_inv hst hc
  have hl := hcs.later
  rcases h with hs | hd
  · refine ⟨c', hc', ?_⟩
    have op : ∀ o, (A.bits (A.op c.st o).1).scheduled = true := by
      intro o
      cases ho : (A.op c.st o).2 with
      | true => exact (A.op_over ho).2.1
      | false => exact (A.op_keeps ho).2.2.2.1 hs
    cases hcs with
    | keep => exact Or.inl hs
    | begin polls =>
      cases polls with
      | true => exact absurd rfl ha
      | false => exact Or.inl (by rw [(A.begin_unpolled (run_inv hst hc).1).1]; exact hs)
    | pending again hopen =>
      have hb : A.bits (A.pending c.st).1 = (A.bits c.st).pending.1 := congrArg Prod.fst (A.pending_bits c.st hopen)
      exact Or.inl (by rw [hb]; exact hs)
    | dropped why =>
      obtain rfl := (hφ.finished_iff hc').mpr rfl
      exact Or.inr (hφ.ok _ hc').1.2.2
    | op t o handed h hh => exact Or.inl (op o)
    | cleanup r handed hsl => exact Or.inl (op .drop)
  · exact ⟨c', hc', Or.inr (hl.done hd)⟩

/-! ## A poll for a wake, and a wake for a poll -/

theorem owed_woken {tr : List (Act P)} {w : St A P} {k : TaskId} (h : (machine A P).Run tr w) :
    Owed w k → Woken k tr := by
  refine Lib.Machine.run_induction (J := fun tr w => Owed w k → Woken k tr) ?_ ?_ h
  · intro w hw ho
    obtain ⟨c, hc, -⟩ := ho
    rw [(fits_start hw k).unborn.mp rfl] at hc
    cases hc
  · intro tr w a w' hr ih hst ho
    obtain ⟨φ, hφ⟩ := fits_run hr k
    rcases owed_step hφ (step_inv hst) ho with ha | ⟨ho, ha⟩
    · exact woken_wake tr ha
    · exact (ih ho).snoc ha

theorem noted_steps {pre post : List (Act P)} {m w : St A P} {k : TaskId} (hr : (machine A P).Run pre m)
    (h : Noted m k) (hs : (machine A P).Steps m post w) : .run k true ∉ post → Noted w k := by
  refine Lib.Machine.steps_induction (J := fun post w => .run k true ∉ post → Noted w k) (fun _ => h) ?_ hs
  intro post v a v' hv ih hst hp
  rw [List.mem_append, not_or] at hp
  obtain ⟨φ, hφ⟩ := fits_run ((hr.append hv).snoc hst) k
  exact noted_step hφ (step_inv hst) (fun ha => hp.2 (by simp [ha])) (ih hp.1)

/-- Each poll comes after a wake that no poll has come after; and where nginx sleeps,
    each wake of a future that is still there has been followed by a poll. -/
theorem polled_as_woken {tr : List (Act P)} {w : St A P} (h : (machine A P).Run tr w) (k : TaskId) :
    (∀ pre post, tr = pre ++ .run k true :: post → Woken k pre) ∧
      (Sleeps w → ∀ c, w.cells k = some c → c.live = true → ¬ Woken k tr) := by
  constructor
  · rintro pre post rfl
    obtain ⟨m, hpre, hs⟩ := h.split
    obtain ⟨m', hm, -⟩ := Lib.Machine.steps_cons.mp hs
    obtain ⟨φ, hφ⟩ := fits_run hpre k
    exact owed_woken hpre (run_owed hφ (step_inv hm)).1
  · rintro hsl c hc hl ⟨pre, a, post, rfl, ha, hp⟩
    obtain ⟨m, hpre, hs⟩ := h.split
    obtain ⟨m', hm, hpost⟩ := Lib.Machine.steps_cons.mp hs
    obtain ⟨d, hd, hn⟩ := noted_steps (hpre.snoc hm) (noted_wake (step_inv hm) ha) hpost hp
    rw [hc] at hd
    cases hd
    rw [hsl.idle h hc hl] at hn
    rcases hn with hn | hn <;> cases hn

/-- Task 7 is polled once and sleeps; another thread wakes it. -/
def wokenAgain : List (Act Nat) :=
  firstPoll ++ [.pollPending 7 false false, .core (.ret 7 false), .core (.tryRecv none), .op (.other 0) 7 .wake true,
    .core (.send (.other 0) 7), .core (.cas (.other 0) true), .core (.write (.other 0)), .glueDone (.other 0),
    .core .enter, .core .drain, .core .clear, .core (.load 8), .core (.isEmpty false), .core (.tryRecv (some 7))]

/-- It is polled once more, and sleeps again. -/
def polledAgain : List (Act Nat) := [.pollPending 7 false false, .core (.ret 7 false), .core (.tryRecv none)]

theorem polled_as_woken_again :
    ∃ w, (machine .plain Nat).exec fresh (wokenAgain ++ .run 7 true :: polledAgain) = some w ∧ Sleeps w ∧
      Woken 7 wokenAgain ∧ ¬ Woken 7 (wokenAgain ++ .run 7 true :: polledAgain) := by
  obtain ⟨w, hw, hs, c, hc, hl⟩ : ∃ w, (machine .plain Nat).exec fresh (wokenAgain ++ .run 7 true :: polledAgain) =
      some w ∧ Sleeps w ∧ ∃ c, w.cells 7 = some c ∧ c.live = true := by
    refine ⟨_, rfl, ⟨rfl, rfl, fun t => ?_, rfl⟩, _, rfl, rfl⟩
    cases t with
    | main => rfl
    | other p => cases p <;> rfl
  obtain ⟨h1, h2⟩ := polled_as_woken ⟨fresh, fresh_init, Lib.Machine.steps_of_exec hw⟩ 7
  exact ⟨w, hw, hs, h1 _ _ rfl, h2 hs c hc hl⟩

/-! ## What ends a task -/

/-- A refused task is done. -/
theorem refused_done {tr : List (Act P)} {w : St A P} {k : TaskId} {c : Cell A} (h : (machine A P).Run tr w)
    (hc : w.cells k = some c) (hok : c.ok = false) : (A.bits c.st).done = true := by
  refine Lib.Machine.run_induction
    (J := fun _ w => ∀ c, w.cells k = some c → c.ok = false → (A.bits c.st).done = true) ?_ ?_ h c hc hok
  · intro w hw c hc
    rw [(fits_start hw k).unborn.mp rfl] at hc
    cases hc
  · intro tr w a w' hr ih hst c' hc' hok
    cases hc : w.cells k with
    | none =>
      obtain ⟨φ, hφ⟩ := fits_run hr k
      obtain ⟨-, -, ho⟩ | ⟨-, hd⟩ := born_inv hφ (step_inv hst) hc hc'
      · rw [hok] at ho; cases ho
      · simp [Bits.done, hd]
    | some c =>
      obtain ⟨d, hd, hl, -⟩ := cell_step (step_inv hst) hc
      rw [hc'] at hd
      cases hd
      exact hl.done (ih c hc (hl.ok ▸ hok))

/-- A task that is ended is done, also where a cleanup finds its Task taken. -/
theorem ends_done {tr : List (Act P)} {w w' : St A P} {a : Act P} {k : TaskId} (hr : (machine A P).Run tr w)
    (hst : Step w a w') (ha : Act.ends k a = true) : ∃ c, w'.cells k = some c ∧ (A.bits c.st).done = true := by
  cases hst with
  | op t j o handed c h s hc _ _ _ ho _ =>
    obtain ⟨rfl, ho'⟩ := ends_op.mp ha
    rw [ho] at ho'
    exact ⟨_, Function.update_self _ _ _, (A.op_done_iff c.st o).mpr (Or.inr ho')⟩
  | cleanupTask r j handed p cs rest c s _ _ _ _ hc _ _ _ =>
    obtain rfl : j = k := by simpa [Act.ends] using ha
    exact ⟨_, Function.update_self _ _ _, A.close_done (Or.inr rfl)⟩
  | cleanupTaken r j p cs rest c _ _ hp hcs hc hsl =>
    obtain rfl : j = k := by simpa [Act.ends] using ha
    refine ⟨c, hc, ?_⟩
    obtain ⟨d, hd, hreq⟩ := registered_invariant.run hr r p j hp (by rw [hcs]; exact List.mem_cons_self)
    rw [hc] at hd
    cases hd
    cases hok : c.ok with
    | true => exact taken_done.run hr j c hc hok (by rw [hreq]; rfl) hsl
    | false => exact refused_done hr hc hok
  | requestRefused r j p s _ _ _ _ _ =>
    obtain rfl : j = k := by simpa [Act.ends] using ha
    exact ⟨_, Function.update_self _ _ _, A.close_done (Or.inr rfl)⟩
  | _ => cases ha

/-- A done task was ended, or its future returned Ready. -/
theorem done_ended {tr : List (Act P)} {w : St A P} (h : (machine A P).Run tr w) (k : TaskId) :
    ∃ φ, Fits w k φ ∧ (φ = .dropping .ready → .pollReady k ∈ tr) ∧
      ∀ c, w.cells k = some c → (A.bits c.st).done = true → Ended k tr := by
  refine Lib.Machine.run_induction (J := fun tr w => ∃ φ, Fits w k φ ∧ (φ = .dropping .ready → .pollReady k ∈ tr) ∧
    ∀ c, w.cells k = some c → (A.bits c.st).done = true → Ended k tr) ?_ ?_ h
  · intro w hw
    refine ⟨_, fits_start hw k, nofun, fun c hc => ?_⟩
    rw [(fits_start hw k).unborn.mp rfl] at hc
    cases hc
  · intro tr w a w' _ ih hst₀
    have hst := step_inv hst₀
    obtain ⟨φ, hφ, hready, hdone⟩ := ih
    obtain ⟨φ', hφ', hm⟩ := fits_step hφ hst
    refine ⟨φ', hφ', fun hr => ?_, fun c' hc' hd' => ?_⟩
    · subst hr
      rcases hm with hm | ⟨-, rfl⟩
      · cases hm
        simp
      · exact List.mem_append_left _ (hready rfl)
    · rw [ended_snoc]
      cases hc : w.cells k with
      | none =>
        obtain ⟨-, hb, -⟩ | ⟨ha, -⟩ := born_inv hφ hst hc hc'
        · rw [hb] at hd'; cases hd'
        · exact Or.inr (Or.inr ha)
      | some c =>
        obtain ⟨d, hd, hcs⟩ := cell_inv hst hc
        rw [hc'] at hd
        cases hd
        cases hcs with
        | keep => exact Or.inl (hdone _ hc hd')
        | begin polls =>
          obtain ⟨h1, h2⟩ := A.begin_keeps c.st
          exact Or.inl (hdone c hc (by rw [Bits.done, ← h1, ← h2]; exact hd'))
        | pending again hopen =>
          obtain ⟨h1, h2⟩ := A.pending_keeps hopen
          exact Or.inl (hdone c hc (by rw [Bits.done, ← h1, ← h2]; exact hd'))
        | dropped why =>
          cases hst with
          | dropDone _ _ _ rest _ hf _ =>
            obtain ⟨rfl, -⟩ := hφ.dropping hf
            have hok := (hφ.ok c hc).1
            cases why with
            | ready => exact Or.inl (Or.inl (hready rfl))
            | pending => exact Or.inl (hdone c hc (by simp [Bits.done, hok.2.2]))
            | closed => exact Or.inl (hdone c hc (by simp [Bits.done, hok.2.2.2]))
            | runnable => exact Or.inl (hdone c hc (by simp [Bits.done, hok.2.2.2]))
        | op t o handed h hh =>
          rcases (A.op_done_iff c.st o).mp hd' with hd | ho
          · exact Or.inl (hdone c hc hd)
          · cases hst with
            | op _ _ _ _ d _ s hd₀ _ _ _ hh _ =>
              rw [hc] at hd₀
              cases hd₀
              exact Or.inr (Or.inr (ends_op.mpr ⟨rfl, by rw [hh]; exact ho⟩))
        | cleanup r handed hsl => exact Or.inr (Or.inr (by simp [Act.ends]))

/-- A task that was ended, or whose future returned Ready, is done, or its future is being dropped. -/
theorem ended_done {tr : List (Act P)} {w : St A P} (h : (machine A P).Run tr w) (k : TaskId) :
    Ended k tr → Fits w k (.dropping .ready) ∨ ∃ c, w.cells k = some c ∧ (A.bits c.st).done = true := by
  refine Lib.Machine.run_induction
    (J := fun tr w => Ended k tr → Fits w k (.dropping .ready) ∨ ∃ c, w.cells k = some c ∧ (A.bits c.st).done = true)
    ?_ ?_ h
  · rintro w hw (he | ⟨a, ha, -⟩)
    · cases he
    · cases ha
  · intro tr w a w' hr ih hst₀ he
    have hst := step_inv hst₀
    rcases ended_snoc.mp he with he | rfl | ha
    · rcases ih he with hφ | ⟨c, hc, hd⟩
      · obtain ⟨φ', hφ', hm | ⟨-, rfl⟩⟩ := fits_step hφ hst
        · cases hm
          obtain ⟨c, hc⟩ := Option.ne_none_iff_exists'.mp fun hn => nomatch hφ'.unborn.mpr hn
          exact Or.inr ⟨c, hc, (hφ'.ok c hc).1.2.2⟩
        · exact Or.inl hφ'
      · obtain ⟨c', hc', hl, -⟩ := cell_step hst hc
        exact Or.inr ⟨c', hc', hl.done hd⟩
    · obtain ⟨φ, hφ⟩ := fits_run hr k
      obtain ⟨φ', hφ', hm | ⟨hm, -⟩⟩ := fits_step hφ hst
      · cases hm
        exact Or.inl hφ'
      · simp [Act.moves] at hm
    · exact Or.inr (ends_done hr hst ha)

/-- A future is dropped only if it returned Ready or its task was ended; and where nginx
    sleeps it has been dropped then. -/
theorem lives_until_ended {tr : List (Act P)} {w : St A P} {k : TaskId} {c : Cell A} (h : (machine A P).Run tr w)
    (hc : w.cells k = some c) : (c.live = false → Ended k tr) ∧ (Sleeps w → Ended k tr → c.live = false) := by
  constructor
  · intro hl
    obtain ⟨φ, hφ, -, hdone⟩ := done_ended h k
    obtain rfl := (hφ.finished_iff hc).mpr hl
    exact hdone c hc (hφ.ok c hc).1.2.2
  · intro hs he
    rcases ended_done h k he with hφ | ⟨d, hd, hdn⟩
    · cases hφ.frames_nil hs.returned
    · rw [hc] at hd
      cases hd
      cases hl : c.live with
      | false => rfl
      | true =>
        rw [hs.idle h hc hl] at hdn
        cases hdn

/-- Task 7 is spawned and its handle dropped, before the event loop goes on. -/
def aborted : List (Act Nat) :=
  [.spawn .main 7, .core (.send .main 7), .core (.cas .main true), .core (.write .main), .op .main 7 .drop false,
   .glueDone .main, .core .enter, .core .drain, .core .clear, .core (.load 8), .core (.isEmpty false),
   .core (.tryRecv (some 7)), .run 7 false, .dropDone 7 .closed, .glueDone .main, .core (.ret 7 false),
   .core (.tryRecv none)]

theorem lives_until_ended_aborted :
    ∃ w c, (machine .plain Nat).exec fresh aborted = some w ∧ w.cells 7 = some c ∧ c.live = false := by
  obtain ⟨w, hw, hs, c, hc⟩ : ∃ w, (machine .plain Nat).exec fresh aborted = some w ∧ Sleeps w ∧
      ∃ c, w.cells 7 = some c := by
    refine ⟨_, rfl, ⟨rfl, rfl, fun t => ?_, rfl⟩, _, rfl⟩
    cases t <;> rfl
  have he : Ended 7 aborted := Or.inr ⟨.op .main 7 .drop false, by decide, rfl⟩
  exact ⟨w, c, hw, hc, (lives_until_ended ⟨fresh, fresh_init, Lib.Machine.steps_of_exec hw⟩ hc).2 hs he⟩

/-- Task 7 is detached, and keeps one Waker of itself; another thread drops that while the
    task sleeps. -/
def abandoned : List (Act Nat) :=
  [.spawn .main 7, .core (.send .main 7), .core (.cas .main true), .core (.write .main), .op .main 7 .detach false,
   .glueDone .main, .core .enter, .core .drain, .core .clear, .core (.load 8), .core (.isEmpty false),
   .core (.tryRecv (some 7)), .run 7 true, .op .main 7 .clone false, .glueDone .main, .pollPending 7 false false,
   .core (.ret 7 false), .core (.tryRecv none), .op (.other 0) 7 .dropWaker true, .core (.send (.other 0) 7),
   .core (.cas (.other 0) true), .core (.write (.other 0)), .glueDone (.other 0), .core .enter, .core .drain,
   .core .clear, .core (.load 8), .core (.isEmpty false), .core (.tryRecv (some 7)), .run 7 false,
   .dropDone 7 .closed, .glueDone .main, .core (.ret 7 false), .core (.tryRecv none)]

/-- Nothing refers to it any more, and its future is dropped. -/
example : ∃ w c, (machine .counted Nat).exec (St.start (Sched.start [] false 8 (Notify.Fd.new 1 Nat.one_pos)))
    abandoned = some w ∧ w.cells 7 = some c ∧ c.live = false :=
  ⟨_, _, rfl, rfl, rfl⟩

end NgxTickle.Worker
