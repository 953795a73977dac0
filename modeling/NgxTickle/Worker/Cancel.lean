/-
  NgxTickle.Worker.Cancel — cancellation is final. A request's task is closed by the
  first poll of `RequestTask::cancel`, or by the pool cleanup that drops its
  `RequestTask`; from then on it is done (`closes_inv`): it is not polled again, its
  Runnable enters the channel at most once more, and its future is dropped once, at
  the latest when that Runnable has been run (`cancel_final`).

  What carries it: a done task only leaves its phase towards `finished`
  (`done_moves`), and of all acts only the drop that leads there is a drop
  (`drops_run`). The `Option` of the `RequestTask` is empty only if the task is done
  (`taken_done`), so a cleanup that finds it empty comes after a cancel.
-/

import NgxTickle.Worker.Phase

namespace NgxTickle.Worker

open NgxTickle.Task
open NgxTickle.Sched (Thread Pc Handler Place Placed)

variable {A : AsyncTask} {P : Type}

/-- The act polls a cancel of the task, or cleans up its slot. -/
def Act.closes (k : TaskId) : Act P → Bool
  | .op _ j .cancel _ | .cleanup _ (.task j) _ => j == k
  | _ => false

def Act.sends (k : TaskId) : Act P → Bool
  | .core (.send _ j) => j == k
  | _ => false

def Act.drops (k : TaskId) : Act P → Bool
  | .dropDone j _ => j == k
  | _ => false

/-- How often the Runnable of `k` entered the channel. -/
def sendsOf (k : TaskId) (tr : List (Act P)) : Nat := tr.countP (Act.sends k)

/-- How often the future of `k` was dropped. -/
def dropsOf (k : TaskId) (tr : List (Act P)) : Nat := tr.countP (Act.drops k)

theorem sendsOf_snoc (k : TaskId) (tr : List (Act P)) (a : Act P) :
    sendsOf k (tr ++ [a]) = sendsOf k tr + if Act.sends k a then 1 else 0 := by
  simp [sendsOf, List.countP_cons]

theorem dropsOf_snoc (k : TaskId) (tr : List (Act P)) (a : Act P) :
    dropsOf k (tr ++ [a]) = dropsOf k tr + if Act.drops k a then 1 else 0 := by
  simp [dropsOf, List.countP_cons]

/-- An act that does not move the task neither sends nor drops it. -/
theorem unmoved {k : TaskId} {a : Act P} (h : Act.moves k a = false) :
    Act.sends k a = false ∧ Act.drops k a = false := by
  refine ⟨?_, ?_⟩
  · unfold Act.sends
    split
    · exact h
    · rfl
  · unfold Act.drops
    split
    · exact h
    · rfl

/-- Its Runnable is neither with a thread, nor queued, nor taken, and no frame runs its future. -/
structure Nowhere (w : St A P) (k : TaskId) : Prop where
  hand : ∀ t, w.core.pc t ≠ .entered k
  queued : k ∉ w.core.chan
  taken : k ∉ w.core.handler.taken
  stack : ∀ f ∈ w.cont .main, f.code ≠ some k

variable [DecidableEq P]

/-! ## Drops -/

omit [DecidableEq P] in
theorem drops_moves {k : TaskId} {a : Act P} {φ φ' : Phase P} (h : Moves k a φ φ') :
    φ ≠ .finished ∧ (Act.drops k a = true ↔ φ' = .finished) := by
  cases h <;> simp [Act.drops]

/-- A future is dropped once, where its task gets finished. -/
theorem drops_run {tr : List (Act P)} {w : St A P} (h : (machine A P).Run tr w) (k : TaskId) :
    ∃ φ, Fits w k φ ∧ dropsOf k tr = if φ = .finished then 1 else 0 := by
  refine Lib.Machine.run_induction
    (J := fun tr w => ∃ φ, Fits w k φ ∧ dropsOf k tr = if φ = .finished then 1 else 0) ?_ ?_ h
  · intro w hw
    exact ⟨_, fits_start hw k, by simp [dropsOf]⟩
  · intro tr w a w' _ hi hst
    obtain ⟨φ, hφ, hd⟩ := hi
    obtain ⟨φ', h', hm | ⟨hm, rfl⟩⟩ := fits_step hφ (step_inv hst)
    · refine ⟨φ', h', ?_⟩
      obtain ⟨h1, h2⟩ := drops_moves hm
      rw [dropsOf_snoc, hd, if_neg h1]
      by_cases hf : φ' = .finished
      · simp [hf, h2.mpr hf]
      · have : Act.drops k a ≠ true := fun h => hf (h2.mp h)
        simp [hf, this]
    · exact ⟨φ', h', by simp [dropsOf_snoc, hd, (unmoved hm).2]⟩

theorem Fits.finished_iff {w : St A P} {k : TaskId} {φ : Phase P} {c : Cell A} (h : Fits w k φ)
    (hc : w.cells k = some c) : φ = .finished ↔ c.live = false := by
  rw [(h.ok c hc).2]
  cases φ <;> simp [Phase.live]

/-- With its Runnable nowhere and no frame of it on the stack, a done task is finished. -/
theorem Fits.finished_of_nowhere {w : St A P} {k : TaskId} {φ : Phase P} {c : Cell A} (h : Fits w k φ)
    (hc : w.cells k = some c) (hd : (A.bits c.st).done = true) (hn : Nowhere w k) : φ = .finished := by
  have hok := (h.ok c hc).1
  have hf : framesOf k (w.cont .main) = [] := by
    rw [framesOf, List.filter_eq_nil_iff]
    intro f hf
    simpa using hn.stack f hf
  have hfr := h.frames.symm.trans hf
  cases φ with
  | unborn => cases hok
  | hand t => exact absurd ((h.place.hand t).mpr rfl) (hn.hand t)
  | queued => exact absurd (h.place.queued.symm.trans (List.count_eq_zero.mpr hn.queued)) (by simp [Phase.place])
  | taken => exact absurd (h.place.taken.symm.trans (List.count_eq_zero.mpr hn.taken)) (by simp [Phase.place])
  | polling => cases hfr
  | dropping why => cases hfr
  | idle =>
    rw [show A.bits c.st = _ from hok] at hd
    cases hd
  | finished => rfl

/-! ## A done task -/

/-- A done task is not polled, and never handed to `schedule` again. -/
theorem done_moves {w w' : St A P} {a : Act P} {k : TaskId} {φ φ' : Phase P} {c : Cell A} (h : Fits w k φ)
    (hc : w.cells k = some c) (hd : (A.bits c.st).done = true) (hst : Step w a w') (hm : Moves k a φ φ') :
    a ≠ .run k true ∧ ∀ t, φ' ≠ .hand t := by
  have hok := (h.ok c hc).1
  cases hm with
  | spawn t => cases hok
  | requestSpawn r => cases hok
  | refused r => cases hok
  | runPoll =>
    exfalso
    cases hst with
    | runPoll _ d _ h₀ hp _ =>
      rw [hc] at h₀
      cases h₀
      rw [A.begin_polls] at hp
      simp [Bits.done, hok.2.2] at hd
      simp [hd] at hp
  | again =>
    exfalso
    cases hst with
    | pending _ _ d _ _ h₀ _ _ hcl _ _ =>
      rw [hc] at h₀
      cases h₀
      simp [Bits.done, hok.2, hcl] at hd
  | op t o => rw [show A.bits c.st = _ from hok] at hd; cases hd
  | cleanup r => rw [show A.bits c.st = _ from hok] at hd; cases hd
  | _ => exact ⟨by simp, fun t => by simp⟩

/-- An act that closes a task makes it done, or finds its slot empty. -/
theorem closes_inv {w w' : St A P} {a : Act P} {k : TaskId} (hst : Step w a w') (ha : Act.closes k a = true) :
    ∃ c c', w.cells k = some c ∧ w'.cells k = some c' ∧ ((A.bits c'.st).done = true ∨ c.handle ≠ .slot ∧ c' = c) := by
  cases hst with
  | op t j o handed c h s hc _ _ _ _ _ =>
    cases o with
    | cancel =>
      obtain rfl : j = k := by simpa [Act.closes] using ha
      exact ⟨c, _, hc, Function.update_self _ _ _, Or.inl (A.close_done (Or.inl rfl))⟩
    | _ => cases ha
  | cleanupTask r j handed p cs rest c s _ _ _ _ hc _ _ _ =>
    obtain rfl : j = k := by simpa [Act.closes] using ha
    exact ⟨c, _, hc, Function.update_self _ _ _, Or.inl (A.close_done (Or.inr rfl))⟩
  | cleanupTaken r j p cs rest c _ _ _ _ hc hsl =>
    obtain rfl : j = k := by simpa [Act.closes] using ha
    exact ⟨c, c, hc, hc, Or.inr ⟨hsl, rfl⟩⟩
  | _ => cases ha

/-- A request's task whose slot is empty, or cleaned up, is done. -/
def TakenDone (w : St A P) : Prop :=
  ∀ k c, w.cells k = some c → c.ok = true → c.req.isSome = true → c.handle ≠ .slot → (A.bits c.st).done = true

/-- The slot is emptied by a cancel or by the cleanup, and by nothing else. -/
theorem slot_step {w w' : St A P} {a : Act P} {k : TaskId} {c c' : Cell A} (hst : Step w a w')
    (hc : w.cells k = some c) (hc' : w'.cells k = some c') (hs : c.handle = .slot) (hs' : c'.handle ≠ .slot) :
    Act.closes k a = true := by
  obtain ⟨d, hd, hcs⟩ := cell_inv hst hc
  rw [hc'] at hd
  cases hd
  cases hcs with
  | op t o handed h hh =>
    rw [hs] at hh
    cases o with
    | cancel => simp [Act.closes]
    | wake => cases hh; exact absurd rfl hs'
    | clone => cases hh; exact absurd rfl hs'
    | dropWaker => cases hh; exact absurd rfl hs'
    | poll => cases hh; exact absurd rfl hs'
    | drop => cases hh
    | detach => cases hh
  | cleanup r handed _ => simp [Act.closes]
  | _ => exact absurd hs hs'

theorem takenDone_step {w w' : St A P} {a : Act P} (h : TakenDone w) (hst : Step w a w') : TakenDone w' := by
  intro k c' hc' ho hr hs
  cases hc : w.cells k with
  | some c =>
    obtain ⟨d, hd, hl, -⟩ := cell_step hst hc
    rw [hc'] at hd
    cases hd
    have ho : c.ok = true := hl.ok ▸ ho
    have hr : c.req.isSome = true := hl.req ▸ hr
    by_cases hsl : c.handle = .slot
    · obtain ⟨e, e', he, he', hcl⟩ := closes_inv hst (slot_step hst hc hc' hsl hs)
      rw [hc] at he
      rw [hc'] at he'
      cases he
      cases he'
      rcases hcl with hd | ⟨hne, -⟩
      · exact hd
      · exact absurd hsl hne
    · exact hl.done (h k c hc ho hr hsl)
  | none =>
    obtain ⟨-, ⟨-, h⟩ | ⟨-, h⟩ | h⟩ := cell_born hst hc hc'
    · rw [h] at hr; cases hr
    · exact absurd h hs
    · rw [h] at ho; cases ho

theorem taken_done : (machine A P).Invariant TakenDone := by
  constructor
  · intro w hw k c hc
    obtain ⟨s, -, rfl⟩ := hw
    cases hc
  · intro w a w' h hst
    exact takenDone_step h (step_inv hst)

/-! ## After the close -/

/-- What is left of a done task: no poll, and the one send of a Runnable in hand. -/
structure Closed (w : St A P) (k : TaskId) (post : List (Act P)) : Prop where
  done : ∃ c, w.cells k = some c ∧ (A.bits c.st).done = true
  polls : .run k true ∉ post
  sends : ∃ φ, Fits w k φ ∧ (sendsOf k post = 0 ∨ sendsOf k post = 1 ∧ ∀ t, φ ≠ .hand t)

theorem closed_step {w w' : St A P} {k : TaskId} {post : List (Act P)} {a : Act P} (h : Closed w k post)
    (hst : Step w a w') : Closed w' k (post ++ [a]) := by
  obtain ⟨c, hc, hd⟩ := h.done
  obtain ⟨φ, hφ, hs⟩ := h.sends
  obtain ⟨c', hc', hl, -⟩ := cell_step hst hc
  obtain ⟨φ', h', hm⟩ := fits_step hφ hst
  have hrun : a ≠ .run k true := by
    rcases hm with hm | ⟨hm, -⟩
    · exact (done_moves hφ hc hd hst hm).1
    · intro ha
      subst ha
      simp [Act.moves] at hm
  refine ⟨⟨c', hc', hl.done hd⟩, ?_, φ', h', ?_⟩
  · rw [List.mem_append, not_or]
    exact ⟨h.polls, by simpa using Ne.symm hrun⟩
  · rw [sendsOf_snoc]
    rcases hm with hm | ⟨hm, rfl⟩
    · have hh := (done_moves hφ hc hd hst hm).2
      by_cases hsend : Act.sends k a = true
      · -- the Runnable in hand is sent
        have hfrom : ∃ t, φ = .hand t := by
          cases hm <;> first | exact ⟨_, rfl⟩ | cases hsend
        obtain ⟨t, rfl⟩ := hfrom
        rcases hs with hs | ⟨-, hs⟩
        · exact Or.inr ⟨by simp [hs, hsend], hh⟩
        · exact absurd rfl (hs t)
      · rcases hs with hs | ⟨hs, -⟩
        · exact Or.inl (by simp [hs, hsend])
        · exact Or.inr ⟨by simp [hs, hsend], hh⟩
    · rw [(unmoved hm).1]
      simpa using hs

/-- Cancellation is final. Once a cancel of a request's task has been polled, or its
    slot cleaned up, its future is not polled again, its Runnable enters the channel at
    most once more, and its future is dropped at most once over the whole run, and
    exactly once where its Runnable is nowhere left. -/
theorem cancel_final {pre post : List (Act P)} {a : Act P} {w : St A P} {k : TaskId} {c : Cell A}
    (h : (machine A P).Run (pre ++ a :: post) w) (hc : w.cells k = some c) (hok : c.ok = true)
    (hreq : c.req.isSome = true) (ha : Act.closes k a = true) :
    .run k true ∉ post ∧ sendsOf k post ≤ 1 ∧ dropsOf k (pre ++ a :: post) ≤ 1 ∧
      (dropsOf k (pre ++ a :: post) = 1 ↔ c.live = false) ∧
      (Nowhere w k → dropsOf k (pre ++ a :: post) = 1) := by
  obtain ⟨m, hpre, hsteps⟩ := h.split
  obtain ⟨m', hm, hpost⟩ := Lib.Machine.steps_cons.mp hsteps
  have hst : Step m a m' := step_inv hm
  have hclosed : Closed m' k [] := by
    obtain ⟨d, d', hd, hd', hcl⟩ := closes_inv hst ha
    obtain ⟨e, he, hl⟩ := cell_steps hsteps hd
    rw [hc] at he
    cases he
    obtain ⟨φ, hφ⟩ := fits_run (hpre.snoc hm) k
    have hdone : (A.bits d'.st).done = true := by
      rcases hcl with h | ⟨hne, rfl⟩
      · exact h
      · exact taken_done.run hpre k d' hd (hl.ok.symm.trans hok) (hl.req ▸ hreq) hne
    exact ⟨⟨d', hd', hdone⟩, by simp, φ, hφ, Or.inl rfl⟩
  have hw : Closed w k post :=
    Lib.Machine.steps_induction (J := fun post w => Closed w k post) hclosed
      (fun _ _ _ _ _ hC hst => closed_step hC (step_inv hst)) hpost
  obtain ⟨φ, hφ, hd⟩ := drops_run h k
  obtain ⟨ψ, -, hs⟩ := hw.sends
  have hdone : (A.bits c.st).done = true := by
    obtain ⟨d, hd, hdn⟩ := hw.done
    rw [hc] at hd
    cases hd
    exact hdn
  refine ⟨hw.polls, ?_, ?_, ?_, fun hn => ?_⟩
  · rcases hs with hs | ⟨hs, -⟩ <;> omega
  · rw [hd]; split <;> omega
  · rw [hd, ← hφ.finished_iff hc]
    by_cases hf : φ = .finished
    · simp [hf]
    · simp [hf]
  · rw [hd, if_pos (hφ.finished_of_nowhere hc hdone hn)]

/-- Task 7 of request 1 is polled once and goes to sleep. -/
def asleep : List (Act Nat) :=
  [.newRequest 1 0, .requestSpawn 1 7 true, .core (.send .main 7), .core (.cas .main true), .core (.write .main),
   .core .enter, .core .drain, .core .clear, .core (.load 8), .core (.isEmpty false), .core (.tryRecv (some 7)),
   .run 7 true, .pollPending 7 false false, .core (.ret 7 false), .core (.tryRecv none)]

/-- Its Runnable goes through the channel once more, and its future is dropped. -/
def lastRun : List (Act Nat) :=
  [.core (.send .main 7), .core (.cas .main true), .core (.write .main), .glueDone .main, .core .enter, .core .drain,
   .core .clear, .core (.load 8), .core (.isEmpty false), .core (.tryRecv (some 7)), .run 7 false,
   .dropDone 7 .closed, .glueDone .main]

/-- After the cancel the task is not polled again, and it ends with its future dropped once. -/
theorem cancel_final_asleep :
    ∃ w c, (machine .plain Nat).Run (asleep ++ .op .main 7 .cancel true :: lastRun) w ∧ w.cells 7 = some c ∧
      c.ok = true ∧ c.req = some 1 ∧ c.live = false ∧ .run 7 true ∉ lastRun ∧
      dropsOf 7 (asleep ++ .op .main 7 .cancel true :: lastRun) = 1 := by
  obtain ⟨w, hw, c, hc, ho, hr, hn⟩ : ∃ w, (machine .plain Nat).exec fresh
      (asleep ++ .op .main 7 .cancel true :: lastRun) = some w ∧ ∃ c, w.cells 7 = some c ∧ c.ok = true ∧
        c.req = some 1 ∧ Nowhere w 7 := by
    refine ⟨_, rfl, _, rfl, rfl, rfl, fun t => ?_, nofun, nofun, nofun⟩
    cases t <;> exact nofun
  have hrun : (machine .plain Nat).Run (asleep ++ .op .main 7 .cancel true :: lastRun) w :=
    ⟨fresh, fresh_init, Lib.Machine.steps_of_exec hw⟩
  obtain ⟨h1, -, -, h4, h5⟩ := cancel_final (a := .op .main 7 .cancel true) hrun hc ho (by rw [hr]; rfl) rfl
  exact ⟨w, c, hrun, hc, ho, hr, h4.mp (h5 hn), h1, h5 hn⟩

end NgxTickle.Worker
