/-
  NgxTickle.Worker.Result — what a request-bound task's handle gives back: the result
  law of `RequestTask::cancel`, with `is_finished` and the awaits (`cancel_result`).

  What carries it: the output is there from the future's return on, and the task
  completed once its future is dropped (`Stored`); while the Task is in the slot, only
  an await that was given the output has closed it (`Tracked`), so what a cancel will
  resolve to is settled at its first poll and nothing changes it afterwards (`Settled`,
  `settled_step`); a later cancel finds the slot empty (`Missed`).
-/

import NgxTickle.Worker.Handle
import NgxTickle.Worker.Teardown

namespace NgxTickle.Worker

open NgxTickle.Task
open NgxTickle.Sched (Thread Pc Handler)

variable {A : AsyncTask} {P V : Type} [DecidableEq P] [DecidableEq V]

/-! ## The output -/

/-- The future returned `v`, and its drop completed the task. -/
def Completed (k : TaskId) (v : V) (tr : List (TaskAct P V)) : Prop :=
  .ready v ∈ tr ∧ .worker (.dropDone k .ready) ∈ tr

/-- An await was given the output. -/
def Delivered (tr : List (TaskAct P V)) : Prop := ∃ v, .poll (.ready v) ∈ tr

/-- A cancel was polled. -/
def Polled (tr : List (TaskAct P V)) : Prop := ∃ i handed, .take i handed ∈ tr

/-- The output is there from the future's return on, and stored once the task is completed. -/
structure Stored (k : TaskId) (tr : List (TaskAct P V)) (s : TaskSt A P V) (φ : Phase P) (c : Cell A) : Prop where
  fits : Fits s.worker k φ
  cell : s.worker.cells k = some c
  value : ∀ v, s.out = some v ↔ .ready v ∈ tr
  there : s.out.isSome = true ↔ φ = .dropping .ready ∨ (A.bits c.st).completed = true
  completed : (A.bits c.st).completed = true ↔ .worker (.dropDone k .ready) ∈ tr

theorem Fits.finished_of_completed {w : St A P} {k : TaskId} {φ : Phase P} {c : Cell A} (h : Fits w k φ)
    (hc : w.cells k = some c) (hcm : (A.bits c.st).completed = true) : φ = .finished := by
  obtain ⟨hok, -⟩ := h.ok c hc
  cases φ with
  | unborn => cases hok
  | dropping why => cases why <;> simp_all [Phase.Ok]
  | idle => rw [show A.bits c.st = _ from hok] at hcm; cases hcm
  | finished => rfl
  | _ => simp_all [Phase.Ok]

/-- Only the return of the future brings the output about. -/
theorem there_step {w w' : St A P} {a : Act P} {k : TaskId} {φ : Phase P} {c c' : Cell A} (h : Fits w k φ)
    (hst : Step w a w') (ha : a ≠ .pollReady k) (hs : CellStep k c a c') :
    ∃ φ', Fits w' k φ' ∧ (φ' = .dropping .ready ∨ (A.bits c'.st).completed = true ↔
      φ = .dropping .ready ∨ (A.bits c.st).completed = true) := by
  obtain ⟨φ', h', hm⟩ := fits_step h hst
  refine ⟨φ', h', ?_⟩
  rw [hs.completed]
  rcases hm with hm | ⟨hm, rfl⟩
  · have h1 : φ' ≠ .dropping .ready := by
      rintro rfl
      cases hm
      exact ha rfl
    have h2 : a = .dropDone k .ready ↔ φ = .dropping .ready := by
      cases hm <;> simp
    simp [h1, h2, or_comm]
  · have h1 : a ≠ .dropDone k .ready := by
      rintro rfl
      simp [Act.moves] at hm
    simp [h1]

theorem stored_step {k : TaskId} {tr : List (TaskAct P V)} {s s' : TaskSt A P V} {e : TaskAct P V} {φ : Phase P}
    {c : Cell A} (h : Stored k tr s φ c) (hst : TaskStep k s e s') : ∃ φ' c', Stored k (tr ++ [e]) s' φ' c' := by
  have hin : ∀ {x : TaskAct P V}, x ∈ tr ++ [e] ↔ x ∈ tr ∨ e = x := by simp [eq_comm]
  rcases task_worker hst with ⟨v, rfl, hw, ho⟩ | ⟨ho, hne, ⟨hw, he⟩ | ⟨a, hw, ha, he⟩⟩
  · -- the future returns: until now there was no output
    obtain ⟨φ', h', hm | ⟨hm, -⟩⟩ := fits_step h.fits (step_inv hw)
    · cases hm with
      | ready =>
        have hc : (A.bits c.st).completed = false := ((h.fits.ok c h.cell).1).2
        have hnone : s.out = none := by
          have := h.there
          simpa [hc] using this
        refine ⟨_, c, h', by rw [ready_cells hw]; exact h.cell, fun u => ?_, by simp [ho], ?_⟩
        · have := h.value u
          rw [hnone] at this
          simp only [reduceCtorEq, false_iff] at this
          rw [ho, hin]
          simp [this]
        · rw [h.completed, hin]
          simp
    · simp [Act.moves] at hm
  · refine ⟨φ, c, by rw [hw]; exact h.fits, by rw [hw]; exact h.cell, fun v => ?_, by rw [ho]; exact h.there, ?_⟩
    · rw [ho, h.value, hin]; simp [hne]
    · rw [h.completed, hin]; simp [he]
  · obtain ⟨c', hc', hs⟩ := cell_inv (step_inv hw) h.cell
    obtain ⟨φ', h', hthere⟩ := there_step h.fits (step_inv hw) ha hs
    refine ⟨φ', c', h', hc', fun v => ?_, by rw [ho, h.there, hthere], ?_⟩
    · rw [ho, h.value, hin]; simp [hne]
    · rw [hs.completed, h.completed, hin, he]

theorem stored_run {k : TaskId} {tr : List (TaskAct P V)} {s : TaskSt A P V} (h : (requestTask A P V k).Run tr s) :
    ∃ φ c, Stored k tr s φ c := by
  refine Lib.Machine.run_induction (J := fun tr s => ∃ φ c, Stored k tr s φ c) ?_ ?_ h
  · intro s hs
    obtain ⟨ho, -, ⟨φ, hφ⟩, r, hc⟩ := task_init hs
    have hok := (hφ.ok _ hc).1
    rw [show A.bits (Cell.st _) = _ from A.spawn_bits] at hok
    have hne : φ ≠ .dropping .ready := by
      rintro rfl
      cases hok.1
    exact ⟨φ, _, hφ, hc, by simp [ho], by simp [ho, hne, A.spawn_bits, Bits.fresh], by simp [A.spawn_bits, Bits.fresh]⟩
  · intro tr s e s' _ ih hst
    obtain ⟨φ, c, hi⟩ := ih
    exact stored_step hi (taskStep_inv hst)

omit [DecidableEq V] in
theorem Stored.on {k : TaskId} {tr : List (TaskAct P V)} {s : TaskSt A P V} {φ : Phase P} {c d : Cell A}
    (h : Stored k tr s φ c) (hd : s.worker.cells k = some d) : Stored k tr s φ d := by
  have hcd : some c = some d := h.cell.symm.trans hd
  cases hcd
  exact h

omit [DecidableEq V] in
/-- A completed task has its output. -/
theorem Stored.output {k : TaskId} {tr : List (TaskAct P V)} {s : TaskSt A P V} {φ : Phase P} {c : Cell A}
    (h : Stored k tr s φ c) (hc : (A.bits c.st).completed = true) :
    ∃ v, s.out = some v ∧ Completed k v tr := by
  obtain ⟨v, hv⟩ := Option.isSome_iff_exists.mp (h.there.mpr (Or.inr hc))
  exact ⟨v, hv, (h.value v).mp hv, h.completed.mp hc⟩

/-! ## The slot -/

omit [DecidableEq P] [DecidableEq V] in
theorem delivered_append {tr tr' : List (TaskAct P V)} : Delivered (tr ++ tr') ↔ Delivered tr ∨ Delivered tr' := by
  simp [Delivered, exists_or]

omit [DecidableEq P] [DecidableEq V] in
theorem polled_append {tr tr' : List (TaskAct P V)} : Polled (tr ++ tr') ↔ Polled tr ∨ Polled tr' := by
  simp [Polled, exists_or]

/-- Until a cancel is polled the Task is in the slot, and only an await closes it. -/
structure Tracked (attached : A.State → Prop) (k : TaskId) (tr : List (TaskAct P V)) (s : TaskSt A P V) (c : Cell A) :
    Prop where
  cell : s.worker.cells k = some c
  attached : c.handle ≠ .gone → attached c.st
  unpolled : c.handle = .slot → ¬ Polled tr
  delivered : c.handle = .slot → ((A.bits c.st).closed = true ↔ Delivered tr)
  completed : c.handle = .slot → (A.bits c.st).closed = true → (A.bits c.st).completed = true
  emptied : c.handle ≠ .slot → s.gone = true ∨ Polled tr
  holder : ∀ i, s.holder = some i → c.handle = .own

omit [DecidableEq P] [DecidableEq V] in
/-- A step that leaves the task and the Task where they are. -/
theorem Tracked.same {attached : A.State → Prop} {k : TaskId} {tr : List (TaskAct P V)} {s s' : TaskSt A P V}
    {e : TaskAct P V} {c : Cell A} (h : Tracked attached k tr s c) (hc : s'.worker.cells k = s.worker.cells k)
    (hg : s'.gone = s.gone) (hh : s'.holder = s.holder) (hp : c.handle = .slot → ¬ Polled [e])
    (hd : ¬ Delivered [e]) : Tracked attached k (tr ++ [e]) s' c := by
  refine ⟨hc.trans h.cell, h.attached, fun hs => ?_, fun hs => ?_, h.completed, fun hs => ?_, fun i hi => ?_⟩
  · rw [polled_append]
    exact not_or.mpr ⟨h.unpolled hs, hp hs⟩
  · rw [h.delivered hs, delivered_append]
    simp [hd]
  · rw [hg, polled_append]
    exact (h.emptied hs).imp id Or.inl
  · exact h.holder i (hh ▸ hi)

omit [DecidableEq V] in
/-- An await is given the output of an open task once it is completed. -/
theorem Stored.delivers {k : TaskId} {tr : List (TaskAct P V)} {s : TaskSt A P V} {φ : Phase P} {c : Cell A}
    (h : Stored k tr s φ c) (hc : (A.bits c.st).closed = false) :
    Delivered [(.poll (awaited ((A.bits c.st).pollTask s.out)) : TaskAct P V)] ↔ (A.bits c.st).completed = true := by
  constructor
  · intro ⟨v, hv⟩
    cases hm : (A.bits c.st).completed with
    | true => rfl
    | false =>
      have hp : (A.bits c.st).pollTask s.out = .pending := by simp [Bits.pollTask, hc, hm]
      simp [hp, awaited] at hv
  · intro hm
    obtain ⟨v, hv, -⟩ := h.output hm
    exact ⟨v, by simp [Bits.pollTask_stored hc hm, hv, awaited]⟩

omit [DecidableEq P] [DecidableEq V] in
/-- An act of the others, or of the pool, which drops the RequestTask. -/
theorem Tracked.worker {attached : A.State → Prop} (hA : A.Handled attached) {k : TaskId} {tr : List (TaskAct P V)}
    {s : TaskSt A P V} {a : Act P} {w : St A P} {c c' : Cell A} (h : Tracked attached k tr s c)
    (ha : a.reserved k = false) (hc' : w.cells k = some c') (hs : CellStep k c a c') :
    Tracked attached k (tr ++ [.worker a]) { s with worker := w, gone := s.gone || a.cleans k } c' := by
  have hpolled : Polled (tr ++ [.worker a]) ↔ Polled tr := by simp [Polled]
  have hdelivered : Delivered (tr ++ [.worker a]) ↔ Delivered tr := by simp [Delivered]
  rcases hs.beside hA ha with ⟨hsl, hgone, hcl⟩ | ⟨hh, hat⟩
  · refine ⟨hc', ?_, ?_, ?_, ?_, fun _ => Or.inl (by simp [hcl]), fun i hi => ?_⟩
    · exact fun h => absurd hgone h
    · rw [hgone]; nofun
    · rw [hgone]; nofun
    · rw [hgone]; nofun
    · rw [h.holder i hi] at hsl; cases hsl
  · have hkeep : c.handle ≠ .gone → attached c'.st ∧ (A.bits c'.st).closed = (A.bits c.st).closed :=
      fun hg => hat (h.attached hg)
    refine ⟨hc', fun hg => (hkeep (hh ▸ hg)).1, fun hsl => ?_, fun hsl => ?_, fun hsl => ?_, fun hsl => ?_,
      fun i hi => hh.trans (h.holder i hi)⟩
    · rw [hpolled]
      exact h.unpolled (hh ▸ hsl)
    · rw [hh] at hsl
      rw [(hkeep (by simp [hsl])).2, hdelivered]
      exact h.delivered hsl
    · rw [hh] at hsl
      rw [(hkeep (by simp [hsl])).2, hs.completed]
      exact fun hc => Or.inl (h.completed hsl hc)
    · rw [hpolled]
      exact (h.emptied (hh ▸ hsl)).imp (fun hg => by simp [hg]) id

omit [DecidableEq V] in
/-- A poll of the Task in the slot closes a completed task, and is given its output. -/
theorem Tracked.poll {attached : A.State → Prop} (hA : A.Handled attached) {k : TaskId} {tr : List (TaskAct P V)}
    {s : TaskSt A P V} {w : St A P} {φ : Phase P} {c : Cell A} (h : Tracked attached k tr s c) (ho : Stored k tr s φ c)
    (hs : c.handle = .slot) (hw : Worker.step s.worker (.op .main k .poll false) = some w) :
    ∃ c', Tracked attached k (tr ++ [.poll (awaited ((A.bits c.st).pollTask s.out))]) { s with worker := w } c' := by
  obtain ⟨hd, hh, hc'⟩ := op_cell hw h.cell
  rw [hs] at hh
  cases hh
  have hat := h.attached (by simp [hs])
  refine ⟨_, hc', fun _ => hA.op _ _ hat nofun nofun, fun _ => ?_, fun _ => ?_, fun _ hcl => ?_,
    fun h => absurd rfl h, fun i hi => ?_⟩
  · rw [polled_append]
    exact not_or.mpr ⟨h.unpolled hs, by simp [Polled]⟩
  · show (A.bits (A.op c.st .poll).1).closed = true ↔ _
    rw [delivered_append, ← h.delivered hs, A.poll_bits, Bits.take_closed]
    cases hcl : (A.bits c.st).closed with
    | true => simp
    | false => simpa using (ho.delivers hcl).symm
  · have hcl : (A.bits (A.op c.st .poll).1).closed = true := hcl
    show (A.bits (A.op c.st .poll).1).completed = true
    rw [A.poll_bits, Bits.take_closed, Bool.or_eq_true] at hcl
    rw [A.op_completed_eq]
    exact hcl.elim (h.completed hs) id
  · rw [h.holder i hi] at hs; cases hs

theorem tracked_step {attached : A.State → Prop} (hA : A.Handled attached) {k : TaskId} {tr : List (TaskAct P V)}
    {s s' : TaskSt A P V} {e : TaskAct P V} {φ : Phase P} {c : Cell A} (h : Tracked attached k tr s c)
    (ho : Stored k tr s φ c) (hst : TaskStep k s e s') : ∃ c', Tracked attached k (tr ++ [e]) s' c' := by
  have hcell := h.cell
  cases hst with
  | worker a w ha hw =>
    obtain ⟨c', hc', hs⟩ := cell_inv (step_inv hw) hcell
    exact ⟨c', h.worker hA ha hc' hs⟩
  | ready v w hw =>
    exact ⟨c, h.same (by rw [ready_cells hw]) rfl rfl (by simp [Polled]) (by simp [Delivered])⟩
  | isFinished b _ _ => exact ⟨c, h.same rfl rfl rfl (by simp [Polled]) (by simp [Delivered])⟩
  | poll d w hd _ hsl hw =>
    rw [hcell] at hd
    cases hd
    exact h.poll hA ho hsl hw
  | pollEmpty d hd _ hsl => exact ⟨c, h.same rfl rfl rfl (by simp [Polled]) (by simp [Delivered])⟩
  | cancel i _ _ => exact ⟨c, h.same rfl rfl rfl (by simp [Polled]) (by simp [Delivered])⟩
  | take i handed d w hd _ _ hsl hw =>
    obtain ⟨hd', hh, hc'⟩ := op_cell hw hcell
    rw [hcell] at hd
    cases hd
    rw [hsl] at hh
    cases hh
    have hat := h.attached (by simp [hsl])
    refine ⟨_, hc', fun _ => hA.op _ _ hat nofun nofun, nofun, nofun, nofun, fun _ => Or.inr ?_, fun _ _ => rfl⟩
    exact polled_append.mpr (Or.inr ⟨i, handed, by simp⟩)
  | takeEmpty i d hd _ _ hsl =>
    rw [hcell] at hd
    cases hd
    exact ⟨c, h.same rfl rfl rfl (fun h => absurd h hsl) (by simp [Delivered])⟩
  | pollCancel i d w cancels _ _ hi hw _ =>
    obtain ⟨hd, hh, hc'⟩ := op_cell hw hcell
    have hown := h.holder i hi
    rw [hown] at hh
    cases hh
    have hat := h.attached (by simp [hown])
    refine ⟨_, hc', fun _ => hA.op _ _ hat nofun nofun, nofun, nofun, nofun, fun _ => ?_, fun _ _ => rfl⟩
    rw [polled_append]
    exact (h.emptied (by simp [hown])).imp id Or.inl
  | pollNone i _ _ => exact ⟨c, h.same rfl rfl rfl (by simp [Polled]) (by simp [Delivered])⟩
  | dropTask i handed w hi hw =>
    obtain ⟨hd, hh, hc'⟩ := op_cell hw hcell
    have hown := h.holder i hi
    rw [hown] at hh
    cases hh
    refine ⟨_, hc', fun hg => absurd rfl hg, nofun, nofun, nofun, fun _ => ?_, nofun⟩
    rw [polled_append]
    exact (h.emptied (by simp [hown])).imp id Or.inl
  | dropCancel i _ _ => exact ⟨c, h.same rfl rfl rfl (by simp [Polled]) (by simp [Delivered])⟩

theorem tracked_run {attached : A.State → Prop} (hA : A.Handled attached) {k : TaskId} {tr : List (TaskAct P V)}
    {s : TaskSt A P V} (h : (requestTask A P V k).Run tr s) :
    ∃ φ c, Stored k tr s φ c ∧ Tracked attached k tr s c := by
  have key : ∃ c, Tracked attached k tr s c := by
    refine Lib.Machine.run_induction (J := fun tr s => ∃ c, Tracked attached k tr s c) ?_ ?_ h
    · intro s hs
      obtain ⟨-, hh, -, r, hc⟩ := task_init hs
      refine ⟨_, hc, fun _ => hA.spawn, fun _ => by simp [Polled], fun _ => ?_, fun _ hcl => ?_, fun h => absurd rfl h,
        fun i hi => ?_⟩
      · simp [A.spawn_bits, Bits.fresh, Delivered]
      · have hcl : (A.bits A.spawn).closed = true := hcl
        rw [A.spawn_bits] at hcl
        cases hcl
      · rw [hh] at hi; cases hi
    · intro tr s e s' hrun ih hst
      obtain ⟨c, hi⟩ := ih
      obtain ⟨φ, d, hs⟩ := stored_run hrun
      exact tracked_step hA hi (hs.on hi.cell) (taskStep_inv hst)
  obtain ⟨c, hi⟩ := key
  obtain ⟨φ, d, hs⟩ := stored_run h
  exact ⟨φ, c, hs.on hi.cell, hi⟩

/-! ## A cancel, from its first poll on -/

/-- A polled cancel stays polled until it is over, and is over for good. -/
theorem cancels_step {k : TaskId} {s s' : TaskSt A P V} {e : TaskAct P V} {i : CancelId} (h : TaskStep k s e s')
    (hi : s.cancels i = .polled ∨ s.cancels i = .over) : s'.cancels i = s.cancels i ∨ s'.cancels i = .over := by
  have begins : ∀ {j : CancelId} (x : CancelAt), s.cancels j = .uncalled ∨ s.cancels j = .called →
      Function.update s.cancels j x i = s.cancels i := by
    intro j x hj
    refine Function.update_of_ne ?_ _ _
    intro hij
    subst hij
    rcases hi with hi | hi <;> rw [hi] at hj <;> simp at hj
  have ends : ∀ j : CancelId, Function.update s.cancels j .over i = s.cancels i ∨
      Function.update s.cancels j .over i = .over := by
    intro j
    by_cases hij : i = j
    · subst hij; exact Or.inr (Function.update_self _ _ _)
    · exact Or.inl (Function.update_of_ne hij _ _)
  cases h with
  | cancel j _ hj => exact Or.inl (begins .called (Or.inl hj))
  | take j handed c w _ _ hj _ _ => exact Or.inl (begins .polled (Or.inr hj))
  | takeEmpty j c _ _ hj _ => exact Or.inl (begins .polled (Or.inr hj))
  | pollCancel j c w cancels _ _ _ _ hcs =>
    subst hcs
    split
    · exact Or.inl rfl
    · exact ends j
  | pollNone j _ _ => exact ends j
  | dropTask j handed w _ _ => exact ends j
  | dropCancel j _ _ => exact ends j
  | _ => exact Or.inl rfl

/-- Only a cancel that was polled holds the Task. -/
theorem holder_run {k : TaskId} {tr : List (TaskAct P V)} {s : TaskSt A P V} (h : (requestTask A P V k).Run tr s) :
    ∀ i, s.holder = some i → s.cancels i = .polled ∨ s.cancels i = .over := by
  refine Lib.Machine.run_induction
    (J := fun _ s => ∀ i, s.holder = some i → s.cancels i = .polled ∨ s.cancels i = .over) ?_ ?_ h
  · intro s hs i hi
    rw [(task_init hs).2.1] at hi
    cases hi
  · intro tr s e s' _ ih hst i hi
    have hst : TaskStep k s e s' := taskStep_inv hst
    have old : s.holder = some i → s'.cancels i = .polled ∨ s'.cancels i = .over := by
      intro h0
      rcases cancels_step hst (ih i h0) with h | h
      · rw [h]; exact ih i h0
      · exact Or.inr h
    cases hst with
    | take j handed c w _ _ _ _ _ =>
      cases hi
      exact Or.inl (Function.update_self _ _ _)
    | dropTask j handed w _ _ => cases hi
    | _ => exact old hi

/-- The cancel was polled and has no Task. -/
structure Missed (i : CancelId) (s : TaskSt A P V) : Prop where
  polled : s.cancels i = .polled ∨ s.cancels i = .over
  holder : s.holder ≠ some i

theorem missed_step {k : TaskId} {s s' : TaskSt A P V} {e : TaskAct P V} {i : CancelId} (h : Missed i s)
    (hst : TaskStep k s e s') : Missed i s' := by
  refine ⟨?_, ?_⟩
  · rcases cancels_step hst h.polled with hi | hi
    · rw [hi]; exact h.polled
    · exact Or.inr hi
  · cases hst with
    | take j handed c w _ _ hj _ _ =>
      intro hij
      cases hij
      rcases h.polled with hi | hi <;> rw [hj] at hi <;> cases hi
    | dropTask j handed w _ _ => nofun
    | _ => exact h.holder

/-- The cancel holds the Task, which is to give `kept`. -/
structure Settled (attached : A.State → Prop) (k : TaskId) (i : CancelId) (kept : Option V) (s : TaskSt A P V)
    (c : Cell A) : Prop where
  cell : s.worker.cells k = some c
  polled : s.cancels i = .polled
  holder : s.holder = some i
  own : c.handle = .own
  attached : attached c.st
  kept : (A.bits c.st).closed = true ∧ kept = none ∨
    (A.bits c.st).closed = false ∧ (A.bits c.st).completed = true ∧ s.out = kept

omit [DecidableEq P] [DecidableEq V] in
/-- The others leave what the Task is to give. -/
theorem Settled.worker {attached : A.State → Prop} (hA : A.Handled attached) {k : TaskId} {i : CancelId}
    {kept : Option V} {s : TaskSt A P V} {a : Act P} {w : St A P} {c c' : Cell A} (h : Settled attached k i kept s c)
    (ha : a.reserved k = false) (hc' : w.cells k = some c') (hs : CellStep k c a c') :
    Settled attached k i kept { s with worker := w, gone := s.gone || a.cleans k } c' := by
  rcases hs.beside hA ha with ⟨hsl, -⟩ | ⟨hh, hat⟩
  · rw [h.own] at hsl; cases hsl
  · obtain ⟨h1, h2⟩ := hat h.attached
    refine ⟨hc', h.polled, h.holder, hh.trans h.own, h1, ?_⟩
    rw [h2, hs.completed]
    rcases h.kept with hk | ⟨hcl, hm, hk⟩
    · exact Or.inl hk
    · exact Or.inr ⟨hcl, Or.inl hm, hk⟩

omit [DecidableEq V] in
/-- A poll that is not ready found the task closed. -/
theorem Settled.poll {attached : A.State → Prop} (hA : A.Handled attached) {k : TaskId} {i : CancelId}
    {kept : Option V} {s : TaskSt A P V} {w : St A P} {c : Cell A} (h : Settled attached k i kept s c)
    (hw : Worker.step s.worker (.op .main k .poll false) = some w) (hp : (A.bits c.st).pollTask s.out = .pending) :
    ∃ c', Settled attached k i kept { s with worker := w } c' := by
  obtain ⟨hd, hh, hc'⟩ := op_cell hw h.cell
  rw [h.own] at hh
  cases hh
  refine ⟨_, hc', h.polled, h.holder, rfl, hA.op _ _ h.attached (by simp) (by simp), ?_⟩
  rcases h.kept with ⟨hcl, hk⟩ | ⟨hcl, hm, -⟩
  · exact Or.inl ⟨A.op_closed hcl, hk⟩
  · rw [Bits.pollTask_stored hcl hm] at hp
    cases hp

theorem settled_step {attached : A.State → Prop} (hA : A.Handled attached) {k : TaskId} {i : CancelId}
    {kept : Option V} {s s' : TaskSt A P V} {e : TaskAct P V} {φ : Phase P} {c : Cell A}
    (h : Settled attached k i kept s c) (hφ : Fits s.worker k φ) (hst : TaskStep k s e s') :
    s'.cancels i = .over ∨ ∃ c', Settled attached k i kept s' c' := by
  rcases cancels_step hst (Or.inl h.polled) with hi | hi
  case inr => exact Or.inl hi
  have hi : s'.cancels i = .polled := hi.trans h.polled
  have hcell := h.cell
  have hown := h.own
  -- a step that leaves the task and the Task where they are
  have same : s'.worker.cells k = s.worker.cells k → s'.holder = s.holder → s'.out = s.out →
      ∃ c', Settled attached k i kept s' c' := by
    intro h1 h2 h3
    exact ⟨c, h1.trans hcell, hi, h2.trans h.holder, hown, h.attached, by rw [h3]; exact h.kept⟩
  refine Or.inr ?_
  cases hst with
  | worker a w ha hw =>
    obtain ⟨c', hc', hs⟩ := cell_inv (step_inv hw) hcell
    exact ⟨c', h.worker hA ha hc' hs⟩
  | ready v w hw =>
    -- a completed task's future does not return again
    have hm : (A.bits c.st).completed = false := by
      obtain ⟨φ', -, hm | ⟨hm, -⟩⟩ := fits_step hφ (step_inv hw)
      · cases hm with
        | ready => exact ((hφ.ok c hcell).1).2
      · simp [Act.moves] at hm
    refine ⟨c, by rw [ready_cells hw]; exact hcell, hi, h.holder, hown, h.attached, ?_⟩
    rcases h.kept with hk | ⟨-, hm', -⟩
    · exact Or.inl hk
    · rw [hm] at hm'; cases hm'
  | isFinished b _ _ => exact same rfl rfl rfl
  | poll d w hd _ hsl hw =>
    rw [hcell] at hd
    cases hd
    rw [hown] at hsl
    cases hsl
  | pollEmpty d _ _ _ => exact same rfl rfl rfl
  | cancel j _ _ => exact same rfl rfl rfl
  | take j handed d w hd _ _ hsl hw =>
    rw [hcell] at hd
    cases hd
    rw [hown] at hsl
    cases hsl
  | takeEmpty j d _ _ _ _ => exact same rfl rfl rfl
  | pollCancel j d w cancels hd _ hj hw hcs =>
    rw [hcell] at hd
    cases hd
    rw [h.holder] at hj
    cases hj
    have hp : (A.bits c.st).pollTask s.out = .pending := by
      by_contra hp
      rw [if_neg hp] at hcs
      rw [hcs] at hi
      simp at hi
    rw [if_pos hp] at hcs
    subst hcs
    exact h.poll hA hw hp
  | pollNone j _ _ => exact same rfl rfl rfl
  | dropTask j handed w hj hw =>
    rw [h.holder] at hj
    cases hj
    simp at hi
  | dropCancel j _ _ => exact same rfl rfl rfl

/-! ## What the handle shows -/

/-- Once it holds, `isFinished` stays. -/
theorem isFinished_step {k : TaskId} {s s' : TaskSt A P V} {e : TaskAct P V} (h : TaskStep k s e s')
    (hf : s.isFinished k = true) : s'.isFinished k = true := by
  unfold TaskSt.isFinished at hf ⊢
  cases hc : s.worker.cells k with
  | none => rw [hc] at hf; cases hf
  | some c =>
    obtain ⟨c', hc', hl, hs⟩ := task_later h hc
    rw [hc] at hf
    rw [hc']
    simp only [Bool.or_eq_true, bne_iff_ne] at hf ⊢
    exact hf.imp hs hl.done

/-- The act gives the output to some await or cancel. -/
def TaskAct.gives : TaskAct P V → Bool
  | .poll (.ready _) | .pollCancel _ (.ready (some _)) => true
  | _ => false

/-- The output is given at most once: its task is closed then. -/
structure Given (k : TaskId) (tr : List (TaskAct P V)) (s : TaskSt A P V) (c : Cell A) : Prop where
  cell : s.worker.cells k = some c
  once : tr.countP TaskAct.gives ≤ 1
  closed : 0 < tr.countP TaskAct.gives → (A.bits c.st).closed = true

/-- Only a poll of the Task gives its output, and takes it. -/
theorem gives_inv {k : TaskId} {s s' : TaskSt A P V} {e : TaskAct P V} {c : Cell A} (h : TaskStep k s e s')
    (he : e.gives = true) (hc : s.worker.cells k = some c) : (A.bits c.st).closed = false ∧
      ∃ c', s'.worker.cells k = some c' ∧ (A.bits c'.st).closed = true := by
  obtain ⟨hw, v, hp⟩ : Worker.step s.worker (.op .main k .poll false) = some s'.worker ∧
      ∃ v, (A.bits c.st).pollTask s.out = .ready (some v) := by
    cases h with
    | poll d w hd _ _ hw =>
      rw [hc] at hd
      cases hd
      refine ⟨hw, ?_⟩
      revert he
      rcases (A.bits c.st).pollTask s.out with _ | _ | v <;> simp [awaited, TaskAct.gives]
    | pollCancel i d w cancels hd _ _ hw _ =>
      rw [hc] at hd
      cases hd
      refine ⟨hw, ?_⟩
      revert he
      rcases (A.bits c.st).pollTask s.out with _ | _ | v <;> simp [TaskAct.gives]
    | _ => cases he
  rcases Bits.pollTask_ready hp with ⟨-, -, -, hv⟩ | ⟨hcl, hm, -⟩
  · cases hv
  · obtain ⟨hd, -, hc'⟩ := op_cell hw hc
    refine ⟨hcl, _, hc', ?_⟩
    show (A.bits (A.op c.st .poll).1).closed = true
    rw [A.poll_bits, Bits.take_closed, hm, Bool.or_true]

theorem given_step {k : TaskId} {tr : List (TaskAct P V)} {s s' : TaskSt A P V} {e : TaskAct P V} {c : Cell A}
    (h : Given k tr s c) (hst : TaskStep k s e s') : ∃ c', Given k (tr ++ [e]) s' c' := by
  have hcount : (tr ++ [e]).countP TaskAct.gives = tr.countP TaskAct.gives + if e.gives then 1 else 0 := by
    simp [List.countP_cons]
  by_cases he : e.gives = true
  · obtain ⟨hcl, c', hc', hcl'⟩ := gives_inv hst he h.cell
    have h0 : tr.countP TaskAct.gives = 0 := by
      by_contra h0
      rw [h.closed (by omega)] at hcl
      cases hcl
    exact ⟨c', hc', by rw [hcount, h0, if_pos he], fun _ => hcl'⟩
  · rw [if_neg he, Nat.add_zero] at hcount
    obtain ⟨c', hc', hlater⟩ := task_later hst h.cell
    exact ⟨c', hc', by rw [hcount]; exact h.once, fun hpos => hlater.1.closed (h.closed (by rwa [hcount] at hpos))⟩

theorem given_run {k : TaskId} {tr : List (TaskAct P V)} {s : TaskSt A P V} (h : (requestTask A P V k).Run tr s) :
    ∃ c, Given k tr s c := by
  refine Lib.Machine.run_induction (J := fun tr s => ∃ c, Given k tr s c) ?_ ?_ h
  · intro s hs
    obtain ⟨-, -, -, r, hc⟩ := task_init hs
    exact ⟨_, hc, by simp, by simp⟩
  · intro tr s e s' _ ih hst
    obtain ⟨c, hi⟩ := ih
    exact given_step hi (taskStep_inv hst)

/-! ## The result law -/

/-- The first cancel that is polled takes the Task: it is to give the output if that is
    stored and was not given to an await, and nothing otherwise. -/
theorem take_settled {attached : A.State → Prop} (hA : A.Handled attached) {k : TaskId} {i : CancelId} {handed : Bool}
    {pre : List (TaskAct P V)} {s s' : TaskSt A P V} {φ : Phase P} {c : Cell A} (ht : Tracked attached k pre s c)
    (ho : Stored k pre s φ c) (hst : TaskStep k s (.take i handed) s') (hs : c.handle = .slot) :
    ∃ kept c', Settled attached k i kept s' c' ∧ ∀ v, kept = some v ↔ Completed k v pre ∧ ¬ Delivered pre := by
  have hcell := ht.cell
  have hat : attached c.st := ht.attached (by simp [hs])
  cases hst with
  | takeEmpty _ d hd _ _ hne =>
    rw [hcell] at hd
    cases hd
    exact absurd hs hne
  | take _ _ d w hd _ _ _ hw =>
    obtain ⟨hd', hh, hc'⟩ := op_cell hw hcell
    rw [hs] at hh
    cases hh
    have settled : ∀ kept, ((A.bits (A.op c.st .cancel).1).closed = true ∧ kept = none ∨
        (A.bits (A.op c.st .cancel).1).closed = false ∧ (A.bits (A.op c.st .cancel).1).completed = true ∧
          s.out = kept) → Settled attached k i kept
        { s with worker := w, cancels := Function.update s.cancels i .polled, holder := some i }
        { c with st := (A.op c.st .cancel).1, handle := .own } := fun kept hk =>
      ⟨hc', Function.update_self _ _ _, rfl, rfl, hA.op _ _ hat nofun nofun, hk⟩
    cases hcl : (A.bits c.st).closed with
    | true =>
      -- an await was given the output
      refine ⟨none, _, settled none (Or.inl ⟨A.op_closed hcl, rfl⟩), fun v => ?_⟩
      simp [(ht.delivered hs).mp hcl]
    | false =>
      have hnd : ¬ Delivered pre := by
        rw [← ht.delivered hs, hcl]
        simp
      cases hm : (A.bits c.st).completed with
      | true =>
        refine ⟨s.out, _, settled s.out (Or.inr ?_), fun v => ?_⟩
        · rw [A.cancel_completed hm]
          exact ⟨hcl, hm, rfl⟩
        · rw [ho.value]
          simp [Completed, ho.completed.mp hm, hnd]
      | false =>
        refine ⟨none, _, settled none (Or.inl ⟨A.close_closed (Or.inl rfl) hm, rfl⟩), fun v => ?_⟩
        have : .worker (.dropDone k .ready) ∉ pre := by
          rw [← ho.completed, hm]
          simp
        simp [Completed, this]

theorem settled_steps {attached : A.State → Prop} (hA : A.Handled attached) {k : TaskId} {i : CancelId}
    {kept : Option V} {pre mid : List (TaskAct P V)} {m s : TaskSt A P V} {c : Cell A}
    (hrun : (requestTask A P V k).Run pre m) (h : Settled attached k i kept m c)
    (hmid : (requestTask A P V k).Steps m mid s) :
    s.cancels i = .over ∨ ∃ c', Settled attached k i kept s c' := by
  refine Lib.Machine.steps_induction
    (J := fun _ s => s.cancels i = .over ∨ ∃ c', Settled attached k i kept s c') (Or.inr ⟨c, h⟩) ?_ hmid
  intro tr t e t' ht ih hst
  rcases ih with hi | ⟨d, hd⟩
  · rcases cancels_step (taskStep_inv hst) (Or.inr hi) with h' | h'
    · exact Or.inl (h'.trans hi)
    · exact Or.inl h'
  · obtain ⟨φ, _, hs⟩ := stored_run (hrun.append ht)
    exact settled_step hA hd hs.fits (taskStep_inv hst)

theorem missed_steps {k : TaskId} {i : CancelId} {mid : List (TaskAct P V)} {m s : TaskSt A P V} (h : Missed i m)
    (hmid : (requestTask A P V k).Steps m mid s) : Missed i s :=
  Lib.Machine.steps_induction (J := fun _ s => Missed i s) h
    (fun _ _ _ _ _ hi hst => missed_step hi (taskStep_inv hst)) hmid

/-- A poll of a cancel polls the Task it took, or has none to poll. -/
theorem pollCancel_inv {k : TaskId} {i : CancelId} {res : Poll (Option V)} {s s' : TaskSt A P V}
    (h : TaskStep k s (.pollCancel i res) s') : s.cancels i = .polled ∧
      ((∃ c, s.worker.cells k = some c ∧ s.holder = some i ∧ res = (A.bits c.st).pollTask s.out) ∨
        s.holder ≠ some i ∧ res = .ready none) := by
  cases h with
  | pollCancel _ c w cancels hc hi hh _ _ => exact ⟨hi, Or.inl ⟨c, hc, hh, rfl⟩⟩
  | pollNone _ hi hh => exact ⟨hi, Or.inr ⟨hh, rfl⟩⟩

/-- Where a cancel resolves, the future is dropped, and the result is what the Task was to give. -/
theorem Settled.resolves {attached : A.State → Prop} {k : TaskId} {i : CancelId} {kept res : Option V}
    {s s' : TaskSt A P V} {φ : Phase P} {c : Cell A} (h : Settled attached k i kept s c) (hφ : Fits s.worker k φ)
    (hst : TaskStep k s (.pollCancel i (.ready res)) s') : res = kept ∧ c.live = false := by
  obtain ⟨-, ⟨d, hd, -, hp⟩ | ⟨hh, -⟩⟩ := pollCancel_inv hst
  · rw [h.cell] at hd
    cases hd
    rcases Bits.pollTask_ready hp.symm with ⟨hcl, hsc, hr, rfl⟩ | ⟨hcl, hm, rfl⟩
    · rcases h.kept with ⟨-, hk⟩ | ⟨hk, -⟩
      · have hfin : c.Finished := ⟨hsc, hr, by simp [Bits.done, hcl]⟩
        exact ⟨hk.symm, (hφ.finished_bits h.cell).mpr hfin⟩
      · rw [hk] at hcl; cases hcl
    · rcases h.kept with ⟨hk, -⟩ | ⟨-, -, hk⟩
      · rw [hk] at hcl; cases hcl
      · exact ⟨hk, (hφ.finished_iff h.cell).mp (hφ.finished_of_completed h.cell hm)⟩
  · exact absurd h.holder hh

omit [DecidableEq P] [DecidableEq V] in
/-- Where the RequestTask can be used, only a cancel has emptied its slot. -/
theorem Tracked.polled {attached : A.State → Prop} {k : TaskId} {tr : List (TaskAct P V)} {s : TaskSt A P V}
    {c : Cell A} (h : Tracked attached k tr s c) (hu : s.usable = true) (hs : c.handle ≠ .slot) : Polled tr := by
  rcases h.emptied hs with hg | hp
  · simp [TaskSt.usable, hg] at hu
  · exact hp

/-- An await panics once the output was given to one, or a cancel polled; until then it
    is given the output of the completed task. -/
theorem poll_result {attached : A.State → Prop} {k : TaskId} {pre : List (TaskAct P V)} {res : Awaited V}
    {s s' : TaskSt A P V} {φ : Phase P} {c : Cell A} (ht : Tracked attached k pre s c) (ho : Stored k pre s φ c)
    (hst : TaskStep k s (.poll res) s') : (res = .panic ↔ Delivered pre ∨ Polled pre) ∧
      ∀ v, res = .ready v ↔ Completed k v pre ∧ ¬ Delivered pre ∧ ¬ Polled pre := by
  cases hst with
  | poll d w hd _ hs _ =>
    rw [ht.cell] at hd
    cases hd
    have hnp := ht.unpolled hs
    have hdel := ht.delivered hs
    cases hcl : (A.bits c.st).closed with
    | true =>
      -- closed with its output taken, so finished
      have hfin := ho.fits.finished_of_completed ht.cell (ht.completed hs hcl)
      have hok := (ho.fits.ok c ht.cell).1
      rw [hfin] at hok
      have hp : (A.bits c.st).pollTask s.out = .ready none := by
        simp [Bits.pollTask, hcl, hok.1, hok.2.1]
      have hd := hdel.mp hcl
      simp [hp, awaited, hd]
    | false =>
      have hnd : ¬ Delivered pre := by
        rw [← hdel, hcl]
        simp
      cases hm : (A.bits c.st).completed with
      | true =>
        obtain ⟨v, hv, hcm⟩ := ho.output hm
        have hvalue : ∀ u, v = u ↔ .ready u ∈ pre := by
          intro u
          rw [← ho.value u, hv, Option.some.injEq]
        rw [Bits.pollTask_stored hcl hm, hv]
        simp [awaited, Completed, hnp, hnd, hvalue, hcm.2]
      | false =>
        have hp : (A.bits c.st).pollTask s.out = .pending := by simp [Bits.pollTask, hcl, hm]
        have hnc : .worker (.dropDone k .ready) ∉ pre := by
          rw [← ho.completed, hm]
          simp
        simp [hp, awaited, Completed, hnp, hnd, hnc]
  | pollEmpty d hd hu hs =>
    rw [ht.cell] at hd
    cases hd
    simp [ht.polled hu hs]

omit [DecidableEq P] [DecidableEq V] in
theorem Tracked.finished {attached : A.State → Prop} {k : TaskId} {tr : List (TaskAct P V)} {s : TaskSt A P V}
    {c : Cell A} (h : Tracked attached k tr s c) (hp : Polled tr) : s.isFinished k = true := by
  have hs : c.handle ≠ .slot := fun hs => h.unpolled hs hp
  simp [TaskSt.isFinished, h.cell, hs]

/-- A cancel polled to completion. -/
theorem cancel_resolves {attached : A.State → Prop} (hA : A.Handled attached) {k : TaskId} {i : CancelId}
    {handed : Bool} {pre mid : List (TaskAct P V)} {res : Option V} {s s' : TaskSt A P V}
    (hrun : (requestTask A P V k).Run (pre ++ .take i handed :: mid) s)
    (hst : s.step k (.pollCancel i (.ready res)) = some s') :
    (∀ v, res = some v ↔ Completed k v pre ∧ ¬ Delivered pre ∧ ¬ Polled pre) ∧
      (¬ Polled pre → ∃ c, s.worker.cells k = some c ∧ c.live = false) := by
  obtain ⟨m, hpre, hsteps⟩ := hrun.split
  obtain ⟨m', hm, hmid⟩ := Lib.Machine.steps_cons.mp hsteps
  have hrun' : (requestTask A P V k).Run (pre ++ [.take i handed]) m' := hpre.snoc hm
  have htake : TaskStep k m (.take i handed) m' := taskStep_inv hm
  have hres : TaskStep k s (.pollCancel i (.ready res)) s' := taskStep_inv hst
  obtain ⟨φ, c, ho, ht⟩ := tracked_run hA hpre
  by_cases hs : c.handle = .slot
  · obtain ⟨kept, c', hset, hk⟩ := take_settled hA ht ho htake hs
    rcases settled_steps hA hrun' hset hmid with hover | ⟨e, hset⟩
    · have := (pollCancel_inv hres).1
      rw [hover] at this
      cases this
    · obtain ⟨ψ, _, hstored⟩ := stored_run hrun
      obtain ⟨rfl, hlive⟩ := hset.resolves hstored.fits hres
      have hnp := ht.unpolled hs
      exact ⟨fun v => by rw [hk v]; simp [hnp], fun _ => ⟨e, hset.cell, hlive⟩⟩
  · -- an earlier cancel took the Task
    cases htake with
    | take _ _ e w he _ _ hs' _ =>
      rw [ho.cell] at he
      cases he
      exact absurd hs' hs
    | takeEmpty _ e he hu hi _ =>
      have hne : m.holder ≠ some i := by
        intro hh
        rcases holder_run hpre i hh with h | h <;> rw [h] at hi <;> cases hi
      have hmiss : Missed i { m with cancels := Function.update m.cancels i .polled } :=
        ⟨Or.inl (Function.update_self _ _ _), hne⟩
      obtain ⟨-, ⟨_, _, hh, -⟩ | ⟨-, hr⟩⟩ := pollCancel_inv hres
      · exact absurd hh (missed_steps hmiss hmid).holder
      · cases hr
        simp [ht.polled hu hs]

/-- The result law of a request-bound task's handle, over every run of its operations
    and anything else the worker does. A cancel resolves to the output exactly if the
    task had completed before its first poll, no await was given the output and no
    cancel was polled before; when the first cancel polled resolves, the future has been
    dropped. `isFinished` holds once a cancel was polled, and stays once it holds. An
    await panics exactly if the output was given to one or a cancel was polled, and is
    given the output exactly if neither was so and the task had completed. The output is
    given at most once. -/
theorem cancel_result {attached : A.State → Prop} (hA : A.Handled attached) (k : TaskId) :
    (∀ pre i handed mid s res s', (requestTask A P V k).Run (pre ++ .take i handed :: mid) s →
      s.step k (.pollCancel i (.ready res)) = some s' →
      (∀ v, res = some v ↔ Completed k v pre ∧ ¬ Delivered pre ∧ ¬ Polled pre) ∧
        (¬ Polled pre → ∃ c, s.worker.cells k = some c ∧ c.live = false)) ∧
    (∀ tr s, (requestTask A P V k).Run tr s → (Polled tr → s.isFinished k = true) ∧
      ∀ post s', (requestTask A P V k).Steps s post s' → s.isFinished k = true → s'.isFinished k = true) ∧
    (∀ pre s res s', (requestTask A P V k).Run pre s → s.step k (.poll res) = some s' →
      (res = .panic ↔ Delivered pre ∨ Polled pre) ∧
        ∀ v, res = .ready v ↔ Completed k v pre ∧ ¬ Delivered pre ∧ ¬ Polled pre) ∧
    ∀ tr s, (requestTask A P V k).Run tr s → tr.countP TaskAct.gives ≤ 1 := by
  refine ⟨?_, ?_, ?_, ?_⟩
  · intro pre i handed mid s res s' hrun hst
    exact cancel_resolves hA hrun hst
  · intro tr s hrun
    obtain ⟨φ, c, -, ht⟩ := tracked_run hA hrun
    refine ⟨ht.finished, fun post s' hsteps hf => ?_⟩
    exact Lib.Machine.steps_induction (J := fun _ s => s.isFinished k = true) hf
      (fun _ _ _ _ _ hi hst => isFinished_step (taskStep_inv hst) hi) hsteps
  · intro pre s res s' hrun hst
    obtain ⟨φ, c, ho, ht⟩ := tracked_run hA hrun
    exact poll_result ht ho (taskStep_inv hst)
  · intro tr s hrun
    obtain ⟨c, hg⟩ := given_run hrun
    exact hg.once

/-- Task 7 of request 1 completes in its first poll, with `v`. -/
def returned (v : Nat) : List (TaskAct Nat Nat) :=
  completed.map fun a =>
    match a with
    | .pollReady _ => .ready v
    | a => .worker a

theorem cancel_result_returned :
    ∃ s s', (requestTask .plain Nat Nat 7).Run (returned 42 ++ [.cancel 0, .take 0 false]) s ∧
      s.step 7 (.pollCancel 0 (.ready (some 42))) = some s' ∧ Completed 7 42 (returned 42) := by
  obtain ⟨w, hw, m, hm⟩ : ∃ w, (machine .plain Nat).exec fresh [.newRequest 1 0] = some w ∧
      ∃ m, Worker.step w (.requestSpawn 1 7 true) = some m := ⟨_, rfl, _, rfl⟩
  obtain ⟨s, s', hs, hs'⟩ : ∃ s s', (requestTask .plain Nat Nat 7).exec (.start m)
      (returned 42 ++ [.cancel 0, .take 0 false]) = some s ∧
        s.step 7 (.pollCancel 0 (.ready (some 42))) = some s' := by
    cases hw
    cases hm
    exact ⟨_, _, rfl, rfl⟩
  have hrun : (requestTask .plain Nat Nat 7).Run (returned 42 ++ [.cancel 0, .take 0 false]) s :=
    ⟨.start m, ⟨w, 1, ⟨_, fresh, fresh_init, Lib.Machine.steps_of_exec hw⟩, hm, rfl⟩, Lib.Machine.steps_of_exec hs⟩
  have h := (cancel_result AsyncTask.plain_handled 7).1 (returned 42 ++ [.cancel 0]) 0 false [] s (some 42) s'
    (by simpa using hrun) hs'
  have hc := ((h.1 42).mp rfl).1
  exact ⟨s, s', hrun, hs', by simpa [Completed] using hc⟩

end NgxTickle.Worker
