/-
  NgxTickle.Worker.Handle — the handle of one request-bound task: `RequestTask`, with
  `is_finished`, `cancel` and its `Future::poll` (`src/spawn.rs`).

  `TaskSt` adds to the worker the RequestTask, from the spawn that returned it: the
  output of its future, the cancels called on it and which of them holds the Task. Its
  operations are main's. The first poll of a cancel, which takes the Task out of the
  slot and closes it, each poll of the Task after that, and the drop of the cancel's
  future, resolved or not, are acts of their own: anything else may come between them.
  The other acts are the worker's, but for those on the Task (`Act.reserved`).
-/

import NgxTickle.Worker.Phase

namespace NgxTickle.Worker

open NgxTickle.Task
open NgxTickle.Sched (Thread Pc Handler)

abbrev CancelId := Nat

/-- Where a call of `RequestTask::cancel` is. Its first poll takes the Task out of the slot. -/
inductive CancelAt where
  | uncalled
  | called
  | polled
  | over
  deriving DecidableEq, Repr

/-- What a poll of the RequestTask gives. -/
inductive Awaited (V : Type) where
  | pending
  | ready (v : V)
  | panic
  deriving DecidableEq, Repr

/-- `Task::poll` expects an output. -/
def awaited {V : Type} : Poll (Option V) → Awaited V
  | .pending => .pending
  | .ready (some v) => .ready v
  | .ready none => .panic

structure TaskSt (A : AsyncTask) (P V : Type) where
  worker : St A P
  /-- What the future returned; it can be taken while the task is completed and not closed. -/
  out : Option V
  /-- The pool has dropped the RequestTask. -/
  gone : Bool
  cancels : CancelId → CancelAt
  /-- The cancel that took the Task, until its future is dropped. -/
  holder : Option CancelId

inductive TaskAct (P V : Type) where
  | worker (a : Act P)
  /-- The poll of the future returns Ready. -/
  | ready (v : V)
  | isFinished (b : Bool)
  | poll (res : Awaited V)
  | cancel (i : CancelId)
  /-- The first poll of a cancel, up to the first poll of `Task::cancel`. -/
  | take (i : CancelId) (handed : Bool)
  | pollCancel (i : CancelId) (res : Poll (Option V))
  | dropCancel (i : CancelId) (handed : Bool)
  deriving DecidableEq, Repr

/-- Only the Task may do so, or the future itself. -/
def Act.reserved {P : Type} (k : TaskId) : Act P → Bool
  | .op _ _ .wake _ | .op _ _ .clone _ | .op _ _ .dropWaker _ => false
  | .op _ j _ _ | .pollReady j => j == k
  | _ => false

def Act.cleans {P : Type} (k : TaskId) : Act P → Bool
  | .cleanup _ (.task j) _ => j == k
  | _ => false

namespace TaskSt

variable {A : AsyncTask} {P V : Type}

def start (w : St A P) : TaskSt A P V := ⟨w, none, false, fun _ => .uncalled, none⟩

/-- Main may use the RequestTask. -/
def usable (s : TaskSt A P V) : Bool := s.worker.free .main && !s.gone

/-- An empty slot counts as finished. -/
def isFinished (s : TaskSt A P V) (k : TaskId) : Bool :=
  match s.worker.cells k with
  | some c => c.handle != .slot || (A.bits c.st).done
  | none => false

variable [DecidableEq P] [DecidableEq V]

def step (k : TaskId) (s : TaskSt A P V) : TaskAct P V → Option (TaskSt A P V)
  | .worker a =>
    if a.reserved k = false then
      (Worker.step s.worker a).map fun w => { s with worker := w, gone := s.gone || a.cleans k }
    else none
  | .ready v => (Worker.step s.worker (.pollReady k)).map fun w => { s with worker := w, out := some v }
  | .isFinished b => if s.usable = true ∧ b = s.isFinished k then some s else none
  | .poll res =>
    match s.worker.cells k with
    | some c =>
      if s.usable = true then
        if c.handle = .slot then
          if res = awaited ((A.bits c.st).pollTask s.out) then
            (Worker.step s.worker (.op .main k .poll false)).map fun w => { s with worker := w }
          else none
        -- "RequestTask polled after cancel"
        else if res = .panic then some s else none
      else none
    | none => none
  | .cancel i =>
    if s.usable = true ∧ s.cancels i = .uncalled then
      some { s with cancels := Function.update s.cancels i .called }
    else none
  | .take i handed =>
    match s.worker.cells k with
    | some c =>
      if s.usable = true ∧ s.cancels i = .called then
        if c.handle = .slot then
          (Worker.step s.worker (.op .main k .cancel handed)).map fun w =>
            { s with worker := w, cancels := Function.update s.cancels i .polled, holder := some i }
        else if handed = false then some { s with cancels := Function.update s.cancels i .polled } else none
      else none
    | none => none
  | .pollCancel i res =>
    let cancels := if res = .pending then s.cancels else Function.update s.cancels i .over
    match s.worker.cells k with
    | some c =>
      if s.worker.free .main = true ∧ s.cancels i = .polled then
        if s.holder = some i then
          if res = (A.bits c.st).pollTask s.out then
            (Worker.step s.worker (.op .main k .poll false)).map fun w => { s with worker := w, cancels := cancels }
          else none
        -- the slot was empty
        else if res = .ready none then some { s with cancels := cancels } else none
      else none
    | none => none
  | .dropCancel i handed =>
    if s.holder = some i then
      (Worker.step s.worker (.op .main k .drop handed)).map fun w =>
        { s with worker := w, cancels := Function.update s.cancels i .over, holder := none }
    else if s.worker.free .main = true ∧ handed = false ∧ (s.cancels i = .called ∨ s.cancels i = .polled) then
      some { s with cancels := Function.update s.cancels i .over }
    else none

end TaskSt

/-- The task `k` from the return of the `RequestSpawn::spawn` that made it. -/
def requestTask (A : AsyncTask) (P V : Type) [DecidableEq P] [DecidableEq V] (k : TaskId) :
    Lib.Machine (TaskSt A P V) (TaskAct P V) :=
  ⟨fun s => ∃ w r, (machine A P).Reach w ∧ Worker.step w (.requestSpawn r k true) = some s.worker ∧
    s = .start s.worker, TaskSt.step k⟩

variable {A : AsyncTask} {P V : Type} [DecidableEq P] [DecidableEq V]

inductive TaskStep (k : TaskId) : TaskSt A P V → TaskAct P V → TaskSt A P V → Prop
  | worker (s : TaskSt A P V) (a : Act P) (w : St A P) : a.reserved k = false → Worker.step s.worker a = some w →
      TaskStep k s (.worker a) { s with worker := w, gone := s.gone || a.cleans k }
  | ready (s : TaskSt A P V) (v : V) (w : St A P) : Worker.step s.worker (.pollReady k) = some w →
      TaskStep k s (.ready v) { s with worker := w, out := some v }
  | isFinished (s : TaskSt A P V) (b : Bool) : s.usable = true → b = s.isFinished k → TaskStep k s (.isFinished b) s
  | poll (s : TaskSt A P V) (c : Cell A) (w : St A P) : s.worker.cells k = some c → s.usable = true →
      c.handle = .slot → Worker.step s.worker (.op .main k .poll false) = some w →
      TaskStep k s (.poll (awaited ((A.bits c.st).pollTask s.out))) { s with worker := w }
  | pollEmpty (s : TaskSt A P V) (c : Cell A) : s.worker.cells k = some c → s.usable = true → c.handle ≠ .slot →
      TaskStep k s (.poll .panic) s
  | cancel (s : TaskSt A P V) (i : CancelId) : s.usable = true → s.cancels i = .uncalled →
      TaskStep k s (.cancel i) { s with cancels := Function.update s.cancels i .called }
  | take (s : TaskSt A P V) (i : CancelId) (handed : Bool) (c : Cell A) (w : St A P) : s.worker.cells k = some c →
      s.usable = true → s.cancels i = .called → c.handle = .slot →
      Worker.step s.worker (.op .main k .cancel handed) = some w →
      TaskStep k s (.take i handed)
        { s with worker := w, cancels := Function.update s.cancels i .polled, holder := some i }
  | takeEmpty (s : TaskSt A P V) (i : CancelId) (c : Cell A) : s.worker.cells k = some c → s.usable = true →
      s.cancels i = .called → c.handle ≠ .slot →
      TaskStep k s (.take i false) { s with cancels := Function.update s.cancels i .polled }
  | pollCancel (s : TaskSt A P V) (i : CancelId) (c : Cell A) (w : St A P) (cancels : CancelId → CancelAt) :
      s.worker.cells k = some c → s.cancels i = .polled → s.holder = some i →
      Worker.step s.worker (.op .main k .poll false) = some w →
      cancels = (if (A.bits c.st).pollTask s.out = .pending then s.cancels else Function.update s.cancels i .over) →
      TaskStep k s (.pollCancel i ((A.bits c.st).pollTask s.out)) { s with worker := w, cancels := cancels }
  | pollNone (s : TaskSt A P V) (i : CancelId) : s.cancels i = .polled → s.holder ≠ some i →
      TaskStep k s (.pollCancel i (.ready none)) { s with cancels := Function.update s.cancels i .over }
  | dropTask (s : TaskSt A P V) (i : CancelId) (handed : Bool) (w : St A P) : s.holder = some i →
      Worker.step s.worker (.op .main k .drop handed) = some w →
      TaskStep k s (.dropCancel i handed)
        { s with worker := w, cancels := Function.update s.cancels i .over, holder := none }
  | dropCancel (s : TaskSt A P V) (i : CancelId) : s.holder ≠ some i → s.cancels i = .called ∨ s.cancels i = .polled →
      TaskStep k s (.dropCancel i false) { s with cancels := Function.update s.cancels i .over }

theorem taskStep_inv {k : TaskId} {s s' : TaskSt A P V} {e : TaskAct P V} (h : s.step k e = some s') :
    TaskStep k s e s' := by
  cases e with
  | worker a =>
    simp only [TaskSt.step, Option.ite_none_right_eq_some, Option.map_eq_some_iff] at h
    obtain ⟨ha, w, hw, rfl⟩ := h
    exact .worker s a w ha hw
  | ready v =>
    simp only [TaskSt.step, Option.map_eq_some_iff] at h
    obtain ⟨w, hw, rfl⟩ := h
    exact .ready s v w hw
  | isFinished b =>
    simp only [TaskSt.step, Option.ite_none_right_eq_some, Option.some.injEq] at h
    obtain ⟨⟨hu, hb⟩, rfl⟩ := h
    exact .isFinished s b hu hb
  | poll res =>
    simp only [TaskSt.step] at h
    split at h
    · rename_i c hc
      simp only [Option.ite_none_right_eq_some] at h
      obtain ⟨hu, h⟩ := h
      split at h
      · rename_i hs
        simp only [Option.ite_none_right_eq_some, Option.map_eq_some_iff] at h
        obtain ⟨rfl, w, hw, rfl⟩ := h
        exact .poll s c w hc hu hs hw
      · rename_i hs
        simp only [Option.ite_none_right_eq_some, Option.some.injEq] at h
        obtain ⟨rfl, rfl⟩ := h
        exact .pollEmpty s c hc hu hs
    · cases h
  | cancel i =>
    simp only [TaskSt.step, Option.ite_none_right_eq_some, Option.some.injEq] at h
    obtain ⟨⟨hu, hi⟩, rfl⟩ := h
    exact .cancel s i hu hi
  | take i handed =>
    simp only [TaskSt.step] at h
    split at h
    · rename_i c hc
      simp only [Option.ite_none_right_eq_some] at h
      obtain ⟨⟨hu, hi⟩, h⟩ := h
      split at h
      · rename_i hs
        simp only [Option.map_eq_some_iff] at h
        obtain ⟨w, hw, rfl⟩ := h
        exact .take s i handed c w hc hu hi hs hw
      · rename_i hs
        simp only [Option.ite_none_right_eq_some, Option.some.injEq] at h
        obtain ⟨rfl, rfl⟩ := h
        exact .takeEmpty s i c hc hu hi hs
    · cases h
  | pollCancel i res =>
    simp only [TaskSt.step] at h
    split at h
    · rename_i c hc
      simp only [Option.ite_none_right_eq_some] at h
      obtain ⟨⟨_, hi⟩, h⟩ := h
      split at h
      · rename_i hh
        simp only [Option.ite_none_right_eq_some, Option.map_eq_some_iff] at h
        obtain ⟨rfl, w, hw, rfl⟩ := h
        exact .pollCancel s i c w _ hc hi hh hw rfl
      · rename_i hh
        simp only [Option.ite_none_right_eq_some, Option.some.injEq] at h
        obtain ⟨rfl, rfl⟩ := h
        exact .pollNone s i hi hh
    · cases h
  | dropCancel i handed =>
    simp only [TaskSt.step] at h
    split at h
    · rename_i hh
      simp only [Option.map_eq_some_iff] at h
      obtain ⟨w, hw, rfl⟩ := h
      exact .dropTask s i handed w hh hw
    · rename_i hh
      simp only [Option.ite_none_right_eq_some, Option.some.injEq] at h
      obtain ⟨⟨_, rfl, hi⟩, rfl⟩ := h
      exact .dropCancel s i hh hi

/-! ## The worker underneath -/

/-- Each step is some step of the worker, or none; the output is set where the future
    returns it. -/
theorem task_worker {k : TaskId} {s s' : TaskSt A P V} {e : TaskAct P V} (h : TaskStep k s e s') :
    (∃ v, e = .ready v ∧ Worker.step s.worker (.pollReady k) = some s'.worker ∧ s'.out = some v) ∨
      s'.out = s.out ∧ (∀ v, e ≠ .ready v) ∧
        (s'.worker = s.worker ∧ e ≠ .worker (.dropDone k .ready) ∨ ∃ a, Worker.step s.worker a = some s'.worker ∧
          a ≠ .pollReady k ∧ (e = .worker (.dropDone k .ready) ↔ a = .dropDone k .ready)) := by
  cases h with
  | worker a w ha hw =>
    refine Or.inr ⟨rfl, nofun, Or.inr ⟨a, hw, ?_, by simp⟩⟩
    intro h
    subst h
    simp [Act.reserved] at ha
  | ready v w hw => exact Or.inl ⟨v, rfl, hw, rfl⟩
  | poll c w _ _ _ hw => exact Or.inr ⟨rfl, nofun, Or.inr ⟨_, hw, nofun, by simp⟩⟩
  | take i handed c w _ _ _ _ hw => exact Or.inr ⟨rfl, nofun, Or.inr ⟨_, hw, nofun, by simp⟩⟩
  | pollCancel i c w cancels _ _ _ hw _ => exact Or.inr ⟨rfl, nofun, Or.inr ⟨_, hw, nofun, by simp⟩⟩
  | dropTask i handed w _ hw => exact Or.inr ⟨rfl, nofun, Or.inr ⟨_, hw, nofun, by simp⟩⟩
  | _ => exact Or.inr ⟨rfl, nofun, Or.inl ⟨rfl, nofun⟩⟩

theorem task_reach {k : TaskId} {tr : List (TaskAct P V)} {s : TaskSt A P V} (h : (requestTask A P V k).Run tr s) :
    (machine A P).Reach s.worker := by
  refine Lib.Machine.run_induction (J := fun _ s => (machine A P).Reach s.worker) ?_ ?_ h
  · intro s hs
    obtain ⟨w, r, ⟨tr, hw⟩, hst, -⟩ := hs
    have hst : (machine A P).step w (.requestSpawn r k true) = some s.worker := hst
    exact ⟨_, hw.snoc hst⟩
  · intro tr s e s' _ ih hst
    have step : ∀ {a : Act P}, Worker.step s.worker a = some s'.worker → (machine A P).Reach s'.worker := by
      intro a hw
      obtain ⟨tr, hr⟩ := ih
      have hw : (machine A P).step s.worker a = some s'.worker := hw
      exact ⟨_, hr.snoc hw⟩
    rcases task_worker (taskStep_inv hst) with ⟨v, -, hw, -⟩ | ⟨-, -, ⟨hw, -⟩ | ⟨a, hw, -⟩⟩
    · exact step hw
    · rw [hw]; exact ih
    · exact step hw

/-- An operation on the task itself. -/
theorem op_cell {w w' : St A P} {t : Thread P} {k : TaskId} {o : Op} {handed : Bool} {c : Cell A}
    (h : Worker.step w (.op t k o handed) = some w') (hc : w.cells k = some c) :
    ∃ hd, c.handle.after o = some hd ∧ w'.cells k = some { c with st := (A.op c.st o).1, handle := hd } := by
  obtain ⟨c', hc', hs⟩ := cell_inv (step_inv h) hc
  cases hs with
  | keep _ _ hop => exact absurd rfl (hop t o handed)
  | op _ _ _ hd hh => exact ⟨hd, hh, hc'⟩

theorem ready_cells {w w' : St A P} {k : TaskId} (h : Worker.step w (.pollReady k) = some w') :
    w'.cells = w.cells := by
  cases step_inv h with
  | ready _ _ _ _ => rfl

/-! ## What the acts make of the task -/

omit [DecidableEq P] in
/-- A task completes where its future, having returned Ready, is dropped. -/
theorem CellStep.completed {k : TaskId} {a : Act P} {c c' : Cell A} (h : CellStep k c a c') :
    (A.bits c'.st).completed = true ↔ (A.bits c.st).completed = true ∨ a = .dropDone k .ready := by
  cases h with
  | keep _ hne => simp [hne]
  | begin polls => simp [(A.begin_keeps _).2]
  | pending again hcl => simp [(A.pending_keeps hcl).2]
  | dropped why => simpa using A.dropped_completed_iff c.st why
  | op t o handed h hh => simp [A.op_completed_eq]
  | cleanup r handed hs => simp [A.op_completed_eq]

omit [DecidableEq P] in
/-- An act that is not the Task's closes it only with the slot. -/
theorem CellStep.beside {attached : A.State → Prop} (hA : A.Handled attached) {k : TaskId} {a : Act P} {c c' : Cell A}
    (h : CellStep k c a c') (ha : a.reserved k = false) :
    c.handle = .slot ∧ c'.handle = .gone ∧ a.cleans k = true ∨ c'.handle = c.handle ∧
      (attached c.st → attached c'.st ∧ (A.bits c'.st).closed = (A.bits c.st).closed) := by
  cases h with
  | keep => exact Or.inr ⟨rfl, fun h => ⟨h, rfl⟩⟩
  | begin polls => exact Or.inr ⟨rfl, fun h => ⟨hA.begin _ h, (A.begin_keeps _).1⟩⟩
  | pending again hcl => exact Or.inr ⟨rfl, fun h => ⟨hA.pending _ h, (A.pending_keeps hcl).1⟩⟩
  | dropped why => exact Or.inr ⟨rfl, fun h => ⟨hA.dropped _ _ h, hA.dropped_closed_eq h why⟩⟩
  | op t o handed h hh =>
    have ho : o.onWaker = true := by cases o <;> simp_all [Act.reserved, Op.onWaker]
    have hd : h = c.handle := by
      rw [after_waker ho] at hh
      exact (Option.some.inj hh).symm
    refine Or.inr ⟨hd, fun hat => ⟨hA.op _ o hat ?_ ?_, hA.waker_closed hat ho⟩⟩
    · rintro rfl; cases ho
    · rintro rfl; cases ho
  | cleanup r handed hs => exact Or.inl ⟨hs, rfl, by simp [Act.cleans]⟩

omit [DecidableEq P] in
/-- A slot that is empty stays empty. -/
theorem CellStep.taken {k : TaskId} {a : Act P} {c c' : Cell A} (h : CellStep k c a c') (hs : c.handle ≠ .slot) :
    c'.handle ≠ .slot := by
  cases h with
  | op t o handed h hh =>
    intro hh'
    have hh' : h = .slot := hh'
    rw [hh'] at hh
    cases o <;> cases hc : c.handle <;> simp_all [Handle.after]
  | cleanup r handed _ => nofun
  | _ => exact hs

/-! ## The task over a run -/

theorem spawned_cell {w w' : St A P} {r : ReqId} {k : TaskId} (h : Worker.step w (.requestSpawn r k true) = some w') :
    w'.cells k = some ⟨A.spawn, true, some r, true, .slot⟩ := by
  cases step_inv h with
  | requestSpawn _ _ p c _ _ _ _ _ => simp

/-- The task as it was spawned. -/
theorem task_init {k : TaskId} {s : TaskSt A P V} (h : (requestTask A P V k).init s) :
    s.out = none ∧ s.holder = none ∧ (∃ φ, Fits s.worker k φ) ∧
      ∃ r, s.worker.cells k = some ⟨A.spawn, true, some r, true, .slot⟩ := by
  obtain ⟨w, r, -, hst, hs⟩ := id h
  have hrun : (requestTask A P V k).Run [] s := ⟨s, h, .nil s⟩
  obtain ⟨tr, hr⟩ := task_reach hrun
  exact ⟨by rw [hs]; rfl, by rw [hs]; rfl, fits_run hr k, r, spawned_cell hst⟩

/-- The task stays itself, and an empty slot empty. -/
theorem task_later {k : TaskId} {s s' : TaskSt A P V} {e : TaskAct P V} {c : Cell A} (h : TaskStep k s e s')
    (hc : s.worker.cells k = some c) :
    ∃ c', s'.worker.cells k = some c' ∧ c.Later c' ∧ (c.handle ≠ .slot → c'.handle ≠ .slot) := by
  have later : ∀ {a : Act P}, Worker.step s.worker a = some s'.worker →
      ∃ c', s'.worker.cells k = some c' ∧ c.Later c' ∧ (c.handle ≠ .slot → c'.handle ≠ .slot) := by
    intro a hw
    obtain ⟨c', hc', hs⟩ := cell_inv (step_inv hw) hc
    exact ⟨c', hc', hs.later, hs.taken⟩
  rcases task_worker h with ⟨v, -, hw, -⟩ | ⟨-, -, ⟨hw, -⟩ | ⟨a, hw, -⟩⟩
  · exact later hw
  · exact ⟨c, by rw [hw]; exact hc, ⟨rfl, rfl, id, id, id⟩, id⟩
  · exact later hw

end NgxTickle.Worker
