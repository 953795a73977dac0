/-
  NgxTickle.Worker.Refine — the worker over the scheduler. Each act of the worker is a
  run of the scheduler of `Sched.Model` on its core: none, its own event, or one call of
  `schedule` (`core_sim`). So what holds of every run of the scheduler holds under every
  behaviour of the futures: a queued runnable keeps the handler coming
  (`worker_wakeup`), and tasks are run in the order in which they were sent
  (`worker_fifo`).
-/

import NgxTickle.Sched.Fifo
import NgxTickle.Sched.Wakeup
import NgxTickle.Worker.Stack

namespace NgxTickle.Worker

open NgxTickle.Task
open NgxTickle.Sched (Thread)

variable {A : AsyncTask} {P : Type}

/-- `schedule` is called if the Runnable is handed over. -/
def calls (t : Thread P) (k : TaskId) (handed : Bool) : List (Sched.Ev P TaskId) := if handed then [.call t k] else []

/-- What the act does to the scheduler. -/
def Act.events : Act P → List (Sched.Ev P TaskId)
  | .core e => [e]
  | .run k _ => [.run k]
  | .pollPending k _ again => calls .main k again
  | .op t k _ handed => calls t k handed
  | .spawn t k => [.call t k]
  | .requestSpawn _ k ok => calls .main k ok
  | .cleanup _ (.task k) handed => calls .main k handed
  | _ => []

variable [DecidableEq P]

theorem Handed.steps {s s' : Sched.St P TaskId} {t : Thread P} {k : TaskId} {handed : Bool}
    (h : Handed s t k handed s') : (Sched.machine P TaskId).Steps s (calls t k handed) s' := by
  cases h with
  | sent _ h => exact .single h.eq
  | kept => exact .nil s

theorem core_step {w w' : St A P} {a : Act P} (h : Step w a w') :
    (Sched.machine P TaskId).Steps w.core a.events w'.core := by
  cases h with
  | core e s _ _ hs => exact .single hs.eq
  | runPoll k c s _ _ hs => exact .single hs.eq
  | runDrop k c s _ _ hs => exact .single hs.eq
  | pending k again c rest s _ _ _ _ _ hs => exact hs.steps
  | op t k o handed c h s _ _ _ _ _ hs => exact hs.steps
  | spawn t k s _ _ hs => exact .single hs.eq
  | requestSpawn r k p s _ _ _ _ hs => exact .single hs.eq
  | requestRefused r k p s _ _ _ _ hs =>
    rw [A.spawn_op .drop] at hs
    exact hs.steps
  | cleanupTask r k handed p cs rest c s _ _ _ _ _ _ _ hs => exact hs.steps
  | _ => exact .nil _

theorem core_sim : Lib.Machine.Sim (machine A P) (Sched.machine P TaskId) St.core Act.events where
  init := by
    intro w hw
    obtain ⟨s, hs, rfl⟩ := hw
    exact hs
  step := by
    intro w a w' h
    exact core_step (step_inv h)

/-- With main in the event loop and no thread inside `schedule`, a queued task makes
    nginx dispatch the handler. -/
theorem worker_wakeup {w : St A P} (h : (machine A P).Reach w) (hh : w.core.handler = .idle) (hm : w.cont .main = [])
    (hq : w.core.Quiet) (hc : w.core.chan ≠ []) : ∃ w', step w (.core .enter) = some w' := by
  obtain ⟨tr, h⟩ := h
  have hinv := Sched.inv_reach (core_sim.run h).reach
  have hr := Sched.watched_rest hinv.queued (fun h => h) hh hq hc
  refine ⟨{ w with core := { w.core with handler := .entered } }, ?_⟩
  simp [step, inner, atBottom, hm, Sched.step, hh, hq .main, hr]

/-- The tasks run so far, the one taken and the queued ones, are the tasks sent, in
    order. -/
theorem worker_fifo {tr : List (Act P)} {w : St A P} (h : (machine A P).Run tr w) :
    Sched.ranOf (tr.flatMap Act.events) ++ w.core.handler.taken ++ w.core.chan = Sched.sentOf (tr.flatMap Act.events) :=
  Sched.conserved (core_sim.run h)

end NgxTickle.Worker
