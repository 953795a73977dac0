/-
  NgxTickle.Worker.Model — an nginx worker that runs tasks (`src/spawn.rs`: `spawn`,
  `RequestSpawn::spawn`, `RequestTask`; `src/finalize.rs`: `finalize_request`, `fini`,
  `Finalization`), over the scheduler of `Sched.Model` with task ids for runnables.

  Each thread has a stack of the frames it is in (`cont`): a poll of a future, the drop
  of one, code of `async_task` that may call back (`glue`: an awaiter's wake, the Drop of
  an output), `ngx_destroy_pool`, `fini`. Code the repository does not write (futures,
  destructors, nginx's other handlers) runs where `free` allows it and may do anything
  there, in any order: wake, spawn, cancel, drop handles, tear requests down, finalize.

  nginx, as assumed: the event loop dispatches one handler at a time, from an empty
  stack; `ngx_destroy_pool` runs each registered cleanup once, the last registered
  first, and then frees the pool and the request in it; `ngx_post_event` links an event
  at the tail of the posted queue; the event loop unlinks its head and clears its posted
  bit before it calls the handler; connections are never freed. A call that takes
  `&mut Request` is made before the request is freed, on the main thread.
-/

import Mathlib.Tactic.Simps.Basic
import NgxTickle.Sched.Model
import NgxTickle.Task.AsyncTask

namespace NgxTickle.Worker

open NgxTickle.Task
open NgxTickle.Sched (Thread Pc Handler)

abbrev TaskId := Nat
abbrev ReqId := Nat
abbrev FinId := Nat
abbrev ConnId := Nat

/-- Where the `async_task::Task` is: in the pool's `RequestTask`, owned by some code
    (`spawn`'s result, a cancel future), or dropped. -/
inductive Handle where
  | slot
  | own
  | gone
  deriving DecidableEq, Repr

structure Cell (A : AsyncTask) where
  st : A.State
  /-- The future is not dropped yet. -/
  live : Bool
  /-- The request it was spawned on; none for `spawn`. -/
  req : Option ReqId
  /-- Its spawn returned a handle. -/
  ok : Bool
  handle : Handle

inductive Cleanup where
  | task (k : TaskId)
  | fin (f : FinId)
  | other
  deriving DecidableEq, Repr

inductive Life where
  | live
  | destroying
  | freed
  deriving DecidableEq, Repr

/-- A request's pool; the request lies in it. -/
structure Pool where
  life : Life
  cleanups : List Cleanup
  connection : ConnId

/-- `finalize::Finalization`. -/
structure Finalization where
  posted : Bool
  request : ReqId
  rc : Int

/-- Where `fini` is: before it reads the Finalization, after, inside
    `ngx_http_finalize_request`, after it, inside `ngx_http_run_posted_requests`. -/
inductive FiniAt where
  | entered
  | read (req : ReqId) (rc : Int) (c : ConnId)
  | finalizing (req : ReqId) (rc : Int) (c : ConnId)
  | returned (c : ConnId)
  | draining (c : ConnId)
  deriving DecidableEq, Repr

inductive Frame where
  | poll (k : TaskId)
  | drop (k : TaskId) (why : Why)
  | glue
  | destroy (r : ReqId)
  | fini (f : FinId) (a : FiniAt)
  deriving DecidableEq, Repr

structure St (A : AsyncTask) (P : Type) where
  core : Sched.St P TaskId
  cells : TaskId → Option (Cell A)
  pools : ReqId → Option Pool
  fins : FinId → Option Finalization
  /-- The Finalization events in `ngx_posted_events`. -/
  posted : List FinId
  cont : Thread P → List Frame

inductive Act (P : Type) where
  | core (e : Sched.Ev P TaskId)
  | run (k : TaskId) (polls : Bool)
  /-- The poll returned Pending and found the task closed, or rescheduled it. -/
  | pollPending (k : TaskId) (closed again : Bool)
  | pollReady (k : TaskId)
  | dropDone (k : TaskId) (why : Why)
  | glueDone (t : Thread P)
  | op (t : Thread P) (k : TaskId) (o : Op) (handed : Bool)
  | spawn (t : Thread P) (k : TaskId)
  | newRequest (r : ReqId) (c : ConnId)
  | requestSpawn (r : ReqId) (k : TaskId) (ok : Bool)
  | addCleanup (r : ReqId)
  | destroyPool (r : ReqId)
  | cleanup (r : ReqId) (c : Cleanup) (handed : Bool)
  | freePool (r : ReqId)
  | finalize (f : FinId) (r : ReqId) (rc : Int)
  | popPosted (f : FinId)
  | fini (f : FinId) (a : FiniAt)
  | finiDone (f : FinId)
  deriving DecidableEq, Repr

/-- Frames in which code runs that the repository does not write. -/
def Frame.user : Frame → Bool
  | .poll _ | .drop _ _ | .glue | .fini _ (.finalizing ..) | .fini _ (.draining _) => true
  | _ => false

/-- Where the operation leaves the Task, if there is one to use. `RequestTask::cancel`
    takes it out of the slot. -/
def Handle.after : Op → Handle → Option Handle
  | .wake, h | .clone, h | .dropWaker, h => some h
  | .cancel, .slot | .cancel, .own => some .own
  | .drop, .own | .detach, .own => some .gone
  | .poll, .slot => some .slot
  | .poll, .own => some .own
  | _, _ => none

theorem after_waker {o : Op} (ho : o.onWaker = true) (h : Handle) : h.after o = some h := by
  cases o with
  | wake => rfl
  | clone => rfl
  | dropWaker => rfl
  | _ => cases ho

/-- The scheduler's events that are not calls of `schedule` or of `run`. -/
def inner {P : Type} : Sched.Ev P TaskId → Bool
  | .call .. | .run _ => false
  | _ => true

/-- The events at which every frame has returned: a dispatch, and the return of `run`. -/
def atBottom {P : Type} : Sched.Ev P TaskId → Bool
  | .enter | .ret .. => true
  | _ => false

namespace St

variable {A : AsyncTask} {P : Type}

def start (core : Sched.St P TaskId) : St A P :=
  ⟨core, fun _ => none, fun _ => none, fun _ => none, [], fun _ => []⟩

/-- The request is not freed. -/
def alive (w : St A P) (r : ReqId) : Bool :=
  match w.pools r with
  | some p => p.life != .freed
  | none => false

/-- A handle in the pool can be used while its request is there. -/
def mayUse (w : St A P) (c : Cell A) (o : Op) : Bool :=
  match o, c.handle, c.req with
  | .cancel, .slot, some r | .poll, .slot, some r => w.alive r
  | _, _, _ => true

/-- What `fini` does next; `none` where only its return is left. -/
def finiNext (w : St A P) (f : FinId) : FiniAt → Option FiniAt
  | .entered =>
    match w.fins f with
    | some x =>
      match w.pools x.request with
      | some p => some (.read x.request x.rc p.connection)
      | none => none
    | none => none
  | .read r rc c => some (.finalizing r rc c)
  | .finalizing _ _ c => some (.returned c)
  | .returned c => some (.draining c)
  | .draining _ => none

@[simps]
def setCell (w : St A P) (k : TaskId) (c : Cell A) : St A P := { w with cells := Function.update w.cells k (some c) }

@[simps]
def setPool (w : St A P) (r : ReqId) (p : Pool) : St A P := { w with pools := Function.update w.pools r (some p) }

@[simps]
def setFin (w : St A P) (f : FinId) (x : Finalization) : St A P := { w with fins := Function.update w.fins f (some x) }

variable [DecidableEq P]

@[simps]
def setCont (w : St A P) (t : Thread P) (l : List Frame) : St A P := { w with cont := Function.update w.cont t l }

@[simps!]
def push (w : St A P) (t : Thread P) (f : Frame) : St A P := w.setCont t (f :: w.cont t)

/-- Thread `t` runs code that the repository does not write. -/
def free (w : St A P) (t : Thread P) : Bool :=
  decide (w.core.pc t = .out) && match w.cont t, t with
    | [], .main => decide (w.core.handler = .idle)
    | [], .other _ => true
    | f :: _, _ => f.user

/-- The Runnable is handed to `schedule`, or is not. -/
def hand (w : St A P) (t : Thread P) (k : TaskId) (handed : Bool) : Option (Sched.St P TaskId) :=
  if handed then Sched.step w.core (.call t k) else some w.core

end St

variable {A : AsyncTask} {P : Type} [DecidableEq P]

def cleanupStep (w : St A P) (r : ReqId) (p : Pool) : Cleanup → Bool → Option (St A P)
  -- `RequestTask` is dropped, with the Task unless a cancel took it
  | .task k, handed =>
    match w.cells k with
    | some c =>
      if c.handle = .slot then
        if handed = (A.op c.st .drop).2 then
          (w.hand .main k handed).map fun s =>
            ((({ w with core := s }.setPool r p).setCell k { c with st := (A.op c.st .drop).1, handle := .gone }).push
              .main .glue)
        else none
      else if handed = false then some (w.setPool r p) else none
    | none => none
  -- `Finalization::drop`
  | .fin f, false =>
    match w.fins f with
    | some x =>
      some { (w.setPool r p).setFin f { x with posted := false } with
        posted := if x.posted then w.posted.erase f else w.posted }
    | none => none
  | .other, false => some ((w.setPool r p).push .main .glue)
  | _, true => none

def step (w : St A P) : Act P → Option (St A P)
  | .core e =>
    if inner e = true ∧ (atBottom e = true → w.cont .main = []) then
      (Sched.step w.core e).map fun s => { w with core := s }
    else none
  | .run k polls =>
    match w.cells k with
    | some c =>
      if polls = (A.begin c.st).2 then
        (Sched.step w.core (.run k)).map fun s =>
          ({ w with core := s }.setCell k { c with st := (A.begin c.st).1 }).push .main
            (if polls then .poll k else .drop k .closed)
      else none
    | none => none
  | .pollPending k closed again =>
    match w.cells k, w.cont .main with
    | some c, .poll k' :: rest =>
      if k' = k ∧ w.core.pc .main = .out ∧ closed = (A.bits c.st).closed then
        if closed then
          if again = false then some (w.setCont .main (.drop k .pending :: rest)) else none
        else if again = (A.pending c.st).2 then
          (w.hand .main k again).map fun s =>
            ({ w with core := s }.setCell k { c with st := (A.pending c.st).1 }).setCont .main rest
        else none
      else none
    | _, _ => none
  | .pollReady k =>
    match w.cont .main with
    | .poll k' :: rest =>
      if k' = k ∧ w.core.pc .main = .out then some (w.setCont .main (.drop k .ready :: rest)) else none
    | _ => none
  | .dropDone k why =>
    match w.cells k, w.cont .main with
    | some c, .drop k' why' :: rest =>
      if k' = k ∧ why' = why ∧ w.core.pc .main = .out then
        some ((w.setCell k { c with st := A.dropped c.st why, live := false }).setCont .main (.glue :: rest))
      else none
    | _, _ => none
  | .glueDone t =>
    match w.cont t with
    | .glue :: rest => if w.core.pc t = .out then some (w.setCont t rest) else none
    | _ => none
  | .op t k o handed =>
    match w.cells k with
    | some c =>
      match Handle.after o c.handle with
      | some h =>
        if w.free t = true ∧ w.mayUse c o = true ∧ handed = (A.op c.st o).2 then
          (w.hand t k handed).map fun s =>
            ({ w with core := s }.setCell k { c with st := (A.op c.st o).1, handle := h }).push t .glue
        else none
      | none => none
    | none => none
  | .spawn t k =>
    if w.free t = true ∧ (w.cells k).isNone = true then
      (Sched.step w.core (.call t k)).map fun s => { w with core := s }.setCell k ⟨A.spawn, true, none, true, .own⟩
    else none
  | .newRequest r c =>
    if w.free .main = true ∧ (w.pools r).isNone = true then some (w.setPool r ⟨.live, [], c⟩) else none
  | .requestSpawn r k ok =>
    match w.pools r with
    | some p =>
      if w.free .main = true ∧ p.life ≠ .freed ∧ (w.cells k).isNone = true then
        if ok then
          (Sched.step w.core (.call .main k)).map fun s =>
            ({ w with core := s }.setPool r { p with cleanups := .task k :: p.cleanups }).setCell k
              ⟨A.spawn, true, some r, true, .slot⟩
        else
          -- the allocation is refused: the Task is dropped, then the Runnable
          (w.hand .main k (A.op A.spawn .drop).2).map fun s =>
            ({ w with core := s }.setCell k ⟨(A.op A.spawn .drop).1, true, some r, false, .gone⟩).push .main
              (.drop k .runnable)
      else none
    | none => none
  | .addCleanup r =>
    match w.pools r with
    | some p =>
      if w.free .main = true ∧ p.life ≠ .freed then some (w.setPool r { p with cleanups := .other :: p.cleanups })
      else none
    | none => none
  | .destroyPool r =>
    match w.pools r with
    | some p =>
      if w.free .main = true ∧ p.life = .live then
        some ((w.setPool r { p with life := .destroying }).push .main (.destroy r))
      else none
    | none => none
  | .cleanup r c handed =>
    match w.cont .main, w.pools r with
    | .destroy r' :: _, some p =>
      match p.cleanups with
      | c' :: cs =>
        if r' = r ∧ c' = c ∧ w.core.pc .main = .out then cleanupStep w r { p with cleanups := cs } c handed else none
      | [] => none
    | _, _ => none
  | .freePool r =>
    match w.cont .main, w.pools r with
    | .destroy r' :: rest, some p =>
      if r' = r ∧ p.cleanups = [] ∧ w.core.pc .main = .out then
        some ((w.setPool r { p with life := .freed }).setCont .main rest)
      else none
    | _, _ => none
  | .finalize f r rc =>
    match w.pools r with
    | some p =>
      if w.free .main = true ∧ p.life ≠ .freed ∧ (w.fins f).isNone = true then
        some { (w.setPool r { p with cleanups := .fin f :: p.cleanups }).setFin f ⟨true, r, rc⟩ with
          posted := w.posted ++ [f] }
      else none
    | none => none
  | .popPosted f =>
    match w.posted, w.fins f with
    | f' :: rest, some x =>
      if f' = f ∧ w.cont .main = [] ∧ w.core.handler = .idle ∧ w.core.pc .main = .out then
        some ({ w.setFin f { x with posted := false } with posted := rest }.setCont .main [.fini f .entered])
      else none
    | _, _ => none
  | .fini f a =>
    match w.cont .main with
    | .fini f' a' :: rest =>
      if f' = f ∧ w.core.pc .main = .out ∧ w.finiNext f a' = some a then some (w.setCont .main (.fini f a :: rest))
      else none
    | _ => none
  | .finiDone f =>
    match w.cont .main with
    | .fini f' (.draining _) :: rest =>
      if f' = f ∧ w.core.pc .main = .out then some (w.setCont .main rest) else none
    | _ => none

def Init (w : St A P) : Prop := ∃ s, Sched.Init s ∧ w = .start s

def machine (A : AsyncTask) (P : Type) [DecidableEq P] : Lib.Machine (St A P) (Act P) := ⟨Init, step⟩

/-! ## What each step can do -/

/-- The Runnable of `k` is handed to `schedule` by `t` if `handed`. -/
inductive Handed (core : Sched.St P TaskId) (t : Thread P) (k : TaskId) : Bool → Sched.St P TaskId → Prop
  | sent (s : Sched.St P TaskId) : Sched.Step core (.call t k) s → Handed core t k true s
  | kept : Handed core t k false core

inductive Step : St A P → Act P → St A P → Prop
  | core (w : St A P) (e : Sched.Ev P TaskId) (s : Sched.St P TaskId) : inner e = true →
      (atBottom e = true → w.cont .main = []) → Sched.Step w.core e s → Step w (.core e) { w with core := s }
  | runPoll (w : St A P) (k : TaskId) (c : Cell A) (s : Sched.St P TaskId) : w.cells k = some c →
      (A.begin c.st).2 = true → Sched.Step w.core (.run k) s →
      Step w (.run k true) (({ w with core := s }.setCell k { c with st := (A.begin c.st).1 }).push .main (.poll k))
  | runDrop (w : St A P) (k : TaskId) (c : Cell A) (s : Sched.St P TaskId) : w.cells k = some c →
      (A.begin c.st).2 = false → Sched.Step w.core (.run k) s →
      Step w (.run k false)
        (({ w with core := s }.setCell k { c with st := (A.begin c.st).1 }).push .main (.drop k .closed))
  | pending (w : St A P) (k : TaskId) (again : Bool) (c : Cell A) (rest : List Frame) (s : Sched.St P TaskId) :
      w.cells k = some c → w.cont .main = .poll k :: rest → w.core.pc .main = .out →
      (A.bits c.st).closed = false → again = (A.pending c.st).2 → Handed w.core .main k again s →
      Step w (.pollPending k false again)
        (({ w with core := s }.setCell k { c with st := (A.pending c.st).1 }).setCont .main rest)
  | pendingClosed (w : St A P) (k : TaskId) (c : Cell A) (rest : List Frame) : w.cells k = some c →
      w.cont .main = .poll k :: rest → w.core.pc .main = .out → (A.bits c.st).closed = true →
      Step w (.pollPending k true false) (w.setCont .main (.drop k .pending :: rest))
  | ready (w : St A P) (k : TaskId) (rest : List Frame) : w.cont .main = .poll k :: rest → w.core.pc .main = .out →
      Step w (.pollReady k) (w.setCont .main (.drop k .ready :: rest))
  | dropDone (w : St A P) (k : TaskId) (why : Why) (c : Cell A) (rest : List Frame) : w.cells k = some c →
      w.cont .main = .drop k why :: rest → w.core.pc .main = .out →
      Step w (.dropDone k why)
        ((w.setCell k { c with st := A.dropped c.st why, live := false }).setCont .main (.glue :: rest))
  | glueDone (w : St A P) (t : Thread P) (rest : List Frame) : w.cont t = .glue :: rest → w.core.pc t = .out →
      Step w (.glueDone t) (w.setCont t rest)
  | op (w : St A P) (t : Thread P) (k : TaskId) (o : Op) (handed : Bool) (c : Cell A) (h : Handle)
      (s : Sched.St P TaskId) : w.cells k = some c → c.handle.after o = some h → w.free t = true →
      w.mayUse c o = true → handed = (A.op c.st o).2 → Handed w.core t k handed s →
      Step w (.op t k o handed)
        (({ w with core := s }.setCell k { c with st := (A.op c.st o).1, handle := h }).push t .glue)
  | spawn (w : St A P) (t : Thread P) (k : TaskId) (s : Sched.St P TaskId) : w.free t = true → w.cells k = none →
      Sched.Step w.core (.call t k) s →
      Step w (.spawn t k) ({ w with core := s }.setCell k ⟨A.spawn, true, none, true, .own⟩)
  | newRequest (w : St A P) (r : ReqId) (c : ConnId) : w.free .main = true → w.pools r = none →
      Step w (.newRequest r c) (w.setPool r ⟨.live, [], c⟩)
  | requestSpawn (w : St A P) (r : ReqId) (k : TaskId) (p : Pool) (s : Sched.St P TaskId) : w.pools r = some p →
      w.free .main = true → p.life ≠ .freed → w.cells k = none → Sched.Step w.core (.call .main k) s →
      Step w (.requestSpawn r k true)
        (({ w with core := s }.setPool r { p with cleanups := .task k :: p.cleanups }).setCell k
          ⟨A.spawn, true, some r, true, .slot⟩)
  | requestRefused (w : St A P) (r : ReqId) (k : TaskId) (p : Pool) (s : Sched.St P TaskId) : w.pools r = some p →
      w.free .main = true → p.life ≠ .freed → w.cells k = none → Handed w.core .main k (A.op A.spawn .drop).2 s →
      Step w (.requestSpawn r k false)
        (({ w with core := s }.setCell k ⟨(A.op A.spawn .drop).1, true, some r, false, .gone⟩).push .main
          (.drop k .runnable))
  | addCleanup (w : St A P) (r : ReqId) (p : Pool) : w.pools r = some p → w.free .main = true → p.life ≠ .freed →
      Step w (.addCleanup r) (w.setPool r { p with cleanups := .other :: p.cleanups })
  | destroyPool (w : St A P) (r : ReqId) (p : Pool) : w.pools r = some p → w.free .main = true → p.life = .live →
      Step w (.destroyPool r) ((w.setPool r { p with life := .destroying }).push .main (.destroy r))
  | cleanupTask (w : St A P) (r : ReqId) (k : TaskId) (handed : Bool) (p : Pool) (cs : List Cleanup) (rest : List Frame)
      (c : Cell A) (s : Sched.St P TaskId) : w.cont .main = .destroy r :: rest → w.core.pc .main = .out →
      w.pools r = some p → p.cleanups = .task k :: cs → w.cells k = some c → c.handle = .slot →
      handed = (A.op c.st .drop).2 → Handed w.core .main k handed s →
      Step w (.cleanup r (.task k) handed)
        ((({ w with core := s }.setPool r { p with cleanups := cs }).setCell k
          { c with st := (A.op c.st .drop).1, handle := .gone }).push .main .glue)
  | cleanupTaken (w : St A P) (r : ReqId) (k : TaskId) (p : Pool) (cs : List Cleanup) (rest : List Frame) (c : Cell A) :
      w.cont .main = .destroy r :: rest → w.core.pc .main = .out → w.pools r = some p →
      p.cleanups = .task k :: cs → w.cells k = some c → c.handle ≠ .slot →
      Step w (.cleanup r (.task k) false) (w.setPool r { p with cleanups := cs })
  | cleanupFin (w : St A P) (r : ReqId) (f : FinId) (p : Pool) (cs : List Cleanup) (rest : List Frame)
      (x : Finalization) : w.cont .main = .destroy r :: rest → w.core.pc .main = .out → w.pools r = some p →
      p.cleanups = .fin f :: cs → w.fins f = some x →
      Step w (.cleanup r (.fin f) false)
        { (w.setPool r { p with cleanups := cs }).setFin f { x with posted := false } with
          posted := if x.posted then w.posted.erase f else w.posted }
  | cleanupOther (w : St A P) (r : ReqId) (p : Pool) (cs : List Cleanup) (rest : List Frame) :
      w.cont .main = .destroy r :: rest → w.core.pc .main = .out → w.pools r = some p → p.cleanups = .other :: cs →
      Step w (.cleanup r .other false) ((w.setPool r { p with cleanups := cs }).push .main .glue)
  | freePool (w : St A P) (r : ReqId) (p : Pool) (rest : List Frame) : w.cont .main = .destroy r :: rest →
      w.core.pc .main = .out → w.pools r = some p → p.cleanups = [] →
      Step w (.freePool r) ((w.setPool r { p with life := .freed }).setCont .main rest)
  | finalize (w : St A P) (f : FinId) (r : ReqId) (rc : Int) (p : Pool) : w.pools r = some p → w.free .main = true →
      p.life ≠ .freed → w.fins f = none →
      Step w (.finalize f r rc)
        { (w.setPool r { p with cleanups := .fin f :: p.cleanups }).setFin f ⟨true, r, rc⟩ with
          posted := w.posted ++ [f] }
  | popPosted (w : St A P) (f : FinId) (rest : List FinId) (x : Finalization) : w.posted = f :: rest →
      w.fins f = some x → w.cont .main = [] → w.core.handler = .idle → w.core.pc .main = .out →
      Step w (.popPosted f)
        ({ w.setFin f { x with posted := false } with posted := rest }.setCont .main [.fini f .entered])
  | fini (w : St A P) (f : FinId) (a a' : FiniAt) (rest : List Frame) : w.cont .main = .fini f a :: rest →
      w.core.pc .main = .out → w.finiNext f a = some a' →
      Step w (.fini f a') (w.setCont .main (.fini f a' :: rest))
  | finiDone (w : St A P) (f : FinId) (c : ConnId) (rest : List Frame) : w.cont .main = .fini f (.draining c) :: rest →
      w.core.pc .main = .out → Step w (.finiDone f) (w.setCont .main rest)

theorem hand_inv {w : St A P} {t : Thread P} {k : TaskId} {handed : Bool} {s : Sched.St P TaskId}
    (h : w.hand t k handed = some s) : Handed w.core t k handed s := by
  cases handed with
  | true => exact .sent s (Sched.step_inv h)
  | false => cases h; exact .kept

theorem step_inv {w w' : St A P} {a : Act P} (h : step w a = some w') : Step w a w' := by
  cases a with
  | core e =>
    simp only [step, Option.ite_none_right_eq_some, Option.map_eq_some_iff] at h
    obtain ⟨⟨h1, h2⟩, s, hs, rfl⟩ := h
    exact .core w e s h1 h2 (Sched.step_inv hs)
  | run k polls =>
    simp only [step] at h
    split at h
    · rename_i c hc
      simp only [Option.ite_none_right_eq_some, Option.map_eq_some_iff] at h
      obtain ⟨h1, s, hs, rfl⟩ := h
      cases polls with
      | true => exact .runPoll w k c s hc h1.symm (Sched.step_inv hs)
      | false => exact .runDrop w k c s hc h1.symm (Sched.step_inv hs)
    · cases h
  | pollPending k closed again =>
    simp only [step] at h
    split at h
    · rename_i c k' rest hc hf
      simp only [Option.ite_none_right_eq_some] at h
      obtain ⟨⟨rfl, hp, h1⟩, h⟩ := h
      cases closed with
      | true =>
        simp only [if_true, Option.ite_none_right_eq_some, Option.some.injEq] at h
        obtain ⟨rfl, rfl⟩ := h
        exact .pendingClosed w k' c rest hc hf hp h1.symm
      | false =>
        simp only [Bool.false_eq_true, if_false, Option.ite_none_right_eq_some, Option.map_eq_some_iff] at h
        obtain ⟨rfl, s, hs, rfl⟩ := h
        exact .pending w k' _ c rest s hc hf hp h1.symm rfl (hand_inv hs)
    · cases h
  | pollReady k =>
    simp only [step] at h
    split at h
    · rename_i k' rest hf
      simp only [Option.ite_none_right_eq_some, Option.some.injEq] at h
      obtain ⟨⟨rfl, hp⟩, rfl⟩ := h
      exact .ready w k' rest hf hp
    · cases h
  | dropDone k why =>
    simp only [step] at h
    split at h
    · rename_i c k' why' rest hc hf
      simp only [Option.ite_none_right_eq_some, Option.some.injEq] at h
      obtain ⟨⟨rfl, rfl, hp⟩, rfl⟩ := h
      exact .dropDone w k' why' c rest hc hf hp
    · cases h
  | glueDone t =>
    simp only [step] at h
    split at h
    · rename_i rest hf
      simp only [Option.ite_none_right_eq_some, Option.some.injEq] at h
      obtain ⟨hp, rfl⟩ := h
      exact .glueDone w t rest hf hp
    · cases h
  | op t k o handed =>
    simp only [step] at h
    split at h
    · rename_i c hc
      split at h
      · rename_i hd hh
        simp only [Option.ite_none_right_eq_some, Option.map_eq_some_iff] at h
        obtain ⟨⟨h1, h2, rfl⟩, s, hs, rfl⟩ := h
        exact .op w t k o _ c hd s hc hh h1 h2 rfl (hand_inv hs)
      · cases h
    · cases h
  | spawn t k =>
    simp only [step, Option.ite_none_right_eq_some, Option.map_eq_some_iff, Option.isNone_iff_eq_none] at h
    obtain ⟨⟨h1, h2⟩, s, hs, rfl⟩ := h
    exact .spawn w t k s h1 h2 (Sched.step_inv hs)
  | newRequest r c =>
    simp only [step, Option.ite_none_right_eq_some, Option.some.injEq, Option.isNone_iff_eq_none] at h
    obtain ⟨⟨h1, h2⟩, rfl⟩ := h
    exact .newRequest w r c h1 h2
  | requestSpawn r k ok =>
    simp only [step] at h
    split at h
    · rename_i p hp
      simp only [Option.ite_none_right_eq_some, Option.isNone_iff_eq_none] at h
      obtain ⟨⟨h1, h2, h3⟩, h⟩ := h
      cases ok with
      | true =>
        simp only [if_true, Option.map_eq_some_iff] at h
        obtain ⟨s, hs, rfl⟩ := h
        exact .requestSpawn w r k p s hp h1 h2 h3 (Sched.step_inv hs)
      | false =>
        simp only [Bool.false_eq_true, if_false, Option.map_eq_some_iff] at h
        obtain ⟨s, hs, rfl⟩ := h
        exact .requestRefused w r k p s hp h1 h2 h3 (hand_inv hs)
    · cases h
  | addCleanup r =>
    simp only [step] at h
    split at h
    · rename_i p hp
      simp only [Option.ite_none_right_eq_some, Option.some.injEq] at h
      obtain ⟨⟨h1, h2⟩, rfl⟩ := h
      exact .addCleanup w r p hp h1 h2
    · cases h
  | destroyPool r =>
    simp only [step] at h
    split at h
    · rename_i p hp
      simp only [Option.ite_none_right_eq_some, Option.some.injEq] at h
      obtain ⟨⟨h1, h2⟩, rfl⟩ := h
      exact .destroyPool w r p hp h1 h2
    · cases h
  | cleanup r c handed =>
    simp only [step] at h
    split at h
    · rename_i r' rest p hf hp
      split at h
      · rename_i c' cs hcs
        simp only [Option.ite_none_right_eq_some] at h
        obtain ⟨⟨rfl, rfl, ho⟩, h⟩ := h
        cases c' with
        | task k =>
          simp only [cleanupStep] at h
          split at h
          · rename_i c hc
            split at h
            · rename_i hs
              simp only [Option.ite_none_right_eq_some, Option.map_eq_some_iff] at h
              obtain ⟨rfl, s, hs', rfl⟩ := h
              exact .cleanupTask w r' k _ p cs rest c s hf ho hp hcs hc hs rfl (hand_inv hs')
            · rename_i hs
              simp only [Option.ite_none_right_eq_some, Option.some.injEq] at h
              obtain ⟨rfl, rfl⟩ := h
              exact .cleanupTaken w r' k p cs rest c hf ho hp hcs hc hs
          · cases h
        | fin f =>
          cases handed with
          | true => cases h
          | false =>
            simp only [cleanupStep] at h
            split at h
            · rename_i x hx
              cases h
              exact .cleanupFin w r' f p cs rest x hf ho hp hcs hx
            · cases h
        | other =>
          cases handed with
          | true => cases h
          | false => cases h; exact .cleanupOther w r' p cs rest hf ho hp hcs
      · cases h
    · cases h
  | freePool r =>
    simp only [step] at h
    split at h
    · rename_i r' rest p hf hp
      simp only [Option.ite_none_right_eq_some, Option.some.injEq] at h
      obtain ⟨⟨rfl, h1, h2⟩, rfl⟩ := h
      exact .freePool w r' p rest hf h2 hp h1
    · cases h
  | finalize f r rc =>
    simp only [step] at h
    split at h
    · rename_i p hp
      simp only [Option.ite_none_right_eq_some, Option.some.injEq, Option.isNone_iff_eq_none] at h
      obtain ⟨⟨h1, h2, h3⟩, rfl⟩ := h
      exact .finalize w f r rc p hp h1 h2 h3
    · cases h
  | popPosted f =>
    simp only [step] at h
    split at h
    · rename_i f' rest x hl hx
      simp only [Option.ite_none_right_eq_some, Option.some.injEq] at h
      obtain ⟨⟨rfl, h1, h2, h3⟩, rfl⟩ := h
      exact .popPosted w f' rest x hl hx h1 h2 h3
    · cases h
  | fini f a =>
    simp only [step] at h
    split at h
    · rename_i f' a' rest hf
      simp only [Option.ite_none_right_eq_some, Option.some.injEq] at h
      obtain ⟨⟨rfl, h1, h2⟩, rfl⟩ := h
      exact .fini w f' a' a rest hf h1 h2
    · cases h
  | finiDone f =>
    simp only [step] at h
    split at h
    · rename_i f' c rest hf
      simp only [Option.ite_none_right_eq_some, Option.some.injEq] at h
      obtain ⟨⟨rfl, h1⟩, rfl⟩ := h
      exact .finiDone w f' c rest hf h1
    · cases h

end NgxTickle.Worker
