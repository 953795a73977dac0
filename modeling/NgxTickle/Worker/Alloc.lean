/-
  NgxTickle.Worker.Alloc — `finalize_request` by its memory accesses, over an allocator
  that may refuse (`src/finalize.rs`: `finalize_request`, `Finalization::drop`).

  `Pool::allocate` returns a slot that was free, holding the value, with its cleanup
  registered; or it drops the value and returns null. `finalize_request` writes the
  event's data pointer through what it got without looking at it, so it does what it is
  for exactly when the allocator does not refuse (`finalize_survives_iff`). Where it
  does, the step is the worker's `finalize` (`finalize_allocated`).
-/

import NgxTickle.Worker.Model

namespace NgxTickle.Worker

open NgxTickle.Task

/-- The handlers of this crate's posted events. -/
inductive Callback where
  | fini
  deriving DecidableEq, Repr

/-- `ngx_event_t`. A null `data` or `handler` is none. -/
structure Event where
  data : Option FinId
  handler : Option Callback
  posted : Bool
  deriving DecidableEq, Repr

def Event.zeroed : Event := ⟨none, none, false⟩

/-- A Finalization in memory, with its event. -/
structure FinSlot where
  event : Event
  request : ReqId
  rc : Int
  deriving DecidableEq, Repr

structure Mem where
  slots : FinId → Option FinSlot
  /-- `ngx_posted_events`. -/
  queue : List FinId
  /-- The cleanups of the request's pool. -/
  cleanups : List Cleanup

/-- The slot that `Pool::allocate` returns; or null, with the place where the value is dropped. -/
inductive Outcome (m : Mem) where
  | null (place : FinId)
  | slot (f : FinId) (free : m.slots f = none)

/-- Memory accesses that end the process. -/
inductive Fault where
  | null
  | dangling
  deriving DecidableEq, Repr

/-- `Finalization::drop`: a posted event is unlinked. -/
def FinSlot.drop (x : FinSlot) (place : FinId) (m : Mem) : Mem :=
  if x.event.posted then { m with queue := m.queue.erase place } else m

namespace Mem

def put (m : Mem) (f : FinId) (x : FinSlot) : Mem := { m with slots := Function.update m.slots f (some x) }

/-- `Pool::allocate`. -/
def allocate (m : Mem) (x : FinSlot) : Outcome m → Mem × Option FinId
  | .null place => (x.drop place m, none)
  | .slot f _ => ({ m.put f x with cleanups := .fin f :: m.cleanups }, some f)

/-- An update through a pointer. -/
def write (m : Mem) (p : Option FinId) (g : FinSlot → FinSlot) : Except Fault Mem :=
  match p with
  | none => .error .null
  | some f =>
    match m.slots f with
    | some x => .ok (m.put f (g x))
    | none => .error .dangling

/-- `ngx_post_event`: an event that is posted already stays where it is. -/
def post (m : Mem) (p : Option FinId) : Except Fault Mem :=
  match p with
  | none => .error .null
  | some f =>
    match m.slots f with
    | some x =>
      if x.event.posted then .ok m
      else .ok { m.put f { x with event.posted := true } with queue := m.queue ++ [f] }
    | none => .error .dangling

end Mem

def finalize_request (m : Mem) (request : ReqId) (rc : Int) (o : Outcome m) : Except Fault Mem := do
  let event := { Event.zeroed with handler := some .fini }
  let (m, fin) := m.allocate ⟨event, request, rc⟩ o
  let m ← m.write fin fun x => { x with event.data := fin }
  m.post fin

/-- One event more in the queue, whose data pointer is its own Finalization, holding the
    request and `rc`; everything else in memory as before. -/
def Posted (m m' : Mem) (request : ReqId) (rc : Int) : Prop :=
  ∃ f, m'.queue = m.queue ++ [f] ∧ m.slots f = none ∧ (∀ g, g ≠ f → m'.slots g = m.slots g) ∧
    ∃ x, m'.slots f = some x ∧ x.event.data = some f ∧ x.event.posted = true ∧ x.request = request ∧ x.rc = rc

/-- It returns, having posted the event or having changed no event and no queue. -/
def Survives (m : Mem) (request : ReqId) (rc : Int) (o : Outcome m) : Prop :=
  ∃ m', finalize_request m request rc o = .ok m' ∧
    (Posted m m' request rc ∨ m'.queue = m.queue ∧ m'.slots = m.slots)

def Outcome.isSlot {m : Mem} : Outcome m → Bool
  | .null _ => false
  | .slot .. => true

/-- With a slot, the Finalization is built in it and its event linked. -/
theorem finalize_slot (m : Mem) (request : ReqId) (rc : Int) (f : FinId) (free : m.slots f = none) :
    finalize_request m request rc (.slot f free) =
      .ok ⟨Function.update m.slots f (some ⟨⟨some f, some .fini, true⟩, request, rc⟩), m.queue ++ [f],
        .fin f :: m.cleanups⟩ := by
  simp [finalize_request, Mem.allocate, Mem.write, Mem.post, Mem.put, Event.zeroed, bind, Except.bind]

/-- With null, the value is dropped unposted and the next access is through null. -/
theorem finalize_null (m : Mem) (request : ReqId) (rc : Int) (place : FinId) :
    finalize_request m request rc (.null place) = .error .null := rfl

/-- `finalize_request` posts its event, or leaves everything as it was, exactly when the
    allocator returns a slot. -/
theorem finalize_survives_iff (m : Mem) (request : ReqId) (rc : Int) (o : Outcome m) :
    Survives m request rc o ↔ o.isSlot = true := by
  cases o with
  | null place =>
    constructor
    · intro h
      obtain ⟨m', h, -⟩ := h
      rw [finalize_null] at h
      cases h
    · intro h
      cases h
  | slot f free =>
    refine ⟨fun _ => rfl, fun _ => ⟨_, finalize_slot m request rc f free, Or.inl ⟨f, rfl, free, ?_, ?_⟩⟩⟩
    · intro g hg
      exact Function.update_of_ne hg _ _
    · exact ⟨_, Function.update_self _ _ _, rfl, rfl, rfl, rfl⟩

/-- An empty queue, and an allocator that refuses. -/
theorem finalize_writes_through_null :
    ∃ o : Outcome ⟨fun _ => none, [], []⟩, ¬ Survives ⟨fun _ => none, [], []⟩ 1 500 o ∧
      finalize_request ⟨fun _ => none, [], []⟩ 1 500 o = .error .null := by
  refine ⟨.null 0, ?_, rfl⟩
  intro h
  obtain ⟨m', h, -⟩ := h
  cases h

/-! ## The worker's step -/

section

variable {A : AsyncTask} {P : Type} [DecidableEq P]

/-- A worker's Finalizations and posted queue, and the cleanups of one pool. -/
def memOf (w : St A P) (p : Pool) : Mem where
  slots f := (w.fins f).map fun x => ⟨⟨some f, some .fini, x.posted⟩, x.request, x.rc⟩
  queue := w.posted
  cleanups := p.cleanups

/-- The worker's `finalize` is `finalize_request` with a slot. -/
theorem finalize_allocated {w w' : St A P} {f : FinId} {r : ReqId} {rc : Int} (h : Step w (.finalize f r rc) w') :
    ∃ p p' free, w.pools r = some p ∧ w'.pools r = some p' ∧
      finalize_request (memOf w p) r rc (.slot f free) = .ok (memOf w' p') := by
  cases h with
  | finalize _ _ _ p hp _ _ hf =>
    have free : (memOf w p).slots f = none := by simp [memOf, hf]
    refine ⟨p, { p with cleanups := .fin f :: p.cleanups }, free, hp, Function.update_self _ _ _, ?_⟩
    rw [finalize_slot]
    simp only [memOf, Except.ok.injEq, Mem.mk.injEq, and_true]
    funext g
    by_cases hg : g = f
    · subst hg; simp
    · simp [Function.update_of_ne hg]

end

end NgxTickle.Worker
