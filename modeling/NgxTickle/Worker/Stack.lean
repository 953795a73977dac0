/-
  NgxTickle.Worker.Stack — what is on the stacks: futures are polled and dropped on the
  main thread, directly under the `r.run()` of `async_handler`, one at a time.

  The invariant (`Stacked`): a poll, and a drop that ends a run, lies at the bottom of
  the main thread's stack, over a handler that runs this very task; `fini` lies at the
  bottom, over the event loop; only code that may call back, and `ngx_destroy_pool`,
  carry a frame; while the handler is in its own code the stack is empty; the other
  threads only ever hold `async_task`'s own code. The one drop that is elsewhere is the
  Runnable's of a refused `RequestSpawn::spawn` (`Refused`).
-/

import NgxTickle.Worker.Model

namespace NgxTickle.Worker

open NgxTickle.Task
open NgxTickle.Sched (Thread Pc Handler)

/-- The future whose code the frame runs. -/
def Frame.code : Frame → Option TaskId
  | .poll k | .drop k _ => some k
  | _ => none

/-- Frames that may have another above them. -/
def Frame.carries : Frame → Bool
  | .destroy _ => true
  | f => f.user

/-- What a frame of the main thread's stack lies on. -/
def Frame.On (h : Handler TaskId) (rest : List Frame) : Frame → Prop
  | .poll k | .drop k .closed | .drop k .pending | .drop k .ready => rest = [] ∧ h.inRun = [k]
  | .fini _ _ => rest = [] ∧ h = .idle
  | _ => True

def Based (h : Handler TaskId) : List Frame → Prop
  | [] => True
  | f :: rest => f.On h rest ∧ (∀ g, rest.head? = some g → g.carries = true) ∧ Based h rest

variable {A : AsyncTask} {P : Type}

structure Stacked (w : St A P) : Prop where
  based : Based w.core.handler (w.cont .main)
  own : w.core.handler.open_ = false → w.cont .main = []
  other : ∀ p, ∀ f ∈ w.cont (.other p), f = .glue

theorem based_single {h : Handler TaskId} {f : Frame} {l : List Frame} (hf : f.On h l) (hl : l = []) :
    Based h (f :: l) := by
  subst hl
  exact ⟨hf, fun g hg => (nomatch hg), trivial⟩

/-- The frame of a refused spawn's Runnable belongs to a task without a handle. -/
def Refused (w : St A P) : Prop :=
  ∀ k, .drop k .runnable ∈ w.cont .main → ∃ c, w.cells k = some c ∧ c.ok = false

/-! ## The scheduler's steps keep the stacks -/

variable [DecidableEq P]

/-- Outside its own code the handler only moves at a dispatch and at the return of a run. -/
theorem core_handler {s s' : Sched.St P TaskId} {e : Sched.Ev P TaskId} (h : Sched.Step s e s')
    (ho : s.handler.open_ = true) (hb : atBottom e = false) : s'.handler = s.handler := by
  cases h with
  | enter => cases hb
  | retLimit => cases hb
  | retNext => cases hb
  | drain hh => rw [hh] at ho; cases ho
  | clear hh => rw [hh] at ho; cases ho
  | load hh => rw [hh] at ho; cases ho
  | empty limit hh _ => rw [hh] at ho; cases ho
  | nonempty limit hh _ => rw [hh] at ho; cases ho
  | recvNone limit cnt hh _ => rw [hh] at ho; cases ho
  | recvSome limit cnt r rest hh _ => rw [hh] at ho; cases ho
  | run limit cnt r hh => rw [hh] at ho; cases ho
  | tickle hh => rw [hh] at ho; cases ho
  | _ => rfl

theorem call_handler {s s' : Sched.St P TaskId} {t : Thread P} {k : TaskId} (h : Sched.Step s (.call t k) s') :
    s'.handler = s.handler := by
  cases h with
  | call _ _ _ _ => rfl

theorem Handed.handler {s s' : Sched.St P TaskId} {t : Thread P} {k : TaskId} {handed : Bool}
    (h : Handed s t k handed s') : s'.handler = s.handler := by
  cases h with
  | sent _ h => exact call_handler h
  | kept => rfl

/-- `r.run()` begins from the handler's own code. -/
theorem run_handler {s s' : Sched.St P TaskId} {k : TaskId} (h : Sched.Step s (.run k) s') :
    s.handler.open_ = false ∧ s'.handler.open_ = true ∧ s'.handler.inRun = [k] := by
  cases h with
  | run limit cnt r hh => exact ⟨by rw [hh]; rfl, rfl, rfl⟩

omit [DecidableEq P] in
theorem Stacked.open_ {w : St A P} (hw : Stacked w) {f : Frame} {rest : List Frame} (hf : w.cont .main = f :: rest) :
    w.core.handler.open_ = true := by
  by_cases h : w.core.handler.open_ = true
  · exact h
  · rw [hw.own (by simpa using h)] at hf
    cases hf

omit [DecidableEq P] in
/-- Where main runs code of others: on the event loop, or on a frame of theirs. -/
theorem free_main {w : St A P} (h : w.free .main = true) :
    w.core.pc .main = .out ∧
      (w.cont .main = [] ∧ w.core.handler = .idle ∨ ∃ f rest, w.cont .main = f :: rest ∧ f.user = true) := by
  simp only [St.free, Bool.and_eq_true, decide_eq_true_eq] at h
  obtain ⟨h1, h2⟩ := h
  refine ⟨h1, ?_⟩
  cases hc : w.cont .main with
  | nil => rw [hc] at h2; exact Or.inl ⟨rfl, by simpa using h2⟩
  | cons f rest => rw [hc] at h2; exact Or.inr ⟨f, rest, rfl, h2⟩

omit [DecidableEq P] in
/-- The event loop or a frame that carries others. -/
theorem carries_of_user {f : Frame} (h : f.user = true) : f.carries = true := by
  cases f <;> first | exact h | rfl

omit [DecidableEq P] in
theorem Stacked.free_open {w : St A P} (hw : Stacked w) (h : w.free .main = true) : w.core.handler.open_ = true := by
  rcases (free_main h).2 with ⟨_, hh⟩ | ⟨f, rest, hf, _⟩
  · rw [hh]; rfl
  · exact hw.open_ hf

omit [DecidableEq P] in
theorem free_carries {w : St A P} (h : w.free .main = true) :
    ∀ g, (w.cont .main).head? = some g → g.carries = true := by
  intro g hg
  rcases (free_main h).2 with ⟨hc, _⟩ | ⟨f, rest, hf, hu⟩
  · rw [hc] at hg; cases hg
  · rw [hf] at hg; cases hg; exact carries_of_user hu

omit [DecidableEq P] in
/-- A step that leaves the handler and the stacks alone. -/
theorem Stacked.congr {w w' : St A P} (hw : Stacked w) (hh : w'.core.handler = w.core.handler) (hc : w'.cont = w.cont) :
    Stacked w' :=
  ⟨by rw [hh, hc]; exact hw.based, by rw [hh, hc]; exact hw.own, by rw [hc]; exact hw.other⟩

/-- A step of the main thread outside the handler's own code. -/
theorem Stacked.main {w w' : St A P} {l : List Frame} (hw : Stacked w) (ho : w'.core.handler.open_ = true)
    (hc : w'.cont = Function.update w.cont .main l) (hb : Based w'.core.handler l) : Stacked w' := by
  refine ⟨by simpa [hc] using hb, fun h => ?_, fun p => ?_⟩
  · rw [ho] at h; cases h
  · simpa [hc] using hw.other p

omit [DecidableEq P] in
theorem Stacked.tail {w : St A P} (hw : Stacked w) {f : Frame} {rest : List Frame} (hf : w.cont .main = f :: rest) :
    f.On w.core.handler rest ∧ (∀ g, rest.head? = some g → g.carries = true) ∧ Based w.core.handler rest := by
  have := hw.based
  rw [hf] at this
  exact this

/-- A frame that lies on anything is pushed where others are allowed. -/
theorem Stacked.push {w w' : St A P} {f : Frame} (hw : Stacked w) (hh : w'.core.handler = w.core.handler)
    (ho : w.core.handler.open_ = true) (hc : w'.cont = Function.update w.cont .main (f :: w.cont .main))
    (hf : f.On w.core.handler (w.cont .main)) (hg : ∀ g, (w.cont .main).head? = some g → g.carries = true) :
    Stacked w' :=
  hw.main (by rw [hh]; exact ho) hc (by rw [hh]; exact ⟨hf, hg, hw.based⟩)

/-- The frame on top gives way to another that lies where it lay. -/
theorem Stacked.replace {w w' : St A P} {f f' : Frame} {rest : List Frame} (hw : Stacked w)
    (hh : w'.core.handler = w.core.handler) (hf : w.cont .main = f :: rest)
    (hc : w'.cont = Function.update w.cont .main (f' :: rest))
    (hon : f.On w.core.handler rest → f'.On w.core.handler rest) : Stacked w' := by
  obtain ⟨h1, h2, h3⟩ := hw.tail hf
  exact hw.main (by rw [hh]; exact hw.open_ hf) hc (by rw [hh]; exact ⟨hon h1, h2, h3⟩)

theorem Stacked.pop {w w' : St A P} {f : Frame} {rest : List Frame} (hw : Stacked w)
    (hh : w'.core.handler = w.core.handler) (hf : w.cont .main = f :: rest)
    (hc : w'.cont = Function.update w.cont .main rest) : Stacked w' :=
  hw.main (by rw [hh]; exact hw.open_ hf) hc (by rw [hh]; exact (hw.tail hf).2.2)

/-- A step on another thread's stack. -/
theorem Stacked.thread {w w' : St A P} {p : P} {l : List Frame} (hw : Stacked w)
    (hh : w'.core.handler = w.core.handler) (hc : w'.cont = Function.update w.cont (.other p) l)
    (hl : ∀ f ∈ l, f = .glue) : Stacked w' := by
  refine ⟨?_, ?_, fun q f hq => ?_⟩
  · rw [hh, hc]; simpa using hw.based
  · rw [hh, hc]; simpa using hw.own
  · rw [hc] at hq
    by_cases hpq : q = p
    · subst hpq
      rw [Function.update_self] at hq
      exact hl f hq
    · rw [Function.update_of_ne (by simpa using hpq)] at hq
      exact hw.other q f hq

/-- `async_task`'s code on any thread's stack. -/
theorem Stacked.push_glue {w w' : St A P} {t : Thread P} (hw : Stacked w) (hh : w'.core.handler = w.core.handler)
    (hf : w.free t = true) (hc : w'.cont = Function.update w.cont t (.glue :: w.cont t)) : Stacked w' := by
  cases t with
  | main => exact hw.push hh (hw.free_open hf) hc trivial (free_carries hf)
  | other p =>
    refine hw.thread hh hc fun f hm => ?_
    rcases List.mem_cons.mp hm with rfl | hm
    · rfl
    · exact hw.other p f hm

theorem Stacked.pop_glue {w w' : St A P} {t : Thread P} {rest : List Frame} (hw : Stacked w)
    (hh : w'.core.handler = w.core.handler) (hf : w.cont t = .glue :: rest)
    (hc : w'.cont = Function.update w.cont t rest) : Stacked w' := by
  cases t with
  | main => exact hw.pop hh hf hc
  | other p => exact hw.thread hh hc fun f hm => hw.other p f (by rw [hf]; exact List.mem_cons_of_mem _ hm)

/-- The handler's own steps happen over an empty stack. -/
theorem stacked_core {w : St A P} {e : Sched.Ev P TaskId} {s : Sched.St P TaskId} (hw : Stacked w)
    (hb : atBottom e = true → w.cont .main = []) (h : Sched.Step w.core e s) : Stacked { w with core := s } := by
  by_cases hc : w.cont .main = []
  · exact ⟨by rw [show ({ w with core := s } : St A P).cont = w.cont from rfl, hc]; trivial, fun _ => hc, hw.other⟩
  · have ho : w.core.handler.open_ = true := by
      by_cases ho : w.core.handler.open_ = true
      · exact ho
      · exact absurd (hw.own (by simpa using ho)) hc
    have ha : atBottom e = false := by
      by_cases ha : atBottom e = true
      · exact absurd (hb ha) hc
      · simpa using ha
    exact hw.congr (core_handler h ho ha) rfl

theorem stacked_step {w w' : St A P} {a : Act P} (hw : Stacked w) (h : Step w a w') : Stacked w' := by
  cases h with
  | core e s _ hb hs => exact stacked_core hw hb hs
  | runPoll k c s hc hp hs =>
    obtain ⟨h1, h2, h3⟩ := run_handler hs
    have h0 := hw.own h1
    exact hw.main h2 rfl (based_single ⟨h0, h3⟩ h0)
  | runDrop k c s hc hp hs =>
    obtain ⟨h1, h2, h3⟩ := run_handler hs
    have h0 := hw.own h1
    exact hw.main h2 rfl (based_single ⟨h0, h3⟩ h0)
  | pending k again c rest s hc hf _ _ _ hs => exact hw.pop hs.handler hf rfl
  | pendingClosed k c rest hc hf _ _ => exact hw.replace rfl hf rfl fun h => h
  | ready k rest hf _ => exact hw.replace rfl hf rfl fun h => h
  | dropDone k why c rest hc hf _ => exact hw.replace rfl hf rfl fun _ => trivial
  | glueDone t rest hf _ => exact hw.pop_glue rfl hf rfl
  | op t k o handed c h s hc _ hf _ _ hs => exact hw.push_glue hs.handler hf rfl
  | spawn t k s _ _ hs => exact hw.congr (call_handler hs) rfl
  | newRequest r c _ _ => exact hw.congr rfl rfl
  | requestSpawn r k p s _ _ _ _ hs => exact hw.congr (call_handler hs) rfl
  | requestRefused r k p s _ hf _ _ hs =>
    exact hw.push hs.handler (hw.free_open hf) rfl trivial (free_carries hf)
  | addCleanup r p _ _ _ => exact hw.congr rfl rfl
  | destroyPool r p _ hf _ => exact hw.push rfl (hw.free_open hf) rfl trivial (free_carries hf)
  | cleanupTask r k handed p cs rest c s hf _ _ _ _ _ _ hs =>
    exact hw.push hs.handler (hw.open_ hf) rfl trivial (by rw [hf]; intro g hg; cases hg; rfl)
  | cleanupTaken r k p cs rest c _ _ _ _ _ _ => exact hw.congr rfl rfl
  | cleanupFin r f p cs rest x _ _ _ _ _ => exact hw.congr rfl rfl
  | cleanupOther r p cs rest hf _ _ _ =>
    exact hw.push rfl (hw.open_ hf) rfl trivial (by rw [hf]; intro g hg; cases hg; rfl)
  | freePool r p rest hf _ _ _ => exact hw.pop rfl hf rfl
  | finalize f r rc p _ _ _ _ => exact hw.congr rfl rfl
  | popPosted f rest x _ _ hc hh _ =>
    exact hw.main (congrArg Handler.open_ hh) rfl (based_single (f := .fini f .entered) ⟨rfl, hh⟩ rfl)
  | fini f a a' rest hf _ _ => exact hw.replace rfl hf rfl fun h => h
  | finiDone f c rest hf _ => exact hw.pop rfl hf rfl

theorem stacked_invariant : (machine A P).Invariant Stacked := by
  constructor
  · intro w hw
    obtain ⟨s, ⟨cap, hc, rfl⟩, rfl⟩ := hw
    exact ⟨trivial, fun _ => rfl, fun p f hf => by cases hf⟩
  · intro w a w' hw h
    exact stacked_step hw (step_inv h)

/-! ## What a step does to a task -/

/-- A later state of the same task. -/
structure Cell.Later (c c' : Cell A) : Prop where
  ok : c'.ok = c.ok
  req : c'.req = c.req
  closed : (A.bits c.st).closed = true → (A.bits c'.st).closed = true
  done : (A.bits c.st).done = true → (A.bits c'.st).done = true
  completed : (A.bits c.st).completed = true → (A.bits c'.st).completed = true

/-- What the act makes of the task `k`. -/
inductive CellStep (k : TaskId) : Cell A → Act P → Cell A → Prop
  | keep (c : Cell A) (a : Act P) : (∀ why, a ≠ .dropDone k why) → (∀ t o handed, a ≠ .op t k o handed) →
      CellStep k c a c
  | begin (c : Cell A) (polls : Bool) : CellStep k c (.run k polls) { c with st := (A.begin c.st).1 }
  | pending (c : Cell A) (again : Bool) : (A.bits c.st).closed = false →
      CellStep k c (.pollPending k false again) { c with st := (A.pending c.st).1 }
  | dropped (c : Cell A) (why : Why) : CellStep k c (.dropDone k why) { c with st := A.dropped c.st why, live := false }
  | op (c : Cell A) (t : Thread P) (o : Op) (handed : Bool) (h : Handle) : c.handle.after o = some h →
      CellStep k c (.op t k o handed) { c with st := (A.op c.st o).1, handle := h }
  | cleanup (c : Cell A) (r : ReqId) (handed : Bool) : c.handle = .slot →
      CellStep k c (.cleanup r (.task k) handed) { c with st := (A.op c.st .drop).1, handle := .gone }

theorem cell_inv {w w' : St A P} {a : Act P} {k : TaskId} {c : Cell A} (h : Step w a w') (hc : w.cells k = some c) :
    ∃ c', w'.cells k = some c' ∧ CellStep k c a c' := by
  -- a step that leaves the cells alone
  have same : w'.cells = w.cells → (∀ why, a ≠ .dropDone k why) → (∀ t o handed, a ≠ .op t k o handed) →
      ∃ c', w'.cells k = some c' ∧ CellStep k c a c' := by
    intro hw h1 h2
    exact ⟨c, by rw [hw]; exact hc, .keep c a h1 h2⟩
  -- a step on the task `j`
  have set : ∀ {j : TaskId} {d d' : Cell A}, w'.cells = Function.update w.cells j (some d') → w.cells j = some d →
      (j = k → CellStep k d a d') → (j ≠ k → (∀ why, a ≠ .dropDone k why) ∧ ∀ t o handed, a ≠ .op t k o handed) →
      ∃ c', w'.cells k = some c' ∧ CellStep k c a c' := by
    intro j d d' hw hd hself hother
    by_cases hj : j = k
    · subst hj
      rw [hc] at hd
      cases hd
      exact ⟨d', by rw [hw]; simp, hself rfl⟩
    · exact ⟨c, by rw [hw, Function.update_of_ne (Ne.symm hj)]; exact hc, .keep c a (hother hj).1 (hother hj).2⟩
  have fresh : ∀ {j : TaskId} {d : Cell A}, w'.cells = Function.update w.cells j (some d) → w.cells j = none →
      (∀ why, a ≠ .dropDone k why) → (∀ t o handed, a ≠ .op t k o handed) →
      ∃ c', w'.cells k = some c' ∧ CellStep k c a c' := by
    intro j d hw hj h1 h2
    have hk : k ≠ j := fun h => by rw [h, hj] at hc; cases hc
    exact ⟨c, by rw [hw, Function.update_of_ne hk]; exact hc, .keep c a h1 h2⟩
  cases h with
  | runPoll j d s h₀ _ _ => exact set rfl h₀ (fun hj => hj ▸ .begin d true) fun _ => ⟨nofun, nofun⟩
  | runDrop j d s h₀ _ _ => exact set rfl h₀ (fun hj => hj ▸ .begin d false) fun _ => ⟨nofun, nofun⟩
  | pending j again d rest s h₀ _ _ hcl _ _ =>
    exact set rfl h₀ (fun hj => hj ▸ .pending d again hcl) fun _ => ⟨nofun, nofun⟩
  | dropDone j why d rest h₀ _ _ =>
    exact set rfl h₀ (fun hj => hj ▸ .dropped d why) fun hj => ⟨by simp [hj], nofun⟩
  | op t j o handed d h s h₀ hh _ _ _ _ =>
    exact set rfl h₀ (fun hj => hj ▸ .op d t o handed h hh) fun hj => ⟨nofun, by simp [hj]⟩
  | spawn t j s _ h₀ _ => exact fresh rfl h₀ nofun nofun
  | requestSpawn r j p s _ _ _ h₀ _ => exact fresh rfl h₀ nofun nofun
  | requestRefused r j p s _ _ _ h₀ _ => exact fresh rfl h₀ nofun nofun
  | cleanupTask r j handed p cs rest d s _ _ _ _ h₀ hs _ _ =>
    exact set rfl h₀ (fun hj => hj ▸ .cleanup d r handed hs) fun _ => ⟨nofun, nofun⟩
  | _ => exact same rfl nofun nofun

omit [DecidableEq P] in
theorem CellStep.later {k : TaskId} {a : Act P} {c c' : Cell A} (h : CellStep k c a c') : c.Later c' := by
  cases h with
  | keep => exact ⟨rfl, rfl, fun h => h, fun h => h, fun h => h⟩
  | begin polls => exact ⟨rfl, rfl, A.begin_closed, A.begin_done, A.begin_completed⟩
  | pending again hcl =>
    exact ⟨rfl, rfl, fun h => (by rw [hcl] at h; cases h), A.pending_done hcl, A.pending_completed hcl⟩
  | dropped why => exact ⟨rfl, rfl, A.dropped_closed, A.dropped_done, A.dropped_completed⟩
  | op t o handed h hh => exact ⟨rfl, rfl, A.op_closed, A.op_done, A.op_completed⟩
  | cleanup r handed hs => exact ⟨rfl, rfl, A.op_closed, A.op_done, A.op_completed⟩

/-- A task stays itself; its future is dropped where the frame of its drop returns. -/
theorem cell_step {w w' : St A P} {a : Act P} {k : TaskId} {c : Cell A} (h : Step w a w') (hc : w.cells k = some c) :
    ∃ c', w'.cells k = some c' ∧ c.Later c' ∧
      (c'.live = c.live ∨ ∃ why rest, a = .dropDone k why ∧ w.cont .main = .drop k why :: rest ∧ c'.live = false) := by
  obtain ⟨c', hc', hs⟩ := cell_inv h hc
  refine ⟨c', hc', hs.later, ?_⟩
  cases hs with
  | dropped why =>
    cases h with
    | dropDone _ _ d rest _ hf _ => exact Or.inr ⟨why, rest, rfl, hf, rfl⟩
  | _ => exact Or.inl rfl

/-- A task is made by a spawn, with its future: a top-level one, a request's with the
    handle in the slot, or a refused one. -/
theorem cell_born {w w' : St A P} {a : Act P} {k : TaskId} {c : Cell A} (h : Step w a w') (hc : w.cells k = none)
    (hc' : w'.cells k = some c) :
    c.live = true ∧ ((∃ t, a = .spawn t k) ∧ c.req = none ∨
      (∃ r, a = .requestSpawn r k true ∧ c.req = some r) ∧ c.handle = .slot ∨ c.ok = false) := by
  -- a step on a task that is there is on another
  have other : ∀ {j : TaskId} {d d' : Cell A}, w.cells j = some d → w'.cells = Function.update w.cells j (some d') →
      False := by
    intro j d d' hj hw
    have hk : k ≠ j := fun h => by rw [h, hj] at hc; cases hc
    rw [hw, Function.update_of_ne hk, hc] at hc'
    cases hc'
  cases h with
  | spawn t j s _ _ _ =>
    by_cases hj : k = j
    · subst hj; simp at hc'; subst hc'; exact ⟨rfl, Or.inl ⟨⟨t, rfl⟩, rfl⟩⟩
    · simp [hj, hc] at hc'
  | requestSpawn r j p s _ _ _ _ _ =>
    by_cases hj : k = j
    · subst hj; simp at hc'; subst hc'; exact ⟨rfl, Or.inr (Or.inl ⟨⟨r, rfl, rfl⟩, rfl⟩)⟩
    · simp [hj, hc] at hc'
  | requestRefused r j p s _ _ _ _ _ =>
    by_cases hj : k = j
    · subst hj; simp at hc'; subst hc'; exact ⟨rfl, Or.inr (Or.inr rfl)⟩
    · simp [hj, hc] at hc'
  | runPoll j d s h₀ _ _ => exact (other h₀ rfl).elim
  | runDrop j d s h₀ _ _ => exact (other h₀ rfl).elim
  | pending j again d rest s h₀ _ _ _ _ _ => exact (other h₀ rfl).elim
  | dropDone j why d rest h₀ _ _ => exact (other h₀ rfl).elim
  | op t j o handed d h s h₀ _ _ _ _ _ => exact (other h₀ rfl).elim
  | cleanupTask r j handed p cs rest d s _ _ _ _ h₀ _ _ _ => exact (other h₀ rfl).elim
  | _ => exact absurd (hc.symm.trans hc') (by simp)

/-- Over a run a task stays itself too. -/
theorem cell_steps {w w' : St A P} {tr : List (Act P)} {k : TaskId} {c : Cell A} (h : (machine A P).Steps w tr w')
    (hc : w.cells k = some c) : ∃ c', w'.cells k = some c' ∧ c.Later c' := by
  refine Lib.Machine.steps_induction (J := fun _ w => ∃ c', w.cells k = some c' ∧ c.Later c')
    ⟨c, hc, rfl, rfl, fun h => h, fun h => h, fun h => h⟩ ?_ h
  intro tr v a v' _ hi hst
  obtain ⟨d, hd, hl⟩ := hi
  obtain ⟨e, he, hl', -⟩ := cell_step (step_inv hst) hd
  exact ⟨e, he, hl'.ok.trans hl.ok, hl'.req.trans hl.req, fun h => hl'.closed (hl.closed h),
    fun h => hl'.done (hl.done h), fun h => hl'.completed (hl.completed h)⟩

/-! ## Polls and drops -/

theorem Based.suffix {h : Handler TaskId} {pre post : List Frame} (hb : Based h (pre ++ post)) : Based h post := by
  induction pre with
  | nil => exact hb
  | cons g pre ih => exact ih hb.2.2

theorem Based.on {h : Handler TaskId} {f : Frame} {pre post : List Frame} (hb : Based h (pre ++ f :: post)) :
    f.On h post :=
  hb.suffix.1

omit [DecidableEq P] in
/-- A frame that runs a future's code is the last, over the run of its task, unless it
    drops a refused spawn's Runnable. -/
theorem Stacked.code {w : St A P} (hw : Stacked w) (pre post : List Frame) {f : Frame} {k : TaskId}
    (hc : w.cont .main = pre ++ f :: post) (hf : f.code = some k) :
    post = [] ∧ w.core.handler.inRun = [k] ∨ f = .drop k .runnable := by
  have hb := hw.based
  rw [hc] at hb
  have hon := hb.on
  cases f with
  | poll j => cases hf; exact Or.inl hon
  | drop j why =>
    cases hf
    cases why with
    | runnable => exact Or.inr rfl
    | _ => exact Or.inl hon
  | _ => cases hf

/-- The frames of refused spawns are those of tasks without a handle. -/
theorem refused_step {w w' : St A P} {a : Act P} (hr : Refused w) (h : Step w a w') : Refused w' := by
  -- a frame that was there before belongs to the same task
  have old : ∀ k, .drop k .runnable ∈ w.cont .main → ∃ c, w'.cells k = some c ∧ c.ok = false := by
    intro k hk
    obtain ⟨c, hc, ho⟩ := hr k hk
    obtain ⟨c', hc', hl, -⟩ := cell_step h hc
    exact ⟨c', hc', hl.ok.trans ho⟩
  have sub : (∀ k, .drop k .runnable ∈ w'.cont .main → .drop k .runnable ∈ w.cont .main) → Refused w' :=
    fun h k hk => old k (h k hk)
  cases h with
  | core e s _ _ _ => exact sub fun k hk => hk
  | runPoll k' c s _ _ _ => exact sub fun k hk => by simpa using hk
  | runDrop k' c s _ _ _ => exact sub fun k hk => by simpa using hk
  | pending k' again c rest s _ hf _ _ _ _ => exact sub fun k hk => by rw [hf]; simpa using hk
  | pendingClosed k' c rest _ hf _ _ => exact sub fun k hk => by rw [hf]; simpa using hk
  | ready k' rest hf _ => exact sub fun k hk => by rw [hf]; simpa using hk
  | dropDone k' why c rest _ hf _ =>
    exact sub fun k hk => by rw [hf]; exact List.mem_cons_of_mem _ (by simpa using hk)
  | glueDone t rest hf _ =>
    refine sub fun k hk => ?_
    cases t with
    | main => rw [hf]; exact List.mem_cons_of_mem _ (by simpa using hk)
    | other p => simpa using hk
  | op t k' o handed c h s _ _ _ _ _ _ =>
    refine sub fun k hk => ?_
    cases t with
    | main => simpa using hk
    | other p => simpa using hk
  | requestRefused r k' p s _ _ _ h₀ _ =>
    intro k hk
    rcases List.mem_cons.mp (show .drop k .runnable ∈ .drop k' .runnable :: w.cont .main by simpa using hk) with h | h
    · cases h
      exact ⟨_, Function.update_self _ _ _, rfl⟩
    · exact old k h
  | destroyPool r p _ _ _ => exact sub fun k hk => by simpa using hk
  | cleanupTask r k' handed p cs rest c s _ _ _ _ _ _ _ _ => exact sub fun k hk => by simpa using hk
  | cleanupOther r p cs rest _ _ _ _ => exact sub fun k hk => by simpa using hk
  | freePool r p rest hf _ _ _ => exact sub fun k hk => by rw [hf]; exact List.mem_cons_of_mem _ (by simpa using hk)
  | popPosted f rest x _ _ _ _ _ => exact sub fun k hk => by simp at hk
  | fini f a a' rest hf _ _ => exact sub fun k hk => by rw [hf]; simpa using hk
  | finiDone f c rest hf _ => exact sub fun k hk => by rw [hf]; exact List.mem_cons_of_mem _ (by simpa using hk)
  | _ => exact sub fun k hk => hk

theorem refused_invariant : (machine A P).Invariant Refused := by
  constructor
  · intro w hw k hk
    obtain ⟨s, -, rfl⟩ := hw
    cases hk
  · intro w a w' hr h
    exact refused_step hr (step_inv h)

/-- Every poll and every drop of a future that was given to `spawn`, or to a
    `RequestSpawn::spawn` that returned Ok, runs on the main thread, directly under the
    `r.run()` of its task, with no other below or above it; no run begins while one is in
    progress; and a future is dropped there only. -/
theorem polls_exclusive {w : St A P} (h : (machine A P).Reach w) :
    (∀ t f k c, f ∈ w.cont t → f.code = some k → w.cells k = some c → c.ok = true →
      t = .main ∧ w.core.handler.inRun = [k] ∧ ∃ above, w.cont .main = above ++ [f] ∧
        ∀ g ∈ above, ∀ j d, g.code = some j → w.cells j = some d → d.ok = false) ∧
    (∀ k polls w', step w (.run k polls) = some w' → ∀ t, ∀ f ∈ w.cont t, f.code = none) ∧
    ∀ a w' k c c', step w a = some w' → w.cells k = some c → w'.cells k = some c' → c.ok = true →
      c.live = true → c'.live = false →
      ∃ why, a = .dropDone k why ∧ w.cont .main = [.drop k why] ∧ w.core.handler.inRun = [k] := by
  have hw := stacked_invariant.reach h
  have hr := refused_invariant.reach h
  have refused : ∀ k c, .drop k .runnable ∈ w.cont .main → w.cells k = some c → c.ok = false := by
    intro k c hk hc
    obtain ⟨d, hd, ho⟩ := hr k hk
    rw [hc] at hd
    cases hd
    exact ho
  refine ⟨?_, ?_, ?_⟩
  · intro t f k c hf hk hc ho
    cases t with
    | other p => rw [hw.other p f hf] at hk; cases hk
    | main =>
      obtain ⟨above, post, he⟩ := List.append_of_mem hf
      rcases hw.code above post he hk with ⟨rfl, hi⟩ | rfl
      · refine ⟨rfl, hi, above, he, fun g hg j d hj hd => ?_⟩
        obtain ⟨pre, mid, rfl⟩ := List.append_of_mem hg
        rcases hw.code pre (mid ++ [f]) (by simpa using he) hj with ⟨h, -⟩ | rfl
        · simp at h
        · exact refused j d (by rw [he]; simp) hd
      · rw [refused k c hf hc] at ho
        cases ho
  · intro k polls w' hs t f hf
    have h0 : w.cont .main = [] := by
      cases step_inv hs with
      | runPoll _ c s _ _ hr => exact hw.own (run_handler hr).1
      | runDrop _ c s _ _ hr => exact hw.own (run_handler hr).1
    cases t with
    | main => rw [h0] at hf; cases hf
    | other p => rw [hw.other p f hf]; rfl
  · intro a w' k c c' hs hc hc' ho hl hl'
    obtain ⟨d, hd, -, hd'⟩ := cell_step (step_inv hs) hc
    rw [hc'] at hd
    cases hd
    rcases hd' with h | ⟨why, rest, rfl, hf, -⟩
    · rw [h, hl] at hl'
      cases hl'
    · rcases hw.code [] rest hf rfl with ⟨rfl, hi⟩ | h
      · exact ⟨why, rfl, hf, hi⟩
      · cases h
        rw [refused k c (by rw [hf]; exact List.mem_cons_self) hc] at ho
        cases ho

/-- Main spawns task 7; the handler is dispatched and polls it. -/
def firstPoll : List (Act Nat) :=
  [.spawn .main 7, .core (.send .main 7), .core (.cas .main true), .core (.write .main), .core .enter, .core .drain,
   .core .clear, .core (.load 8), .core (.isEmpty false), .core (.tryRecv (some 7)), .run 7 true]

/-- A worker with an fd of capacity 8. -/
def fresh : St .plain Nat := .start (Sched.start [] false 8 (Notify.Fd.new 8 (by decide)))

theorem fresh_init : (machine .plain Nat).init fresh := ⟨_, ⟨8, by decide, rfl⟩, rfl⟩

theorem polls_exclusive_firstPoll :
    ∃ w, (machine .plain Nat).exec fresh firstPoll = some w ∧ .poll 7 ∈ w.cont .main ∧ w.core.handler.inRun = [7] := by
  obtain ⟨w, hw, c, hc, ho, hf⟩ : ∃ w, (machine .plain Nat).exec fresh firstPoll = some w ∧
      ∃ c, w.cells 7 = some c ∧ c.ok = true ∧ .poll 7 ∈ w.cont .main := ⟨_, rfl, _, rfl, rfl, List.mem_cons_self⟩
  have h := polls_exclusive ⟨firstPoll, fresh, fresh_init, Lib.Machine.steps_of_exec hw⟩
  exact ⟨w, hw, hf, (h.1 .main (.poll 7) 7 c hf rfl hc ho).2.1⟩

end NgxTickle.Worker
