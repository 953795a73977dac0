/-
  NgxTickle.Worker.Settle — the worker comes to rest. Where nobody asks it for anything
  more, the steps that are left are bounded (`Due`), and there is always one until the
  worker is at rest (`AtRest`): the scheduler is as `init` left it, no thread is inside
  `schedule` or in a future's code, each task either waits for its Waker or is finished
  with its future dropped, no pool is half destroyed, and no finalization is posted.

  - `comes_to_rest`: from every state of every run, whatever order the threads take,
    the steps of work end, and they end at rest; so no wakeup is lost, no cancelled
    future is kept, no torn-down request is left half freed and no posted finalization
    is forgotten, and nothing waits for something that never comes.

  A destruction is never held up by a cleanup: the tasks that a pool cleans up are there,
  and are of its request (`Registered`).
-/

import NgxTickle.Worker.Due
import NgxTickle.Worker.Finalize
import NgxTickle.Worker.Refine

namespace NgxTickle.Worker

open NgxTickle.Task
open NgxTickle.Sched (Thread Pc Handler Place Placed)

variable {A : AsyncTask} {P : Type}

structure AtRest (w : St A P) : Prop where
  queue : w.core.chan = []
  tickled : w.core.tickled = false
  signal : w.core.fd.readable = false
  handler : w.core.handler = .idle
  outside : ∀ t, w.core.pc t = .out
  returned : ∀ t, w.cont t = []
  /-- What is still there waits for a Waker. -/
  waiting : ∀ k c, w.cells k = some c → c.live = true → (A.bits c.st).Idle
  torndown : ∀ r p, w.pools r = some p → p.life ≠ .destroying
  posted : w.posted = []

/-- The event loop waits for I/O, and nobody is about to notify it. -/
structure Sleeps (w : St A P) : Prop where
  handler : w.core.handler = .idle
  signal : w.core.fd.readable = false
  outside : ∀ t, w.core.pc t = .out
  returned : w.cont .main = []

/-- The tasks that a pool cleans up were spawned on its request. -/
def Registered (w : St A P) : Prop :=
  ∀ r p k, w.pools r = some p → .task k ∈ p.cleanups → ∃ c, w.cells k = some c ∧ c.req = some r

variable [DecidableEq P]

/-! ## What a pool cleans up is there -/

theorem Registered.keep {w w' : St A P} {a : Act P} (h : Registered w) (hst : Step w a w')
    (hp : ∀ r p' k, w'.pools r = some p' → .task k ∈ p'.cleanups →
      (∃ p, w.pools r = some p ∧ .task k ∈ p.cleanups) ∨ ∃ c, w'.cells k = some c ∧ c.req = some r) : Registered w' := by
  intro r p' k hr hk
  rcases hp r p' k hr hk with ⟨p, hp, hk⟩ | hc
  · obtain ⟨c, hc, hreq⟩ := h r p k hp hk
    obtain ⟨c', hc', hl, -⟩ := cell_step hst hc
    exact ⟨c', hc', hl.req.trans hreq⟩
  · exact hc

/-- A pool gets another list of cleanups. -/
theorem Registered.set {w w' : St A P} {a : Act P} {r : ReqId} {p : Pool} (h : Registered w) (hst : Step w a w')
    (hw : w'.pools = Function.update w.pools r (some p))
    (hp : ∀ k, .task k ∈ p.cleanups →
      (∃ p₀, w.pools r = some p₀ ∧ .task k ∈ p₀.cleanups) ∨ ∃ c, w'.cells k = some c ∧ c.req = some r) :
    Registered w' := by
  refine h.keep hst fun q p' k hq hk => ?_
  by_cases hqr : q = r
  · subst hqr
    rw [hw, Function.update_self] at hq
    cases hq
    exact hp k hk
  · rw [hw, Function.update_of_ne hqr] at hq
    exact Or.inl ⟨p', hq, hk⟩

theorem registered_step {w w' : St A P} {a : Act P} (h : Registered w) (hst : Step w a w') : Registered w' := by
  have hst₀ := hst
  cases hst with
  | newRequest r c _ _ => exact h.set hst₀ rfl fun k hk => (nomatch hk)
  | requestSpawn r j p s hp _ _ _ _ =>
    refine h.set hst₀ rfl fun k hk => ?_
    rcases List.mem_cons.mp hk with hk | hk
    · cases hk
      exact Or.inr ⟨_, Function.update_self _ _ _, rfl⟩
    · exact Or.inl ⟨p, hp, hk⟩
  | addCleanup r p hp _ _ => exact h.set hst₀ rfl fun k hk => Or.inl ⟨p, hp, by simpa using hk⟩
  | destroyPool r p hp _ _ => exact h.set hst₀ rfl fun k hk => Or.inl ⟨p, hp, hk⟩
  | cleanupTask r j handed p cs rest c s _ _ hp hcs _ _ _ _ =>
    exact h.set hst₀ rfl fun k hk => Or.inl ⟨p, hp, by rw [hcs]; exact List.mem_cons_of_mem _ hk⟩
  | cleanupTaken r j p cs rest c _ _ hp hcs _ _ =>
    exact h.set hst₀ rfl fun k hk => Or.inl ⟨p, hp, by rw [hcs]; exact List.mem_cons_of_mem _ hk⟩
  | cleanupFin r f p cs rest x _ _ hp hcs _ =>
    exact h.set hst₀ rfl fun k hk => Or.inl ⟨p, hp, by rw [hcs]; exact List.mem_cons_of_mem _ hk⟩
  | cleanupOther r p cs rest _ _ hp hcs =>
    exact h.set hst₀ rfl fun k hk => Or.inl ⟨p, hp, by rw [hcs]; exact List.mem_cons_of_mem _ hk⟩
  | freePool r p rest _ _ hp _ => exact h.set hst₀ rfl fun k hk => Or.inl ⟨p, hp, hk⟩
  | finalize f r rc p hp _ _ _ => exact h.set hst₀ rfl fun k hk => Or.inl ⟨p, hp, by simpa using hk⟩
  | _ => exact h.keep hst₀ fun q p k hq hk => Or.inl ⟨p, hq, hk⟩

theorem registered_invariant : (machine A P).Invariant Registered := by
  constructor
  · intro w hw r p k hp
    obtain ⟨s, -, rfl⟩ := hw
    cases hp
  · intro w a w' h hst
    exact registered_step h (step_inv hst)

/-! ## Where no work is left -/

/-- No step of work is enabled. -/
def Stuck (w : St A P) : Prop := ∀ a, a.asks = false → step w a = none

theorem Stuck.core {w : St A P} (h : Stuck w) {e : Sched.Ev P TaskId} {s : Sched.St P TaskId}
    (ha : (Act.core e).asks = false) (hi : inner e = true) (hb : atBottom e = true → w.cont .main = [])
    (hs : Sched.Step w.core e s) : False := by
  have := h (.core e) ha
  rw [step, if_pos ⟨hi, hb⟩, hs.eq] at this
  cases this

/-- Nothing keeps a thread inside `schedule`. -/
theorem Stuck.outside {w : St A P} (h : Stuck w) (t : Thread P) : w.core.pc t = .out := by
  cases hp : w.core.pc t with
  | out => rfl
  | entered r => exact (h.core rfl rfl (by simp [atBottom]) (.send w.core t r hp)).elim
  | sent =>
    cases ht : w.core.tickled with
    | false => exact (h.core rfl rfl (by simp [atBottom]) (.casWon w.core t hp ht)).elim
    | true => exact (h.core rfl rfl (by simp [atBottom]) (.casLost w.core t hp ht)).elim
  | won => exact (h.core rfl rfl (by simp [atBottom]) (.write w.core t hp)).elim

theorem Stuck.no_glue {w : St A P} (h : Stuck w) {t : Thread P} {rest : List Frame} : w.cont t ≠ .glue :: rest := by
  intro hc
  have := h (.glueDone t) rfl
  rw [step, hc] at this
  simp [h.outside t] at this

theorem hand_enabled {w : St A P} {t : Thread P} (ho : w.core.pc t = .out) (hm : w.core.mayCall t = true) (k : TaskId)
    (handed : Bool) : ∃ s, w.hand t k handed = some s := by
  cases handed with
  | true => exact ⟨_, (Sched.Step.call w.core t k ho hm).eq⟩
  | false => exact ⟨w.core, rfl⟩

/-- A cleanup of the pool that is being destroyed can be run. -/
theorem Stuck.no_destroy {w : St A P} (h : Stuck w) (hw : Stacked w) (hd : Dying w) (hpo : PostedOk w)
    (hreg : Registered w) {r : ReqId} {rest : List Frame} : w.cont .main ≠ .destroy r :: rest := by
  intro hc
  have hout := h.outside .main
  have hdy := hd.of_frame (r := r) (by rw [hc]; exact List.mem_cons_self)
  cases hp : w.pools r with
  | none => simp [St.dying, hp] at hdy
  | some p =>
    cases hcs : p.cleanups with
    | nil =>
      have := h (.freePool r) rfl
      simp [step, hc, hp, hcs, hout] at this
    | cons c cs =>
      cases c with
      | task k =>
        obtain ⟨d, hd', -⟩ := hreg r p k hp (by rw [hcs]; exact List.mem_cons_self)
        by_cases hsl : d.handle = .slot
        · obtain ⟨s, hs⟩ := hand_enabled hout (hw.open_ hc) k (A.op d.st .drop).2
          have := h (.cleanup r (.task k) (A.op d.st .drop).2) rfl
          simp [step, hc, hp, hcs, hout, cleanupStep, hd', hsl, St.hand] at this hs
          simp [hs] at this
        · have := h (.cleanup r (.task k) false) rfl
          simp [step, hc, hp, hcs, hout, cleanupStep, hd', hsl] at this
      | fin f =>
        obtain ⟨x, hx, -⟩ := hpo.owned r p f hp (by rw [hcs]; exact List.mem_cons_self)
        have := h (.cleanup r (.fin f) false) rfl
        simp [step, hc, hp, hcs, hout, cleanupStep, hx] at this
      | other =>
        have := h (.cleanup r .other false) rfl
        simp [step, hc, hp, hcs, hout, cleanupStep] at this

/-- `fini` can go on. -/
theorem Stuck.no_fini {w : St A P} (h : Stuck w) (hf : FiniOk w) {f : FinId} {b : FiniAt} {rest : List Frame} :
    w.cont .main ≠ .fini f b :: rest := by
  intro hc
  have hout := h.outside .main
  obtain ⟨x, p, hx, hp, -⟩ := hf f b (by rw [hc]; exact List.mem_cons_self)
  cases b with
  | entered =>
    have := h (.fini f (.read x.request x.rc p.connection)) rfl
    simp [step, hc, hout, St.finiNext, hx, hp] at this
  | read r rc c =>
    have := h (.fini f (.finalizing r rc c)) rfl
    simp [step, hc, hout, St.finiNext] at this
  | finalizing r rc c =>
    have := h (.fini f (.returned c)) rfl
    simp [step, hc, hout, St.finiNext] at this
  | returned c =>
    have := h (.fini f (.draining c)) rfl
    simp [step, hc, hout, St.finiNext] at this
  | draining c =>
    have := h (.finiDone f) rfl
    simp [step, hc, hout] at this

/-- The code of a future can return. -/
theorem Stuck.no_code {w : St A P} (h : Stuck w) (hfit : ∀ k, ∃ φ, Fits w k φ) {k : TaskId} {f : Frame}
    {rest : List Frame} (hk : f.code = some k) : w.cont .main ≠ f :: rest := by
  intro hc
  have hout := h.outside .main
  cases f with
  | poll j =>
    have := h (.pollReady j) rfl
    simp [step, hc, hout] at this
  | drop j why =>
    obtain ⟨φ, hφ⟩ := hfit j
    obtain ⟨rfl, -⟩ := hφ.dropping hc
    cases hcell : w.cells j with
    | none => cases hφ.unborn.mpr hcell
    | some c =>
      have := h (.dropDone j why) rfl
      simp [step, hc, hout, hcell] at this
  | _ => cases hk

/-- All code has returned. -/
theorem Stuck.returned {tr : List (Act P)} {w : St A P} (h : Stuck w) (hr : (machine A P).Run tr w) (t : Thread P) :
    w.cont t = [] := by
  have hw := stacked_invariant.run hr
  cases hc : w.cont t with
  | nil => rfl
  | cons f rest =>
    cases t with
    | other p =>
      have hf := hw.other p f (by rw [hc]; exact List.mem_cons_self)
      exact absurd (hf ▸ hc) h.no_glue
    | main =>
      cases f with
      | glue => exact absurd hc h.no_glue
      | destroy r =>
        exact absurd hc (h.no_destroy hw (dying_invariant.run hr) (postedOk_invariant.run hr) (registered_invariant.run hr))
      | fini f b => exact absurd hc (h.no_fini (finiOk_run hr))
      | poll k => exact absurd hc (h.no_code (fits_run hr) rfl)
      | drop k why => exact absurd hc (h.no_code (fits_run hr) rfl)

/-- The handler has returned to the event loop. -/
theorem Stuck.idle {w : St A P} (h : Stuck w) (hfit : ∀ k, ∃ φ, Fits w k φ) (hc : w.cont .main = []) :
    w.core.handler = .idle := by
  cases hh : w.core.handler with
  | idle => rfl
  | entered => exact (h.core rfl rfl (fun _ => hc) (.drain w.core hh)).elim
  | drained => exact (h.core rfl rfl (fun _ => hc) (.clear w.core hh)).elim
  | cleared => exact (h.core rfl rfl (fun _ => hc) (.load w.core hh)).elim
  | loaded limit =>
    by_cases hq : w.core.chan = []
    · exact (h.core rfl rfl (fun _ => hc) (.empty w.core limit hh hq)).elim
    · exact (h.core rfl rfl (fun _ => hc) (.nonempty w.core limit hh hq)).elim
  | recv limit cnt =>
    cases hq : w.core.chan with
    | nil => exact (h.core rfl rfl (fun _ => hc) (.recvNone w.core limit cnt hh hq)).elim
    | cons k rest => exact (h.core rfl rfl (fun _ => hc) (.recvSome w.core limit cnt k rest hh hq)).elim
  | took limit cnt k =>
    obtain ⟨φ, hφ⟩ := hfit k
    cases hcell : w.cells k with
    | none =>
      -- what was taken from the channel was spawned
      rw [hφ.unborn.mpr hcell] at hφ
      have := hφ.place.taken
      simp [Phase.place, hh, Handler.taken] at this
    | some c =>
      have := h (.run k (A.begin c.st).2) rfl
      simp [step, hcell, (Sched.Step.run w.core limit cnt k hh).eq] at this
  | running limit cnt k =>
    by_cases hl : limit ≤ cnt + 1
    · exact (h.core rfl rfl (fun _ => hc) (.retLimit w.core limit cnt k hh (h.outside .main) hl)).elim
    · exact (h.core rfl rfl (fun _ => hc) (.retNext w.core limit cnt k hh (h.outside .main) hl)).elim
  | limitHit => exact (h.core rfl rfl (fun _ => hc) (.tickle w.core hh)).elim

/-- A task that is nowhere waits, if its future is still there. -/
theorem Fits.waiting {w : St A P} {k : TaskId} {φ : Phase P} {c : Cell A} (h : Fits w k φ) (hc : w.cells k = some c)
    (hl : c.live = true) (hp : φ.place = .nowhere) (hf : φ.frames k = []) : (A.bits c.st).Idle := by
  obtain ⟨hok, hlive⟩ := h.ok c hc
  rw [hlive] at hl
  cases φ with
  | idle => exact hok
  | unborn => exact hok.elim
  | finished => cases hl
  | polling => cases hf
  | dropping why => cases hf
  | _ => cases hp

theorem placed_nowhere {s : Sched.St P TaskId} {k : TaskId} {l : Place P} (h : Placed s k l) (hq : s.chan = [])
    (hh : s.handler = .idle) (ho : ∀ t, s.pc t = .out) : l = .nowhere := by
  cases l with
  | nowhere => rfl
  | hand t =>
    have := (h.hand t).mpr rfl
    rw [ho t] at this
    cases this
  | queued => have := h.queued; simp [hq] at this
  | taken => have := h.taken; simp [hh, Handler.taken] at this

/-! ## Where nginx sleeps -/

/-- nginx sleeps on an empty channel only. -/
theorem Sleeps.queue {tr : List (Act P)} {w : St A P} (h : Sleeps w) (hr : (machine A P).Run tr w) :
    w.core.chan = [] := by
  have hinv : Sched.Inv w.core := Sched.inv_invariant.run (core_sim.run hr)
  by_contra hne
  have := Sched.watched_rest hinv.queued (by simp [Sched.Pc.pastSend]) h.handler h.outside hne
  rw [h.signal] at this
  cases this

/-- What is still there waits for a Waker. -/
theorem Sleeps.idle {tr : List (Act P)} {w : St A P} {k : TaskId} {c : Cell A} (h : Sleeps w)
    (hr : (machine A P).Run tr w) (hc : w.cells k = some c) (hl : c.live = true) : (A.bits c.st).Idle := by
  obtain ⟨φ, hφ⟩ := fits_run hr k
  exact hφ.waiting hc hl (placed_nowhere hφ.place (h.queue hr) h.handler h.outside) (hφ.frames_nil h.returned)

/-- Without code on a stack or a posted finalization, a worker that sleeps is at rest. -/
theorem Sleeps.rest {tr : List (Act P)} {w : St A P} (h : Sleeps w) (hr : (machine A P).Run tr w)
    (hret : ∀ t, w.cont t = []) (hq : w.posted = []) : AtRest w where
  queue := h.queue hr
  tickled := by
    have hinv : Sched.Inv w.core := Sched.inv_invariant.run (core_sim.run hr)
    cases ht : w.core.tickled with
    | false => rfl
    | true =>
      rcases hinv.tickled ht with hb | ⟨t, hb⟩ | hb
      · rw [h.signal] at hb; cases hb
      · rw [h.outside t] at hb; cases hb
      · rw [h.handler] at hb; cases hb
  signal := h.signal
  handler := h.handler
  outside := h.outside
  returned := hret
  waiting _ _ hc hl := h.idle hr hc hl
  torndown r p hp hd := by
    have := dying_invariant.run hr r
    simp [St.destroys, h.returned, St.dying, hp, hd] at this
  posted := hq

theorem rest_of_stuck {tr : List (Act P)} {w : St A P} (hr : (machine A P).Run tr w) (h : Stuck w) : AtRest w := by
  have hret := h.returned hr
  have hidle := h.idle (fits_run hr) (hret .main)
  have hsig : w.core.fd.readable = false := by
    cases hf : w.core.fd.readable with
    | false => rfl
    | true => exact (h.core rfl rfl (fun _ => hret .main) (.enter w.core hidle (h.outside .main) hf)).elim
  have hs : Sleeps w := ⟨hidle, hsig, h.outside, hret .main⟩
  refine hs.rest hr hret ?_
  cases hpo : w.posted with
  | nil => rfl
  | cons f rest =>
    obtain ⟨x, hx, -⟩ := ((postedOk_invariant.run hr).linked f).mp (by rw [hpo]; exact List.mem_cons_self)
    have := h (.popPosted f) rfl
    simp [step, hpo, hx, hret .main, hidle, h.outside .main] at this

/-- The scheduler's own events come from a signal, a thread inside `schedule`, or the handler. -/
theorem rest_no_event {s s' : Sched.St P TaskId} {e : Sched.Ev P TaskId} (h : Sched.Step s e s') (hi : inner e = true)
    (hh : s.handler = .idle) (ho : ∀ t, s.pc t = .out) (hs : s.fd.readable = false) : ∃ v, e = .setBatch v := by
  cases h with
  | setBatch v => exact ⟨v, rfl⟩
  | call t r _ _ => cases hi
  | run limit cnt r _ => cases hi
  | enter _ _ hr => rw [hs] at hr; cases hr
  | send t r hp => rw [ho t] at hp; cases hp
  | casWon t hp _ => rw [ho t] at hp; cases hp
  | casLost t hp _ => rw [ho t] at hp; cases hp
  | write t hp => rw [ho t] at hp; cases hp
  | drain hd => rw [hh] at hd; cases hd
  | clear hd => rw [hh] at hd; cases hd
  | load hd => rw [hh] at hd; cases hd
  | empty limit hd _ => rw [hh] at hd; cases hd
  | nonempty limit hd _ => rw [hh] at hd; cases hd
  | recvNone limit cnt hd _ => rw [hh] at hd; cases hd
  | recvSome limit cnt r rest hd _ => rw [hh] at hd; cases hd
  | retLimit limit cnt r hd _ _ => rw [hh] at hd; cases hd
  | retNext limit cnt r hd _ _ => rw [hh] at hd; cases hd
  | tickle hd => rw [hh] at hd; cases hd

theorem stuck_of_rest {w : St A P} (h : AtRest w) : Stuck w := by
  intro a ha
  cases hs : step w a with
  | none => rfl
  | some w' =>
    exfalso
    have hret := h.returned .main
    cases step_inv hs with
    | core e s hi _ hst =>
      obtain ⟨v, rfl⟩ := rest_no_event hst hi h.handler h.outside h.signal
      cases ha
    | runPoll k c s _ _ hst => have := (run_handler hst).1; rw [h.handler] at this; cases this
    | runDrop k c s _ _ hst => have := (run_handler hst).1; rw [h.handler] at this; cases this
    | pending k again c rest s _ hc _ _ _ _ => rw [hret] at hc; cases hc
    | pendingClosed k c rest _ hc _ _ => rw [hret] at hc; cases hc
    | ready k rest hc _ => rw [hret] at hc; cases hc
    | dropDone k why c rest _ hc _ => rw [hret] at hc; cases hc
    | glueDone t rest hc _ => rw [h.returned t] at hc; cases hc
    | cleanupTask r k handed p cs rest c s hc _ _ _ _ _ _ _ => rw [hret] at hc; cases hc
    | cleanupTaken r k p cs rest c hc _ _ _ _ _ => rw [hret] at hc; cases hc
    | cleanupFin r f p cs rest x hc _ _ _ _ => rw [hret] at hc; cases hc
    | cleanupOther r p cs rest hc _ _ _ => rw [hret] at hc; cases hc
    | freePool r p rest hc _ _ _ => rw [hret] at hc; cases hc
    | popPosted f rest x hpo _ _ _ _ => rw [h.posted] at hpo; cases hpo
    | fini f b b' rest hc _ _ => rw [hret] at hc; cases hc
    | finiDone f c rest hc _ => rw [hret] at hc; cases hc
    | _ => cases ha

/-! ## Every run ends at rest -/

/-- Without further asks the work that is left is bounded, goes on until the worker is
    at rest and no further, and there is a way to do it. -/
theorem comes_to_rest {w : St A P} (h : (machine A P).Reach w) :
    (∃ N, ∀ tr w', (machine A P).Steps w tr w' → (∀ a ∈ tr, a.asks = false) →
      tr.length ≤ N ∧ (AtRest w' ↔ ∀ a, a.asks = false → step w' a = none)) ∧
    ∃ tr w', (machine A P).Steps w tr w' ∧ (∀ a ∈ tr, a.asks = false) ∧ AtRest w' := by
  obtain ⟨pre, hpre⟩ := h
  have bound : ∀ tr w', (machine A P).Steps w tr w' → (∀ a ∈ tr, a.asks = false) →
      tr.length ≤ 44 * pre.countP Act.asks := by
    intro tr w' hs hq
    obtain ⟨T, R, hb⟩ := due_paid (hpre.append hs)
    obtain ⟨h0, hl⟩ := Lib.Machine.countP_quiet hq
    rw [List.countP_append, List.countP_append, h0, hl] at hb
    omega
  refine ⟨⟨_, fun tr w' hs hq => ⟨bound tr w' hs hq, stuck_of_rest, rest_of_stuck (hpre.append hs)⟩⟩, ?_⟩
  obtain ⟨tr, w', hs, hq, hstuck⟩ := Lib.Machine.exists_maximal bound
  exact ⟨tr, w', hs, hq, rest_of_stuck (hpre.append hs) hstuck⟩

theorem comes_to_rest_firstPoll :
    ∃ w, (machine .plain Nat).exec fresh firstPoll = some w ∧ ¬ AtRest w ∧
      ∃ tr w', (machine .plain Nat).Steps w tr w' ∧ (∀ a ∈ tr, a.asks = false) ∧ AtRest w' := by
  obtain ⟨w, hw, hk⟩ : ∃ w, (machine .plain Nat).exec fresh firstPoll = some w ∧ w.cont .main = [.poll 7] :=
    ⟨_, rfl, rfl⟩
  have h := comes_to_rest ⟨firstPoll, fresh, fresh_init, Lib.Machine.steps_of_exec hw⟩
  refine ⟨w, hw, fun hr => ?_, h.2⟩
  have := hr.returned .main
  rw [hk] at this
  cases this

end NgxTickle.Worker
