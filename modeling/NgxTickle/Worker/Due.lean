/-
  NgxTickle.Worker.Due — the worker works only for what it is asked to do. Code the
  repository does not write asks (`Act.asks`): it wakes, cancels or drops a task, spawns
  one, opens a request, registers a cleanup, tears a request down, calls
  `finalize_request`, or sets the batch size. All else is work: the scheduler's steps,
  the polls and drops of futures with the returns of the code in them, the cleanups of
  a pool that is destroyed, the posted finalizations.

  `St.due` is what is left to do: what the scheduler owes (`Sched.due_step`), the frames
  on the stacks, one more call of `schedule` for the poll whose task was woken meanwhile,
  the cleanups registered with any pool, and the posted queue. An ask adds at most 44 to
  it (a spawn on a request: its call of `schedule`, and its cleanup, which may be one
  more), and work takes from it (`due_budget`). So no step of the worker repeats itself:

  - `work_paid`: a run does at most 44 steps of work for each step that asks.
-/

import NgxTickle.Sched.Due
import NgxTickle.Worker.Phase

namespace NgxTickle.Worker

open NgxTickle.Task
open NgxTickle.Sched (Thread Pc Handler)

/-- Code of others wants something done. -/
def Act.asks {P : Type} : Act P → Bool
  | .core (.setBatch _) | .op .. | .spawn .. | .newRequest .. | .requestSpawn .. | .addCleanup _ | .destroyPool _
  | .finalize .. => true
  | _ => false

def Act.thread {P : Type} : Act P → Thread P
  | .core e => e.thread
  | .glueDone t | .op t .. | .spawn t _ => t
  | _ => .main

/-- The request whose pool the act cleans up. -/
def Act.cleansUp {P : Type} : Act P → Option ReqId
  | .cleanup r _ _ => some r
  | _ => none

def FiniAt.due : FiniAt → Nat
  | .entered => 5
  | .read .. => 4
  | .finalizing .. => 3
  | .returned _ => 2
  | .draining _ => 1

def Frame.due : Frame → Nat
  | .poll _ => 3
  | .drop _ _ => 2
  | .glue | .destroy _ => 1
  | .fini _ a => a.due

/-- Woken during its poll: the poll's return is to hand the Runnable over again. -/
def rewoken (b : Bits) : Bool := b.scheduled && b.running && !b.closed

def stackDue : List Frame → Nat
  | [] => 0
  | f :: l => f.due + stackDue l

namespace St

variable {A : AsyncTask} {P : Type}

def left (w : St A P) (r : ReqId) : Nat :=
  match w.pools r with
  | some p => p.cleanups.length
  | none => 0

/-- The task on the stack was woken during its poll. -/
def rewoken (w : St A P) : Bool := w.core.handler.inRun.any fun k => (w.cells k).any fun c => Worker.rewoken (A.bits c.st)

def stacksDue (T : Finset (Thread P)) (w : St A P) : Nat := ∑ t ∈ T, stackDue (w.cont t)

def rewokenDue (w : St A P) : Nat := if w.rewoken then 21 else 0

def cleanupsDue (R : Finset ReqId) (w : St A P) : Nat := ∑ r ∈ R, 23 * w.left r

/-- What is left to do for the threads of `T` and the requests of `R`. -/
def due (T : Finset (Thread P)) (R : Finset ReqId) (w : St A P) : Nat :=
  w.core.due T + w.stacksDue T + w.rewokenDue + w.cleanupsDue R + 6 * w.posted.length

end St

variable {A : AsyncTask} {P : Type}

/-! ## A task is woken during its poll by an operation only -/

theorem op_rewoken {s : A.State} {o : Op} (h : (A.op s o).2 = true) : rewoken (A.bits (A.op s o).1) = false := by
  simp [rewoken, (A.op_over h).2.2.1]

theorem begin_rewoken (s : A.State) : rewoken (A.bits (A.begin s).1) = false := by
  cases hb : (A.begin s).2 with
  | true => rw [A.begin_polled hb]; simp [rewoken]
  | false =>
    obtain ⟨h1, hc⟩ := A.begin_unpolled hb
    simp [rewoken, h1, hc]

theorem pending_rewoken {s : A.State} (hc : (A.bits s).closed = false) :
    rewoken (A.bits (A.pending s).1) = false ∧ (A.pending s).2 = (A.bits s).scheduled := by
  obtain ⟨h1, h2⟩ := Prod.mk.inj (A.pending_bits s hc)
  exact ⟨by rw [h1]; simp [rewoken], h2⟩

theorem dropped_rewoken (s : A.State) (why : Why) : rewoken (A.bits (A.dropped s why)) = false := by
  rcases A.dropped_bits s why with h | ⟨rfl, h⟩
  · rw [h]; cases why <;> simp [rewoken, Bits.dropped]
  · rw [h]; simp [rewoken]

theorem spawn_rewoken : rewoken (A.bits A.spawn) = false := by
  rw [A.spawn_bits]
  rfl

/-! ## What changes in each part -/

theorem rewokenDue_le (w : St A P) : w.rewokenDue ≤ 21 := by
  unfold St.rewokenDue
  split <;> omega

theorem rewokenDue_mono {w w' : St A P} (h : w'.rewoken = true → w.rewoken = true) : w'.rewokenDue ≤ w.rewokenDue := by
  unfold St.rewokenDue
  by_cases hr : w'.rewoken = true
  · rw [if_pos hr, if_pos (h hr)]
  · rw [if_neg hr]; exact Nat.zero_le _

theorem rewokenDue_congr {w w' : St A P} (hh : w'.core.handler = w.core.handler) (hc : w'.cells = w.cells) :
    w'.rewokenDue = w.rewokenDue := by
  simp [St.rewokenDue, St.rewoken, hh, hc]

/-- A task in a state that is not woken takes nothing more. -/
theorem rewokenDue_set {w w' : St A P} {k : TaskId} {c : Cell A} (hh : w'.core.handler = w.core.handler)
    (hc : w'.cells = Function.update w.cells k (some c)) (hr : rewoken (A.bits c.st) = false) :
    w'.rewokenDue ≤ w.rewokenDue := by
  refine rewokenDue_mono fun h => ?_
  simp only [St.rewoken, List.any_eq_true, hh, hc] at h ⊢
  obtain ⟨j, hj, h⟩ := h
  by_cases hjk : j = k
  · subst hjk; simp [hr] at h
  · rw [Function.update_of_ne hjk] at h; exact ⟨j, hj, h⟩

/-- The task whose poll returns is no longer woken. -/
theorem rewokenDue_pending {w w' : St A P} {k : TaskId} {c c' : Cell A} (hh : w'.core.handler = w.core.handler)
    (hk : w.core.handler.inRun = [k]) (hc : w.cells k = some c) (hc' : w'.cells k = some c')
    (hr : rewoken (A.bits c.st) = true) (hr' : rewoken (A.bits c'.st) = false) : w'.rewokenDue + 21 = w.rewokenDue := by
  have h : w.rewoken = true := by simp [St.rewoken, hk, hc, hr]
  have h' : w'.rewoken = false := by simp [St.rewoken, hh, hk, hc', hr']
  simp [St.rewokenDue, h, h']

/-- Nor is one whose run begins. -/
theorem rewokenDue_run {w : St A P} {k : TaskId} {c : Cell A} (hk : w.core.handler.inRun = [k]) (hc : w.cells k = some c)
    (hr : rewoken (A.bits c.st) = false) : w.rewokenDue = 0 := by
  have h : w.rewoken = false := by simp [St.rewoken, hk, hc, hr]
  simp [St.rewokenDue, h]

/-- The events in a run are not the ones that begin it. -/
theorem inRun_step [DecidableEq P] {s s' : Sched.St P TaskId} {e : Sched.Ev P TaskId} (h : Sched.Step s e s')
    (he : inner e = true) : s'.handler.inRun = s.handler.inRun ∨ s'.handler.inRun = [] := by
  cases h with
  | call t r _ _ => cases he
  | run limit cnt r hh => cases he
  | send _ _ _ | casWon _ _ _ | casLost _ _ _ | write _ _ | setBatch _ => exact Or.inl rfl
  | _ => exact Or.inr rfl

theorem rewokenDue_core [DecidableEq P] {w : St A P} {s : Sched.St P TaskId} {e : Sched.Ev P TaskId}
    (h : Sched.Step w.core e s) (he : inner e = true) : ({ w with core := s } : St A P).rewokenDue ≤ w.rewokenDue := by
  refine rewokenDue_mono fun hr => ?_
  rcases inRun_step h he with hi | hi
  · simpa [St.rewoken, hi] using hr
  · simp [St.rewoken, hi] at hr

theorem cleanupsDue_congr {w w' : St A P} {R : Finset ReqId} (h : w'.pools = w.pools) :
    w'.cleanupsDue R = w.cleanupsDue R := by
  simp [St.cleanupsDue, St.left, h]

theorem left_ne {w w' : St A P} {r : ReqId} {p : Pool} (h : w'.pools = Function.update w.pools r (some p)) {q : ReqId}
    (hq : q ≠ r) : 23 * w'.left q = 23 * w.left q := by
  simp [St.left, h, hq]

/-- A pool with `n` cleanups more. -/
theorem cleanupsDue_add {w w' : St A P} {R : Finset ReqId} {r : ReqId} {p : Pool} {n : Nat}
    (h : w'.pools = Function.update w.pools r (some p)) (hn : p.cleanups.length ≤ w.left r + n) :
    w'.cleanupsDue R ≤ w.cleanupsDue R + 23 * n := by
  have hr : w'.left r = p.cleanups.length := by simp [St.left, h]
  by_cases hm : r ∈ R
  · have := Lib.sum_change (F := fun q => 23 * w.left q) (G := fun q => 23 * w'.left q) hm fun q hq => left_ne h hq
    simp only [St.cleanupsDue]
    omega
  · have : w'.cleanupsDue R = w.cleanupsDue R :=
      Finset.sum_congr rfl fun q hq => left_ne h fun e => hm (e ▸ hq)
    omega

/-- A cleanup is taken off the list. -/
theorem cleanupsDue_pop {w w' : St A P} {R : Finset ReqId} {r : ReqId} {p p' : Pool} {c : Cleanup} (hm : r ∈ R)
    (h : w'.pools = Function.update w.pools r (some p')) (hp : w.pools r = some p) (hc : p.cleanups = c :: p'.cleanups) :
    w'.cleanupsDue R + 23 = w.cleanupsDue R := by
  have hr' : w'.left r = p'.cleanups.length := by simp [St.left, h]
  have hr : w.left r = p'.cleanups.length + 1 := by simp [St.left, hp, hc]
  have := Lib.sum_change (F := fun q => 23 * w.left q) (G := fun q => 23 * w'.left q) hm fun q hq => left_ne h hq
  simp only [St.cleanupsDue]
  omega

variable [DecidableEq P]

theorem stacksDue_set {w w' : St A P} {T : Finset (Thread P)} {t : Thread P} {l : List Frame} (ht : t ∈ T)
    (h : w'.cont = Function.update w.cont t l) : w'.stacksDue T + stackDue (w.cont t) = w.stacksDue T + stackDue l := by
  have := Lib.sum_change (F := fun u => stackDue (w.cont u)) (G := fun u => stackDue (w'.cont u)) ht
    fun u hu => by simp [h, hu]
  simpa [St.stacksDue, h] using this

theorem handed_due {s s' : Sched.St P TaskId} {T : Finset (Thread P)} {t : Thread P} {k : TaskId} {handed : Bool}
    (h : Handed s t k handed s') (ht : t ∈ T) : s'.due T ≤ s.due T + if handed then 21 else 0 := by
  cases h with
  | sent _ h => exact Sched.due_step h ht
  | kept => exact Nat.le_refl _

/-! ## One step -/

@[simp] theorem stackDue_nil : stackDue [] = 0 := rfl
@[simp] theorem stackDue_cons (f : Frame) (l : List Frame) : stackDue (f :: l) = f.due + stackDue l := rfl

/-- A step that leaves the pools and the posted queue alone, and changes one stack. -/
theorem due_frames {w w' : St A P} {T : Finset (Thread P)} (R : Finset ReqId) {t : Thread P} {l : List Frame} (ht : t ∈ T)
    (hc : w'.cont = Function.update w.cont t l) (hp : w'.pools = w.pools) (hq : w'.posted = w.posted) :
    w'.due T R + (stackDue (w.cont t) + w.core.due T + w.rewokenDue) =
      w.due T R + (stackDue l + w'.core.due T + w'.rewokenDue) := by
  have h1 := stacksDue_set ht hc
  have h2 := cleanupsDue_congr (R := R) hp
  simp only [St.due, hq]
  omega

/-- A step that changes one stack and no task. -/
theorem due_stack {w w' : St A P} {T : Finset (Thread P)} {R : Finset ReqId} {t : Thread P} {l : List Frame} (ht : t ∈ T)
    (hs : w'.core = w.core) (hk : w'.cells = w.cells) (hc : w'.cont = Function.update w.cont t l)
    (hp : w'.pools = w.pools) (hq : w'.posted = w.posted) (h : stackDue l + 1 ≤ stackDue (w.cont t)) :
    w'.due T R + 1 ≤ w.due T R := by
  have h1 := due_frames R ht hc hp hq
  rw [rewokenDue_congr (by rw [hs]) hk, hs] at h1
  omega

/-- A run begins: its future is polled, or dropped if its task is closed. -/
theorem due_run {w w' : St A P} {T : Finset (Thread P)} (R : Finset ReqId) {k : TaskId} {c : Cell A}
    {s : Sched.St P TaskId} {f : Frame} (hm : .main ∈ T) (hs : Sched.Step w.core (.run k) s) (hf : f.due ≤ 3)
    (h : w' = ({ w with core := s }.setCell k { c with st := (A.begin c.st).1 }).push .main f) :
    w'.due T R + 1 ≤ w.due T R := by
  have h1 := due_frames R hm (show w'.cont = Function.update w.cont .main (f :: w.cont .main) by rw [h]; rfl)
    (by rw [h]; rfl) (by rw [h]; rfl)
  have h2 : w'.core.due T + 4 ≤ w.core.due T := by rw [h]; exact Sched.due_step hs hm
  have h3 : w'.rewokenDue = 0 := by
    rw [h]
    exact rewokenDue_run (run_handler hs).2.2 (Function.update_self _ _ _) (begin_rewoken c.st)
  rw [stackDue_cons] at h1
  omega

/-- An operation on a task: it may hand the Runnable over, or wake a task during its poll. -/
theorem due_op {w w' : St A P} {T : Finset (Thread P)} {t : Thread P} {k : TaskId} {o : Op} {handed : Bool}
    {s : Sched.St P TaskId} (c c' : Cell A) (ht : t ∈ T) (hs : Handed w.core t k handed s)
    (hh : handed = (A.op c.st o).2) (hc : w'.core = s) (hk : w'.cells = Function.update w.cells k (some c'))
    (hst : c'.st = (A.op c.st o).1) :
    w'.core.due T + w'.rewokenDue ≤ w.core.due T + w.rewokenDue + 21 := by
  have h1 := handed_due hs ht
  cases handed with
  | true =>
    have h2 : w'.rewokenDue ≤ w.rewokenDue :=
      rewokenDue_set (by rw [hc]; exact hs.handler) hk (by rw [hst]; exact op_rewoken hh.symm)
    rw [if_pos rfl, ← hc] at h1
    omega
  | false =>
    have h2 := rewokenDue_le w'
    rw [if_neg (by simp), ← hc] at h1
    omega

omit [DecidableEq P] in
theorem finiNext_due {w : St A P} {f : FinId} {b b' : FiniAt} (h : w.finiNext f b = some b') : b'.due + 1 = b.due := by
  cases b with
  | entered =>
    simp only [St.finiNext] at h
    split at h
    · split at h
      · cases h; rfl
      · cases h
    · cases h
  | draining c => cases h
  | _ => cases h; rfl

/-- What is asked adds no more than a spawn on a request does. -/
theorem due_ask {w w' : St A P} {a : Act P} {T : Finset (Thread P)} {R : Finset ReqId} (h : Step w a w')
    (hask : a.asks = true) (ht : a.thread ∈ T) (hm : .main ∈ T) : w'.due T R ≤ w.due T R + 44 := by
  obtain ⟨v, hv⟩ : ∃ v, v = w' := ⟨w', rfl⟩
  rw [← hv]
  cases h with
  | core e s hi _ hs =>
    cases hs with
    | setBatch value => rw [hv]; exact Nat.le_add_right _ _
    | _ => cases hask
  | op t k o handed c h s hc hh hfr hu ho hs =>
    have h1 := due_frames R ht (show v.cont = Function.update w.cont t (.glue :: w.cont t) by rw [hv]; rfl)
      (by rw [hv]; rfl) (by rw [hv]; rfl)
    have h2 := due_op c { c with st := (A.op c.st o).1, handle := h } ht hs ho (show v.core = s by rw [hv]; rfl)
      (by rw [hv]; rfl) rfl
    rw [Act.thread] at h1
    simp [Frame.due] at h1 ⊢
    omega
  | spawn t k s hfr hk hs =>
    have h1 := Sched.due_step hs ht
    have h2 : v.rewokenDue ≤ w.rewokenDue :=
      rewokenDue_set (by rw [hv]; exact call_handler hs) (show v.cells = _ by rw [hv]; rfl) spawn_rewoken
    have h3 : v.stacksDue T = w.stacksDue T := by rw [hv]; rfl
    have h4 : v.cleanupsDue R = w.cleanupsDue R := by rw [hv]; rfl
    have h5 : v.core = s := by rw [hv]; rfl
    have h6 : v.posted = w.posted := by rw [hv]; rfl
    simp [St.due, Sched.Ev.takes, Sched.Ev.adds, h5, h6] at h1 ⊢
    omega
  | newRequest r c hfr hp =>
    have h1 : v.cleanupsDue R ≤ w.cleanupsDue R + 23 * 0 :=
      cleanupsDue_add (show v.pools = _ by rw [hv]; rfl) (Nat.zero_le _)
    have h2 : v.core = w.core := by rw [hv]; rfl
    have h3 : v.stacksDue T = w.stacksDue T := by rw [hv]; rfl
    have h4 : v.rewokenDue = w.rewokenDue := by rw [hv]; rfl
    have h5 : v.posted = w.posted := by rw [hv]; rfl
    simp [St.due, h2, h3, h4, h5]
    omega
  | requestSpawn r k p s hp hfr hl hk hs =>
    have h1 := Sched.due_step hs hm
    have h2 : v.rewokenDue ≤ w.rewokenDue :=
      rewokenDue_set (by rw [hv]; exact call_handler hs) (show v.cells = _ by rw [hv]; rfl) spawn_rewoken
    have h3 : v.stacksDue T = w.stacksDue T := by rw [hv]; rfl
    have h4 : v.cleanupsDue R ≤ w.cleanupsDue R + 23 * 1 :=
      cleanupsDue_add (show v.pools = _ by rw [hv]; rfl) (by simp [St.left, hp])
    have h5 : v.core = s := by rw [hv]; rfl
    have h6 : v.posted = w.posted := by rw [hv]; rfl
    simp [St.due, Sched.Ev.takes, Sched.Ev.adds, h5, h6] at h1 ⊢
    omega
  | requestRefused r k p s hp hfr hl hk hs =>
    have h1 := due_frames R hm (show v.cont = Function.update w.cont .main (.drop k .runnable :: w.cont .main) by
      rw [hv]; rfl) (by rw [hv]; rfl) (by rw [hv]; rfl)
    have h2 := due_op ⟨A.spawn, true, some r, false, .gone⟩ ⟨(A.op A.spawn .drop).1, true, some r, false, .gone⟩ hm hs rfl
      (show v.core = s by rw [hv]; rfl) (by rw [hv]; rfl) rfl
    simp [Frame.due] at h1 ⊢
    omega
  | addCleanup r p hp hfr hl =>
    have h1 : v.cleanupsDue R ≤ w.cleanupsDue R + 23 * 1 :=
      cleanupsDue_add (show v.pools = _ by rw [hv]; rfl) (by simp [St.left, hp])
    have h2 : v.core = w.core := by rw [hv]; rfl
    have h3 : v.stacksDue T = w.stacksDue T := by rw [hv]; rfl
    have h4 : v.rewokenDue = w.rewokenDue := by rw [hv]; rfl
    have h5 : v.posted = w.posted := by rw [hv]; rfl
    simp [St.due, h2, h3, h4, h5]
    omega
  | destroyPool r p hp hfr hl =>
    have h1 : v.cleanupsDue R ≤ w.cleanupsDue R + 23 * 0 :=
      cleanupsDue_add (show v.pools = _ by rw [hv]; rfl) (by simp [St.left, hp])
    have h2 : v.core = w.core := by rw [hv]; rfl
    have h3 : v.stacksDue T + stackDue (w.cont .main) = w.stacksDue T + stackDue (.destroy r :: w.cont .main) :=
      stacksDue_set hm (by rw [hv]; rfl)
    have h4 : v.rewokenDue = w.rewokenDue := by rw [hv]; rfl
    have h5 : v.posted = w.posted := by rw [hv]; rfl
    simp [St.due, Frame.due, h2, h4, h5] at h3 ⊢
    omega
  | finalize f r rc p hp hfr hl hx =>
    have h1 : v.cleanupsDue R ≤ w.cleanupsDue R + 23 * 1 :=
      cleanupsDue_add (show v.pools = _ by rw [hv]; rfl) (by simp [St.left, hp])
    have h2 : v.core = w.core := by rw [hv]; rfl
    have h3 : v.stacksDue T = w.stacksDue T := by rw [hv]; rfl
    have h4 : v.rewokenDue = w.rewokenDue := by rw [hv]; rfl
    have h5 : v.posted.length = w.posted.length + 1 := by rw [hv]; simp
    simp [St.due, h2, h3, h4, h5]
    omega
  | _ => cases hask

/-- Work takes from what is left to do. -/
theorem due_work {w w' : St A P} {a : Act P} {T : Finset (Thread P)} {R : Finset ReqId} (hw : Stacked w)
    (hf : ∀ k, ∃ φ, Fits w k φ) (h : Step w a w') (hask : a.asks = false) (ht : a.thread ∈ T) (hm : .main ∈ T)
    (hr : ∀ r, a.cleansUp = some r → r ∈ R) : w'.due T R + 1 ≤ w.due T R := by
  obtain ⟨v, hv⟩ : ∃ v, v = w' := ⟨w', rfl⟩
  rw [← hv]
  cases h with
  | core e s hi _ hs =>
    have h1 := Sched.due_step hs ht
    have h2 : v.rewokenDue ≤ w.rewokenDue := by rw [hv]; exact rewokenDue_core hs hi
    have h3 : v.stacksDue T = w.stacksDue T := by rw [hv]; rfl
    have h4 : v.cleanupsDue R = w.cleanupsDue R := by rw [hv]; rfl
    have h5 : v.core = s := by rw [hv]
    have h6 : v.posted = w.posted := by rw [hv]
    have h7 : e.takes = 1 ∧ e.adds = 0 := by
      cases e with
      | call t r => cases hi
      | run r => cases hi
      | setBatch value => cases hask
      | _ => exact ⟨rfl, rfl⟩
    simp only [St.due, h5, h6]
    omega
  | runPoll k c s hc hb hs => exact due_run R hm hs (by simp [Frame.due]) hv
  | runDrop k c s hc hb hs => exact due_run R hm hs (by simp [Frame.due]) hv
  | pending k again c rest s hc hk hp hcl ha hs =>
    have h1 := due_frames R hm (show v.cont = Function.update w.cont .main rest by rw [hv]; rfl) (by rw [hv]; rfl)
      (by rw [hv]; rfl)
    have h2 := handed_due hs hm
    have h3 : v.core = s := by rw [hv]; rfl
    obtain ⟨hn, hag⟩ := pending_rewoken hcl
    rw [hk, stackDue_cons, h3] at h1
    cases again with
    | true =>
      -- the task was woken during the poll that returns here, on top of its run
      obtain ⟨φ, hφ⟩ := hf k
      obtain ⟨rfl, -⟩ := hφ.polling hk
      have hrun : (A.bits c.st).running = true := (hφ.ok c hc).1.1
      have h4 : v.rewokenDue + 21 = w.rewokenDue :=
        rewokenDue_pending (by rw [h3]; exact hs.handler) (hw.tail hk).1.2 hc
          (show v.cells k = some { c with st := (A.pending c.st).1 } by rw [hv]; simp)
          (by simp [rewoken, ← hag, ← ha, hrun, hcl]) hn
      simp [Frame.due] at h1 h2 ⊢
      omega
    | false =>
      have h4 : v.rewokenDue ≤ w.rewokenDue := rewokenDue_set (by rw [h3]; exact hs.handler) (by rw [hv]; rfl) hn
      simp [Frame.due] at h1 h2 ⊢
      omega
  | pendingClosed k c rest hc hk hp hcl =>
    rw [hv]
    exact due_stack hm rfl rfl rfl rfl rfl (by simp only [hk, stackDue_cons, Frame.due]; omega)
  | ready k rest hk hp =>
    rw [hv]
    exact due_stack hm rfl rfl rfl rfl rfl (by simp only [hk, stackDue_cons, Frame.due]; omega)
  | dropDone k why c rest hc hk hp =>
    have h1 := due_frames R hm (show v.cont = Function.update w.cont .main (.glue :: rest) by rw [hv]; rfl)
      (by rw [hv]; rfl) (by rw [hv]; rfl)
    have h3 : v.core = w.core := by rw [hv]; rfl
    have h2 : v.rewokenDue ≤ w.rewokenDue :=
      rewokenDue_set (by rw [h3]) (show v.cells = _ by rw [hv]; rfl) (dropped_rewoken c.st why)
    rw [hk, h3] at h1
    simp [Frame.due] at h1 ⊢
    omega
  | glueDone t rest hk hp =>
    rw [hv]
    exact due_stack ht rfl rfl rfl rfl rfl (by simp only [Act.thread, hk, stackDue_cons, Frame.due]; omega)
  | cleanupTask r k handed p cs rest c s hk hp hpool hcs hc hsl ho hs =>
    have h1 := cleanupsDue_pop (hr r rfl) (show v.pools = _ by rw [hv]; rfl) hpool hcs
    have h2 := due_op c { c with st := (A.op c.st .drop).1, handle := .gone } hm hs ho (show v.core = s by rw [hv]; rfl)
      (by rw [hv]; rfl) rfl
    have h3 : v.stacksDue T + stackDue (w.cont .main) = w.stacksDue T + stackDue (.glue :: w.cont .main) :=
      stacksDue_set hm (by rw [hv]; rfl)
    have h5 : v.posted = w.posted := by rw [hv]; rfl
    simp [St.due, Frame.due, h5] at h3 ⊢
    omega
  | cleanupTaken r k p cs rest c hk hp hpool hcs hc hsl =>
    have h1 := cleanupsDue_pop (hr r rfl) (show v.pools = _ by rw [hv]; rfl) hpool hcs
    have h2 : v.core = w.core := by rw [hv]; rfl
    have h3 : v.stacksDue T = w.stacksDue T := by rw [hv]; rfl
    have h4 : v.rewokenDue = w.rewokenDue := by rw [hv]; rfl
    have h5 : v.posted = w.posted := by rw [hv]; rfl
    simp [St.due, h2, h3, h4, h5]
    omega
  | cleanupFin r f p cs rest x hk hp hpool hcs hx =>
    have h1 := cleanupsDue_pop (hr r rfl) (show v.pools = _ by rw [hv]; rfl) hpool hcs
    have h2 : v.core = w.core := by rw [hv]; rfl
    have h3 : v.stacksDue T = w.stacksDue T := by rw [hv]; rfl
    have h4 : v.rewokenDue = w.rewokenDue := by rw [hv]; rfl
    have h5 : v.posted.length ≤ w.posted.length := by
      rw [hv]
      split
      · exact List.length_erase_le
      · exact Nat.le_refl _
    simp [St.due, h2, h3, h4]
    omega
  | cleanupOther r p cs rest hk hp hpool hcs =>
    have h1 := cleanupsDue_pop (hr r rfl) (show v.pools = _ by rw [hv]; rfl) hpool hcs
    have h2 : v.core = w.core := by rw [hv]; rfl
    have h3 : v.stacksDue T + stackDue (w.cont .main) = w.stacksDue T + stackDue (.glue :: w.cont .main) :=
      stacksDue_set hm (by rw [hv]; rfl)
    have h4 : v.rewokenDue = w.rewokenDue := by rw [hv]; rfl
    have h5 : v.posted = w.posted := by rw [hv]; rfl
    simp [St.due, Frame.due, h2, h4, h5] at h3 ⊢
    omega
  | freePool r p rest hk hp hpool hcs =>
    have h1 : v.cleanupsDue R ≤ w.cleanupsDue R + 23 * 0 :=
      cleanupsDue_add (show v.pools = _ by rw [hv]; rfl) (by simp [St.left, hpool])
    have h2 : v.core = w.core := by rw [hv]; rfl
    have h3 : v.stacksDue T + stackDue (w.cont .main) = w.stacksDue T + stackDue rest :=
      stacksDue_set hm (by rw [hv]; rfl)
    have h4 : v.rewokenDue = w.rewokenDue := by rw [hv]; rfl
    have h5 : v.posted = w.posted := by rw [hv]; rfl
    simp [St.due, Frame.due, hk, h2, h4, h5] at h3 ⊢
    omega
  | popPosted f rest x hpo hx hk hh hp =>
    have h1 : v.stacksDue T + stackDue (w.cont .main) = w.stacksDue T + stackDue [.fini f .entered] :=
      stacksDue_set hm (by rw [hv]; rfl)
    have h2 : v.core = w.core := by rw [hv]; rfl
    have h3 : v.cleanupsDue R = w.cleanupsDue R := by rw [hv]; rfl
    have h4 : v.rewokenDue = w.rewokenDue := by rw [hv]; rfl
    have h5 : v.posted.length + 1 = w.posted.length := by rw [hv, hpo]; rfl
    simp [St.due, Frame.due, FiniAt.due, hk, h2, h3, h4] at h1 ⊢
    omega
  | fini f b b' rest hk hp hn =>
    have := finiNext_due hn
    rw [hv]
    exact due_stack hm rfl rfl rfl rfl rfl (by simp only [hk, stackDue_cons, Frame.due]; omega)
  | finiDone f c rest hk hp =>
    rw [hv]
    exact due_stack hm rfl rfl rfl rfl rfl (by simp only [hk, stackDue_cons, Frame.due, FiniAt.due]; omega)
  | _ => cases hask

/-! ## Every run -/

/-- The act is one of the threads and requests that are counted. -/
def Act.counted (T : Finset (Thread P)) (R : Finset ReqId) (a : Act P) : Prop :=
  a.thread ∈ T ∧ ∀ r, a.cleansUp = some r → r ∈ R

theorem due_budget {T : Finset (Thread P)} (R : Finset ReqId) (hm : .main ∈ T) :
    (machine A P).Budget Act.asks 44 (Act.counted T R) (St.due T R) where
  ask w a w' _ hc hst ha := due_ask (step_inv hst) ha hc.1 hm
  work w a w' hw hc hst ha := by
    obtain ⟨tr, hrun⟩ := hw
    exact due_work (stacked_invariant.run hrun) (fits_run hrun) (step_inv hst) ha hc.1 hm hc.2

/-- The threads and requests of a run. -/
theorem exists_counted (tr : List (Act P)) :
    ∃ (T : Finset (Thread P)) (R : Finset ReqId), .main ∈ T ∧ ∀ a ∈ tr, a.counted T R := by
  refine ⟨insert .main (tr.map Act.thread).toFinset, (tr.filterMap Act.cleansUp).toFinset, by simp, fun a ha => ⟨?_, ?_⟩⟩
  · simp only [Finset.mem_insert, List.mem_toFinset, List.mem_map]
    exact Or.inr ⟨a, ha, rfl⟩
  · intro r hr
    exact List.mem_toFinset.mpr (List.mem_filterMap.mpr ⟨a, ha, hr⟩)

theorem due_start {w : St A P} (h : (machine A P).init w) (T : Finset (Thread P)) (R : Finset ReqId) : w.due T R = 0 := by
  obtain ⟨s, ⟨cap, hc, rfl⟩, rfl⟩ := h
  simp [St.due, St.stacksDue, St.rewokenDue, St.rewoken, St.cleanupsDue, St.left, St.start, Sched.St.due, Sched.St.runsDue,
    Sched.St.signalDue, Sched.start, Sched.Pc.due, Handler.due, Handler.taken, Handler.inRun]

/-- What is left to do after a run, and the work done in it, is what was asked. -/
theorem due_paid {tr : List (Act P)} {w : St A P} (h : (machine A P).Run tr w) :
    ∃ T R, w.due T R + tr.countP (fun a => !a.asks) ≤ 44 * tr.countP Act.asks := by
  obtain ⟨w₀, h0, hs⟩ := h
  obtain ⟨T, R, hm, hc⟩ := exists_counted tr
  have hb := (due_budget R hm).steps ⟨[], w₀, h0, .nil w₀⟩ hs hc
  rw [due_start h0, Nat.zero_add] at hb
  exact ⟨T, R, hb⟩

/-- A run does at most 44 steps of work for each step that asks for some. -/
theorem work_paid {tr : List (Act P)} {w : St A P} (h : (machine A P).Run tr w) :
    tr.countP (fun a => !a.asks) ≤ 44 * tr.countP Act.asks := by
  obtain ⟨T, R, hb⟩ := due_paid h
  omega

theorem work_paid_firstPoll :
    firstPoll.countP Act.asks = 1 ∧ firstPoll.countP (fun a => !a.asks) = 10 ∧
      firstPoll.countP (fun a => !a.asks) ≤ 44 * firstPoll.countP Act.asks := by
  obtain ⟨w, hw⟩ : ∃ w, (machine .plain Nat).exec fresh firstPoll = some w := ⟨_, rfl⟩
  exact ⟨rfl, rfl, work_paid ⟨fresh, fresh_init, Lib.Machine.steps_of_exec hw⟩⟩

end NgxTickle.Worker
