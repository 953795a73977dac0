/-
  NgxTickle.Worker.Phase — the life of a task: where its Runnable is, what is on the
  stack for it, what its bits say and whether its future is still there, in one phase
  (`Fits`). Every state a run reaches gives each task a phase (`fits_run`), and each
  act moves it along one edge of `Moves` or leaves it where it is (`fits_step`):

    unborn → hand → queued → taken → polling → idle, hand, or dropping → finished

  with `dropping` also from `taken` (a closed task) and from `unborn` (a refused spawn).
-/

import NgxTickle.Sched.Place
import NgxTickle.Worker.Stack

namespace NgxTickle.Worker

open NgxTickle.Task
open NgxTickle.Sched (Thread Pc Handler Place Placed)

inductive Phase (P : Type) where
  | unborn
  /-- The Runnable is with a thread inside `schedule`. -/
  | hand (t : Thread P)
  | queued
  | taken
  | polling
  | dropping (why : Why)
  /-- Neither queued nor running nor finished: a Waker is to wake it. -/
  | idle
  | finished
  deriving DecidableEq, Repr

namespace Phase

variable {P : Type}

def place : Phase P → Place P
  | .hand t => .hand t
  | .queued => .queued
  | .taken => .taken
  | _ => .nowhere

def frames (k : TaskId) : Phase P → List Frame
  | .polling => [.poll k]
  | .dropping why => [.drop k why]
  | _ => []

def live : Phase P → Bool
  | .finished => false
  | _ => true

def Ok (b : Bits) : Phase P → Prop
  | .unborn => False
  | .hand _ | .queued | .taken => b.scheduled = true ∧ b.running = false ∧ b.completed = false
  | .polling | .dropping .ready => b.running = true ∧ b.completed = false
  | .dropping .pending => b.running = true ∧ b.completed = false ∧ b.closed = true
  | .dropping _ => b.scheduled = true ∧ b.running = false ∧ b.completed = false ∧ b.closed = true
  | .idle => b.Idle
  | .finished => b.scheduled = false ∧ b.running = false ∧ b.done = true

end Phase

/-- The frames of a stack that run the future of `k`. -/
def framesOf (k : TaskId) (l : List Frame) : List Frame := l.filter fun f => f.code = some k

theorem framesOf_cons_self {k : TaskId} {f : Frame} (h : f.code = some k) (l : List Frame) :
    framesOf k (f :: l) = f :: framesOf k l := by
  simp [framesOf, h]

theorem framesOf_cons_other {k : TaskId} {f : Frame} (h : f.code ≠ some k) (l : List Frame) :
    framesOf k (f :: l) = framesOf k l := by
  simp [framesOf, h]

variable {A : AsyncTask} {P : Type} [DecidableEq P]

structure Fits (w : St A P) (k : TaskId) (φ : Phase P) : Prop where
  place : Placed w.core k φ.place
  frames : framesOf k (w.cont .main) = φ.frames k
  unborn : φ = .unborn ↔ w.cells k = none
  ok : ∀ c, w.cells k = some c → φ.Ok (A.bits c.st) ∧ c.live = φ.live

/-- What moves a task from one phase to the next. -/
inductive Moves (k : TaskId) : Act P → Phase P → Phase P → Prop
  | spawn (t : Thread P) : Moves k (.spawn t k) .unborn (.hand t)
  | requestSpawn (r : ReqId) : Moves k (.requestSpawn r k true) .unborn (.hand .main)
  | refused (r : ReqId) : Moves k (.requestSpawn r k false) .unborn (.dropping .runnable)
  | send (t : Thread P) : Moves k (.core (.send t k)) (.hand t) .queued
  | recv : Moves k (.core (.tryRecv (some k))) .queued .taken
  | runPoll : Moves k (.run k true) .taken .polling
  | runDrop : Moves k (.run k false) .taken (.dropping .closed)
  | again : Moves k (.pollPending k false true) .polling (.hand .main)
  | sleep : Moves k (.pollPending k false false) .polling .idle
  | pending : Moves k (.pollPending k true false) .polling (.dropping .pending)
  | ready : Moves k (.pollReady k) .polling (.dropping .ready)
  | dropDone (why : Why) : Moves k (.dropDone k why) (.dropping why) .finished
  | op (t : Thread P) (o : Op) : Moves k (.op t k o true) .idle (.hand t)
  | cleanup (r : ReqId) : Moves k (.cleanup r (.task k) true) .idle (.hand .main)

/-- The act is one that moves the task. -/
def Act.moves (k : TaskId) : Act P → Bool
  | .core (.send _ j) | .core (.tryRecv (some j)) | .run j _ | .pollPending j _ _ | .pollReady j | .dropDone j _
  | .spawn _ j | .requestSpawn _ j _ => j == k
  | .op _ j _ handed => j == k && handed
  | .cleanup _ (.task j) handed => j == k && handed
  | _ => false

/-! ## The phase is told by any of its parts -/

theorem Fits.polling {w : St A P} {k : TaskId} {φ : Phase P} {rest : List Frame} (h : Fits w k φ)
    (hf : w.cont .main = .poll k :: rest) : φ = .polling ∧ framesOf k rest = [] := by
  have := h.frames
  rw [hf, framesOf_cons_self rfl] at this
  cases φ <;> simp_all [Phase.frames]

theorem Fits.dropping {w : St A P} {k : TaskId} {φ : Phase P} {why : Why} {rest : List Frame} (h : Fits w k φ)
    (hf : w.cont .main = .drop k why :: rest) : φ = .dropping why ∧ framesOf k rest = [] := by
  have := h.frames
  rw [hf, framesOf_cons_self rfl] at this
  cases φ <;> simp_all [Phase.frames]

theorem Fits.idle {w : St A P} {k : TaskId} {φ : Phase P} {c : Cell A} (h : Fits w k φ) (hc : w.cells k = some c)
    (hi : (A.bits c.st).Idle) : φ = .idle := by
  have := (h.ok c hc).1
  rw [hi] at this
  cases φ with
  | idle => rfl
  | dropping why => cases why <;> simp [Phase.Ok] at this
  | _ => simp [Phase.Ok, Bits.done] at this

omit [DecidableEq P] in
theorem Phase.nowhere {φ : Phase P} {k : TaskId} (h : φ.frames k ≠ []) : φ.place = .nowhere := by
  cases φ <;> first | rfl | exact absurd rfl h

/-! ## One step -/

/-- A step that concerns other tasks. -/
theorem Fits.other {w w' : St A P} {k : TaskId} {φ : Phase P} (h : Fits w k φ) (hp : Placed w'.core k φ.place)
    (hf : framesOf k (w'.cont .main) = framesOf k (w.cont .main)) (hc : w'.cells k = w.cells k) : Fits w' k φ :=
  ⟨hp, hf.trans h.frames, by rw [hc]; exact h.unborn, by rw [hc]; exact h.ok⟩

/-- A step that puts the task into the state `c`. -/
theorem Fits.set {w w' : St A P} {k : TaskId} {φ : Phase P} {c : Cell A} (hu : φ ≠ .unborn)
    (hp : Placed w'.core k φ.place) (hf : framesOf k (w'.cont .main) = φ.frames k)
    (hc : w'.cells = Function.update w.cells k (some c)) (ho : φ.Ok (A.bits c.st)) (hl : c.live = φ.live) :
    Fits w' k φ := by
  have hk : w'.cells k = some c := by rw [hc]; simp
  refine ⟨hp, hf, by simp [hu, hk], fun d hd => ?_⟩
  rw [hk] at hd
  cases hd
  exact ⟨ho, hl⟩

theorem placed_call {s s' : Sched.St P TaskId} {t : Thread P} {j k : TaskId} {l : Place P} (hl : Placed s k l)
    (h : Sched.Step s (.call t j) s') (hj : j ≠ k) : Placed s' k l := by
  have := Sched.placed_step hl h fun u hu => by cases hu; exact absurd rfl hj
  simpa [Sched.Ev.moves, hj] using this

theorem placed_called {s s' : Sched.St P TaskId} {t : Thread P} {k : TaskId} (hl : Placed s k .nowhere)
    (h : Sched.Step s (.call t k) s') : Placed s' k (.hand t) := by
  have := Sched.placed_step hl h fun u _ => rfl
  simpa [Sched.Ev.moves] using this

theorem Handed.other {s s' : Sched.St P TaskId} {t : Thread P} {j k : TaskId} {l : Place P} {handed : Bool}
    (h : Handed s t j handed s') (hl : Placed s k l) (hj : j ≠ k) : Placed s' k l := by
  cases h with
  | sent _ h => exact placed_call hl h hj
  | kept => exact hl

theorem Handed.kept_eq {s s' : Sched.St P TaskId} {t : Thread P} {j : TaskId} {handed : Bool}
    (h : Handed s t j handed s') (ho : handed = false) : s' = s := by
  cases h with
  | sent _ h => cases ho
  | kept => rfl

theorem Handed.call {s s' : Sched.St P TaskId} {t : Thread P} {j : TaskId} {handed : Bool}
    (h : Handed s t j handed s') (ho : handed = true) : Sched.Step s (.call t j) s' := by
  cases h with
  | sent _ h => exact h
  | kept => cases ho

omit [DecidableEq P] in
/-- An operation without a hand-over leaves the task in its phase. -/
theorem ok_op {φ : Phase P} {s : A.State} {o : Op} (h : φ.Ok (A.bits s)) (ho : (A.op s o).2 = false) :
    φ.Ok (A.bits (A.op s o).1) := by
  obtain ⟨h1, h2, h3, h4, h5, h6⟩ := A.op_keeps ho
  cases φ with
  | unborn => exact h
  | hand t => exact ⟨h4 h.1, h1.trans h.2.1, h2.trans h.2.2⟩
  | queued => exact ⟨h4 h.1, h1.trans h.2.1, h2.trans h.2.2⟩
  | taken => exact ⟨h4 h.1, h1.trans h.2.1, h2.trans h.2.2⟩
  | polling => exact ⟨h1.trans h.1, h2.trans h.2⟩
  | dropping why =>
    cases why with
    | ready => exact ⟨h1.trans h.1, h2.trans h.2⟩
    | pending => exact ⟨h1.trans h.1, h2.trans h.2.1, h3 h.2.2⟩
    | closed => exact ⟨h4 h.1, h1.trans h.2.1, h2.trans h.2.2.1, h3 h.2.2.2⟩
    | runnable => exact ⟨h4 h.1, h1.trans h.2.1, h2.trans h.2.2.1, h3 h.2.2.2⟩
  | idle =>
    show (A.bits (A.op s o).1).Idle
    rw [h6 h]
    exact h
  | finished =>
    obtain ⟨g1, g2, g3⟩ := h
    refine ⟨(h5 g2).trans g1, h1.trans g2, ?_⟩
    simp only [Bits.done, Bool.or_eq_true] at g3 ⊢
    rcases g3 with g3 | g3
    · exact Or.inl (h2.trans g3)
    · exact Or.inr (h3 g3)

/-- An operation on the task, by any thread; `w'` is `w` with its new state. -/
theorem fits_op {w w' : St A P} {t : Thread P} {k : TaskId} {o : Op} {c c' : Cell A} {s : Sched.St P TaskId}
    {φ : Phase P} (h : Fits w k φ) (hf : framesOf k (w'.cont .main) = framesOf k (w.cont .main)) (hcore : w'.core = s)
    (hw : w'.cells = Function.update w.cells k (some c')) (hc : w.cells k = some c)
    (hs : Handed w.core t k (A.op c.st o).2 s) (hst : c'.st = (A.op c.st o).1) (hl : c'.live = c.live) :
    (A.op c.st o).2 = true ∧ φ = .idle ∧ Fits w' k (.hand t) ∨ (A.op c.st o).2 = false ∧ Fits w' k φ := by
  subst hcore
  obtain ⟨hok, hlive⟩ := h.ok c hc
  have hu : φ ≠ .unborn := fun hu => by rw [hu] at hok; exact hok
  cases ho : (A.op c.st o).2 with
  | true =>
    obtain ⟨hi, h1, h2, h3⟩ := A.op_over ho
    have hφ := h.idle hc hi
    subst hφ
    refine Or.inl ⟨rfl, rfl, Fits.set (by simp) (placed_called h.place (hs.call ho)) (hf.trans h.frames) hw ?_ ?_⟩
    · rw [hst]; exact ⟨h1, h2, h3⟩
    · rw [hl, hlive]; rfl
  | false =>
    refine Or.inr ⟨rfl, Fits.set hu ?_ (hf.trans h.frames) hw ?_ (hl.trans hlive)⟩
    · rw [hs.kept_eq ho]; exact h.place
    · rw [hst]; exact ok_op hok ho

theorem framesOf_push {l l' : Thread P → List Frame} {t : Thread P} {f : Frame} {k : TaskId}
    (hl : l' = Function.update l t (f :: l t)) (hf : f.code ≠ some k) :
    framesOf k (l' .main) = framesOf k (l .main) := by
  rw [hl]
  cases t with
  | main => rw [Function.update_self, framesOf_cons_other hf]
  | other p => rw [Function.update_of_ne (by simp)]

theorem framesOf_top {l l' : Thread P → List Frame} {rest : List Frame} {k : TaskId} (top top' : List Frame)
    (h : l .main = top ++ rest) (hl : l' = Function.update l .main (top' ++ rest))
    (ht : framesOf k top = framesOf k top') : framesOf k (l' .main) = framesOf k (l .main) := by
  rw [hl, h, Function.update_self]
  simp only [framesOf, List.filter_append] at ht ⊢
  rw [ht]

/-- Where a step leads a task: along an edge, or nowhere. -/
def Leads (w' : St A P) (k : TaskId) (a : Act P) (φ : Phase P) : Prop :=
  ∃ φ', Fits w' k φ' ∧ (Moves k a φ φ' ∨ Act.moves k a = false ∧ φ' = φ)

theorem leads_core {w : St A P} {k : TaskId} {φ : Phase P} {e : Sched.Ev P TaskId} {s : Sched.St P TaskId}
    (h : Fits w k φ) (he : inner e = true) (hs : Sched.Step w.core e s) : Leads { w with core := s } k (.core e) φ := by
  have hp : Placed s k (e.moves k φ.place) :=
    Sched.placed_step h.place hs fun t ht => by rw [ht] at he; cases he
  -- the Runnable is found at its place, and put at the next
  have at_ : ∀ φ' : Phase P, e.moves k φ.place = φ'.place → φ'.frames k = φ.frames k → φ' ≠ .unborn → φ ≠ .unborn →
      (∀ b, φ.Ok b → φ'.Ok b) → φ'.live = φ.live → Fits { w with core := s } k φ' := by
    intro φ' h1 h2 h3 h4 h5 h6
    refine ⟨by rw [← h1]; exact hp, h.frames.trans h2.symm, ?_, fun c hc => ?_⟩
    · have := h.unborn
      simp only [h3, h4, false_iff] at this ⊢
      exact this
    · exact ⟨h5 _ (h.ok c hc).1, (h.ok c hc).2.trans h6.symm⟩
  have stay : e.moves k φ.place = φ.place → Act.moves k (.core e : Act P) = false →
      Leads { w with core := s } k (.core e) φ := by
    intro h1 h2
    exact ⟨φ, ⟨by rw [← h1]; exact hp, h.frames, h.unborn, h.ok⟩, Or.inr ⟨h2, rfl⟩⟩
  cases e with
  | send t j =>
    by_cases hj : j = k
    · subst hj
      have hl := Sched.placed_send h.place hs
      obtain rfl : φ = .hand t := by cases φ <;> simp_all [Phase.place]
      exact ⟨.queued, at_ _ (by simp [Sched.Ev.moves, Phase.place]) rfl (by simp) (by simp) (fun b h => h) rfl,
        Or.inl (.send t)⟩
    · exact stay (by simp [Sched.Ev.moves, hj]) (by simp [Act.moves, hj])
  | tryRecv o =>
    cases o with
    | none => exact stay rfl rfl
    | some j =>
      by_cases hj : j = k
      · subst hj
        have hl := Sched.placed_recv h.place hs
        obtain rfl : φ = .queued := by cases φ <;> simp_all [Phase.place]
        exact ⟨.taken, at_ _ (by simp [Sched.Ev.moves, Phase.place]) rfl (by simp) (by simp) (fun b h => h) rfl,
          Or.inl .recv⟩
      · exact stay (by simp [Sched.Ev.moves, hj]) (by simp [Act.moves, hj])
  | call t j => cases he
  | run j => cases he
  | _ => exact stay rfl rfl

/-- `run` finds the task's Runnable taken. -/
theorem Fits.taken {w : St A P} {k : TaskId} {φ : Phase P} {s : Sched.St P TaskId} (h : Fits w k φ)
    (hs : Sched.Step w.core (.run k) s) : φ = .taken ∧ Placed s k .nowhere := by
  have hl := Sched.placed_run h.place hs
  have hp := Sched.placed_step h.place hs fun t ht => by cases ht
  refine ⟨?_, by simpa [Sched.Ev.moves] using hp⟩
  cases φ <;> simp_all [Phase.place]

theorem placed_ran {s s' : Sched.St P TaskId} {j k : TaskId} {l : Place P} (hl : Placed s k l)
    (h : Sched.Step s (.run j) s') (hj : j ≠ k) : Placed s' k l := by
  have := Sched.placed_step hl h fun u hu => by cases hu
  simpa [Sched.Ev.moves, hj] using this

/-- Each step moves each task along an edge, or leaves it. -/
theorem fits_step {w w' : St A P} {a : Act P} {k : TaskId} {φ : Phase P} (h : Fits w k φ) (hst : Step w a w') :
    Leads w' k a φ := by
  -- a step that is not about `k`
  have other : Placed w'.core k φ.place → framesOf k (w'.cont .main) = framesOf k (w.cont .main) →
      w'.cells k = w.cells k → Act.moves k a = false → Leads w' k a φ := fun h1 h2 h3 h4 =>
    ⟨φ, h.other h1 h2 h3, Or.inr ⟨h4, rfl⟩⟩
  cases hst with
  | core e s he _ hs => exact leads_core h he hs
  | runPoll j c s hc hp hs =>
    by_cases hj : j = k
    · subst hj
      obtain ⟨rfl, hpl⟩ := h.taken hs
      obtain ⟨hok, hlive⟩ := h.ok c hc
      refine ⟨.polling, Fits.set (by simp) hpl ?_ rfl ?_ hlive, Or.inl .runPoll⟩
      · simp [framesOf_cons_self (f := .poll j) rfl, h.frames, Phase.frames]
      · rw [A.begin_polled hp]; exact ⟨rfl, hok.2.2⟩
    · exact other (placed_ran h.place hs hj) (framesOf_push rfl (by simpa [Frame.code] using hj))
        (by simp [Ne.symm hj]) (by simp [Act.moves, hj])
  | runDrop j c s hc hp hs =>
    by_cases hj : j = k
    · subst hj
      obtain ⟨rfl, hpl⟩ := h.taken hs
      obtain ⟨hok, hlive⟩ := h.ok c hc
      obtain ⟨hb, hcl⟩ := A.begin_unpolled hp
      refine ⟨.dropping .closed, Fits.set (by simp) hpl ?_ rfl ?_ hlive, Or.inl .runDrop⟩
      · simp [framesOf_cons_self (f := .drop j .closed) rfl, h.frames, Phase.frames]
      · rw [hb]; exact ⟨hok.1, hok.2.1, hok.2.2, hcl⟩
    · exact other (placed_ran h.place hs hj) (framesOf_push rfl (by simpa [Frame.code] using hj))
        (by simp [Ne.symm hj]) (by simp [Act.moves, hj])
  | pending j again c rest s hc hf hpc hcl hag hs =>
    by_cases hj : j = k
    · subst hj
      obtain ⟨rfl, hrest⟩ := h.polling hf
      obtain ⟨hok, hlive⟩ := h.ok c hc
      have hb : A.bits (A.pending c.st).1 = { A.bits c.st with running := false } :=
        congrArg Prod.fst (A.pending_bits c.st hcl)
      have hsch : again = (A.bits c.st).scheduled := hag.trans (congrArg Prod.snd (A.pending_bits c.st hcl))
      cases again with
      | true =>
        refine ⟨.hand .main, Fits.set (by simp) (placed_called h.place (hs.call rfl)) ?_ rfl ?_ hlive, Or.inl .again⟩
        · simpa [Phase.frames] using hrest
        · rw [hb]; exact ⟨hsch.symm, rfl, hok.2⟩
      | false =>
        refine ⟨.idle, Fits.set (by simp) ?_ ?_ rfl ?_ hlive, Or.inl .sleep⟩
        · show Placed s j .nowhere
          rw [hs.kept_eq rfl]; exact h.place
        · simpa [Phase.frames] using hrest
        · show (A.bits (A.pending c.st).1).Idle
          rw [hb]
          simp [Bits.Idle, hcl, hok.2, ← hsch]
    · exact other (hs.other h.place hj)
        (framesOf_top [.poll j] [] hf rfl (by simp [framesOf, Frame.code, hj]))
        (by simp [Ne.symm hj]) (by simp [Act.moves, hj])
  | pendingClosed j c rest hc hf hpc hcl =>
    by_cases hj : j = k
    · subst hj
      obtain ⟨rfl, hrest⟩ := h.polling hf
      refine ⟨.dropping .pending, ⟨h.place, ?_, ?_, fun d hd => ?_⟩, Or.inl .pending⟩
      · simp [framesOf_cons_self (f := .drop j .pending) rfl, hrest, Phase.frames]
      · simp [hc]
      · obtain ⟨hok, hlive⟩ := h.ok d hd
        have hdc : some d = some c := (show w.cells j = some d from hd).symm.trans hc
        cases hdc
        exact ⟨⟨hok.1, hok.2, hcl⟩, hlive⟩
    · exact other h.place (framesOf_top [.poll j] [.drop j .pending] hf rfl
        (by simp [framesOf, Frame.code, hj])) rfl (by simp [Act.moves, hj])
  | ready j rest hf hpc =>
    by_cases hj : j = k
    · subst hj
      obtain ⟨rfl, hrest⟩ := h.polling hf
      refine ⟨.dropping .ready, ⟨h.place, ?_, ?_, h.ok⟩, Or.inl .ready⟩
      · simp [framesOf_cons_self (f := .drop j .ready) rfl, hrest, Phase.frames]
      · have := h.unborn
        simpa using this
    · exact other h.place (framesOf_top [.poll j] [.drop j .ready] hf rfl
        (by simp [framesOf, Frame.code, hj])) rfl (by simp [Act.moves, hj])
  | dropDone j why c rest hc hf hpc =>
    by_cases hj : j = k
    · subst hj
      obtain ⟨rfl, hrest⟩ := h.dropping hf
      have hok := (h.ok c hc).1
      refine ⟨.finished, Fits.set (by simp) h.place ?_ rfl ?_ rfl, Or.inl (.dropDone why)⟩
      · simpa [Phase.frames] using (framesOf_cons_other (f := .glue) (by simp [Frame.code]) rest).trans hrest
      · refine A.dropped_finished ?_
        cases why with
        | ready => exact Or.inl rfl
        | pending => exact Or.inr hok.2.2
        | closed => exact Or.inr hok.2.2.2
        | runnable => exact Or.inr hok.2.2.2
    · exact other h.place (framesOf_top [.drop j why] [.glue] hf rfl
        (by simp [framesOf, Frame.code, hj])) (by simp [Ne.symm hj]) (by simp [Act.moves, hj])
  | glueDone t rest hf hpc =>
    refine other h.place ?_ rfl rfl
    cases t with
    | main => exact framesOf_top [.glue] [] hf rfl rfl
    | other p => simp
  | op t j o handed c hd s hc hh hf hm ho hs =>
    subst ho
    have hfr : framesOf k ((({ w with core := s }.setCell j { c with st := (A.op c.st o).1, handle := hd }).push t
        .glue).cont .main) = framesOf k (w.cont .main) := framesOf_push (f := .glue) rfl (by simp [Frame.code])
    by_cases hj : j = k
    · subst hj
      rcases fits_op h hfr rfl rfl hc hs rfl rfl with ⟨ho, rfl, hw⟩ | ⟨ho, hw⟩
      · exact ⟨_, hw, Or.inl (by rw [ho]; exact .op t o)⟩
      · exact ⟨φ, hw, Or.inr ⟨by simp [Act.moves, ho], rfl⟩⟩
    · exact other (hs.other h.place hj) hfr (by simp [Ne.symm hj]) (by simp [Act.moves, hj])
  | spawn t j s hf hc hs =>
    by_cases hj : j = k
    · subst hj
      obtain rfl := h.unborn.mpr hc
      refine ⟨.hand t, Fits.set (by simp) (placed_called h.place hs) h.frames rfl ?_ rfl, Or.inl (.spawn t)⟩
      rw [A.spawn_bits]
      exact ⟨rfl, rfl, rfl⟩
    · exact other (placed_call h.place hs hj) rfl (by simp [Ne.symm hj]) (by simp [Act.moves, hj])
  | requestSpawn r j p s hp hf hl hc hs =>
    by_cases hj : j = k
    · subst hj
      obtain rfl := h.unborn.mpr hc
      refine ⟨.hand .main, Fits.set (by simp) (placed_called h.place hs) h.frames rfl ?_ rfl,
        Or.inl (.requestSpawn r)⟩
      rw [A.spawn_bits]
      exact ⟨rfl, rfl, rfl⟩
    · exact other (placed_call h.place hs hj) rfl (by simp [Ne.symm hj]) (by simp [Act.moves, hj])
  | requestRefused r j p s hp hf hl hc hs =>
    by_cases hj : j = k
    · subst hj
      obtain rfl := h.unborn.mpr hc
      have ho := A.spawn_op .drop
      obtain ⟨h1, h2, -, h4, -⟩ := A.op_keeps ho
      rw [A.spawn_bits] at h1 h2 h4
      refine ⟨.dropping .runnable, Fits.set (by simp) ?_ ?_ rfl ?_ rfl, Or.inl (.refused r)⟩
      · show Placed s j .nowhere
        rw [hs.kept_eq ho]; exact h.place
      · simp [framesOf_cons_self (f := .drop j .runnable) rfl, h.frames, Phase.frames]
      · exact ⟨h4 rfl, h1, h2, A.close_closed (Or.inr rfl) (by rw [A.spawn_bits]; rfl)⟩
    · exact other (hs.other h.place hj) (framesOf_push rfl (by simpa [Frame.code] using hj))
        (by simp [Ne.symm hj]) (by simp [Act.moves, hj])
  | newRequest r c _ _ => exact other h.place rfl rfl rfl
  | addCleanup r p _ _ _ => exact other h.place rfl rfl rfl
  | destroyPool r p _ _ _ => exact other h.place (framesOf_push (f := .destroy r) rfl (by simp [Frame.code])) rfl rfl
  | cleanupTask r j handed p cs rest c s hf hpc hp hcs hc hsl ho hs =>
    subst ho
    have hfr : framesOf k (((({ w with core := s }.setPool r { p with cleanups := cs }).setCell j
        { c with st := (A.op c.st .drop).1, handle := .gone }).push .main .glue).cont .main) =
        framesOf k (w.cont .main) := framesOf_push (f := .glue) rfl (by simp [Frame.code])
    by_cases hj : j = k
    · subst hj
      rcases fits_op h hfr rfl rfl hc hs rfl rfl with ⟨ho, rfl, hw⟩ | ⟨ho, hw⟩
      · exact ⟨_, hw, Or.inl (by rw [ho]; exact .cleanup r)⟩
      · exact ⟨φ, hw, Or.inr ⟨by simp [Act.moves, ho], rfl⟩⟩
    · exact other (hs.other h.place hj) hfr (by simp [Ne.symm hj]) (by simp [Act.moves, hj])
  | cleanupTaken r j p cs rest c _ _ _ _ _ _ => exact other h.place rfl rfl (by simp [Act.moves])
  | cleanupFin r f p cs rest x _ _ _ _ _ => exact other h.place rfl rfl rfl
  | cleanupOther r p cs rest _ _ _ _ =>
    exact other h.place (framesOf_push (f := .glue) rfl (by simp [Frame.code])) rfl rfl
  | freePool r p rest hf _ _ _ =>
    exact other h.place (framesOf_top [.destroy r] [] hf rfl rfl) rfl rfl
  | finalize f r rc p _ _ _ _ => exact other h.place rfl rfl rfl
  | popPosted f rest x _ _ hc _ _ =>
    exact other h.place (framesOf_top [] [.fini f .entered] hc rfl rfl) rfl rfl
  | fini f b b' rest hf _ _ =>
    exact other h.place (framesOf_top [.fini f b] [.fini f b'] hf rfl rfl) rfl rfl
  | finiDone f c rest hf _ =>
    exact other h.place (framesOf_top [.fini f (.draining c)] [] hf rfl rfl) rfl rfl

/-! ## Every run -/

/-- A worker before its first act: nothing is born. -/
theorem fits_start {w : St A P} (h : (machine A P).init w) (k : TaskId) : Fits w k .unborn := by
  obtain ⟨s, ⟨cap, hc, rfl⟩, rfl⟩ := h
  refine ⟨⟨fun t => ?_, rfl, rfl⟩, rfl, by simp [St.start], fun c hc => by cases hc⟩
  simp [St.start, Sched.start, Phase.place]

/-- Every task has a phase in every state a run reaches. -/
theorem fits_run {tr : List (Act P)} {w : St A P} (h : (machine A P).Run tr w) (k : TaskId) : ∃ φ, Fits w k φ := by
  refine Lib.Machine.run_induction (J := fun _ w => ∃ φ, Fits w k φ) (fun w hw => ⟨_, fits_start hw k⟩) ?_ h
  intro tr w a w' _ hi hst
  obtain ⟨φ, hφ⟩ := hi
  obtain ⟨φ', h', -⟩ := fits_step hφ (step_inv hst)
  exact ⟨φ', h'⟩

end NgxTickle.Worker
