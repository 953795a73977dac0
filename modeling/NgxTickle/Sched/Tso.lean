/-
  NgxTickle.Sched.Tso — the wakeup protocol on a store-buffering machine. The handler's
  `TICKLED.store(false, Relaxed)` is a plain store: it goes into the main thread's FIFO
  buffer (`buf`) and reaches memory at any later step (`flush`). `core` is what every
  thread sees in memory.

  A step of the main thread that is an atomic read-modify-write, a full fence or a
  system call (`fences`) waits for an empty buffer: its `send` and `compare_exchange`,
  its reads and writes of the fd, the event loop's wait before `async_handler` is
  dispatched, and a `try_recv` that reports the channel empty. `is_empty` only loads
  two indices, so it is not one of them; nor need a `try_recv` that takes a runnable
  be one for what follows.

  - `a_stale_flag_strands`: the early return can leave with the clear still buffered. A
    schedule that runs then sends after `is_empty` looked and finds TICKLED still set:
    it does not write, the clear lands, and the runnable stays queued with the fd
    unreadable and nginx asleep.
  - `wakeup_unless_stale`: that is the only way. In a run where no such
    `compare_exchange` is the last word, every rest state with a queued runnable has a
    readable fd; and each step the condition excludes leads to a stranded runnable. The
    exit that leaves the clear buffered is the early return: the other two, an empty
    `try_recv` and the forced tickle, flush it (`early_return`).
-/

import NgxTickle.Sched.Wakeup

namespace NgxTickle.Sched.Tso

open NgxTickle.Notify NgxTickle.Sched

structure TSt (P ρ : Type) where
  core : St P ρ
  /-- The main thread's pending stores to TICKLED, oldest first. -/
  buf : List Bool

inductive TEv (P ρ : Type) where
  | core (e : Ev P ρ)
  | flush
  deriving DecidableEq, Repr

variable {P ρ : Type}

def fences : Ev P ρ → Bool
  | .send .main _ | .cas .main _ | .write .main | .enter | .drain | .tryRecv none | .tickle => true
  | _ => false

section

variable [DecidableEq P] [DecidableEq ρ]

def tstep (s : TSt P ρ) : TEv P ρ → Option (TSt P ρ)
  | .flush =>
    match s.buf with
    | [] => none
    | v :: rest => some ⟨{ s.core with tickled := v }, rest⟩
  | .core .clear =>
    -- the store is buffered: memory keeps its value
    if s.core.handler = .drained then some ⟨{ s.core with handler := .cleared }, s.buf ++ [false]⟩ else none
  | .core e => if fences e = true ∧ s.buf ≠ [] then none else (step s.core e).map (⟨·, s.buf⟩)

def tso (P ρ : Type) [DecidableEq P] [DecidableEq ρ] : Lib.Machine (TSt P ρ) (TEv P ρ) where
  init s := Init s.core ∧ s.buf = []
  step := tstep

/-! ## What each step can do -/

inductive TStep : TSt P ρ → TEv P ρ → TSt P ρ → Prop
  | flush (s : TSt P ρ) (v : Bool) (rest : List Bool) : s.buf = v :: rest →
      TStep s .flush ⟨{ s.core with tickled := v }, rest⟩
  | clear (s : TSt P ρ) : s.core.handler = .drained →
      TStep s (.core .clear) ⟨{ s.core with handler := .cleared }, s.buf ++ [false]⟩
  | core (s : TSt P ρ) (e : Ev P ρ) (c : St P ρ) : e ≠ .clear → (fences e = true → s.buf = []) → Step s.core e c →
      TStep s (.core e) ⟨c, s.buf⟩

theorem tstep_inv {s s' : TSt P ρ} {e : TEv P ρ} (h : tstep s e = some s') : TStep s e s' := by
  unfold tstep at h
  split at h
  · split at h
    · cases h
    · rename_i v rest hb
      cases h
      exact .flush s v rest hb
  · simp only [Option.ite_none_right_eq_some, Option.some.injEq] at h
    obtain ⟨h1, rfl⟩ := h
    exact .clear s h1
  · rename_i e hne
    split at h
    · cases h
    · rename_i hf
      obtain ⟨c, hc, rfl⟩ := Option.map_eq_some_iff.mp h
      refine .core s e c (fun he => hne he) (fun hfe => ?_) (step_inv hc)
      by_cases hb : s.buf = []
      · exact hb
      · exact absurd ⟨hfe, hb⟩ hf

/-! ## The invariants -/

/-- What holds in every run: at most the one clear is pending, only after the clear and
    before the next dispatch; and with nothing pending a set flag is backed. -/
structure TInv (s : TSt P ρ) : Prop where
  buf : s.buf = [] ∨ s.buf = [false]
  place : s.core.handler = .entered ∨ s.core.handler = .drained → s.buf = []
  backed : s.buf = [] → s.core.tickled = true → Backed s.core

omit [DecidableEq ρ] in
theorem place_step {s s' : St P ρ} {e : Ev P ρ} (h : Step s e s') (hne : e ≠ .clear)
    (hp : s'.handler = .entered ∨ s'.handler = .drained) :
    fences e = true ∨ s.handler = .entered ∨ s.handler = .drained := by
  cases h with
  | call t r _ _ => exact Or.inr hp
  | send t r _ => exact Or.inr hp
  | casWon t _ _ => exact Or.inr hp
  | casLost t _ _ => exact Or.inr hp
  | write t _ => exact Or.inr hp
  | setBatch value => exact Or.inr hp
  | enter _ _ _ => exact Or.inl rfl
  | drain _ => exact Or.inl rfl
  | clear _ => exact absurd rfl hne
  | _ => simp at hp

omit [DecidableEq ρ] in
theorem tinv_step {s s' : TSt P ρ} {e : TEv P ρ} (hi : TInv s) (h : TStep s e s') : TInv s' := by
  cases h with
  | flush v rest hb =>
    rcases hi.buf with h | h
    · rw [h] at hb; cases hb
    · rw [h] at hb
      cases hb
      exact ⟨Or.inl rfl, fun _ => rfl, fun _ ht => by cases ht⟩
  | clear hh =>
    have hb : s.buf = [] := hi.place (Or.inr hh)
    refine ⟨Or.inr (by simp [hb]), fun hp => ?_, fun h => ?_⟩
    · simp at hp
    · simp at h
  | core e c hne hf hs =>
    refine ⟨hi.buf, fun hp => ?_, fun hb ht => backed_step (hi.backed hb) hs ht⟩
    rcases place_step hs hne hp with h | h
    · exact hf h
    · exact hi.place h

theorem tinv_invariant : (tso P ρ).Invariant (TInv (P := P) (ρ := ρ)) := by
  constructor
  · intro s hi
    obtain ⟨⟨cap, hc, hs⟩, hb⟩ := hi
    refine ⟨Or.inl hb, fun _ => hb, fun _ ht => ?_⟩
    rw [hs] at ht
    cases ht
  · intro s e s' hi h
    exact tinv_step hi (tstep_inv h)

/-- The main thread is in the event loop with nothing pending, and no thread is inside `schedule`. -/
def TSt.Rest (s : TSt P ρ) : Prop := s.core.handler = .idle ∧ s.buf = [] ∧ s.core.Quiet

/-- The step that goes wrong: the last thread inside `schedule` is at its
    `compare_exchange`, TICKLED is still set in memory, and the clear of a handler that
    has already returned early is still in the buffer, with a runnable queued and
    nothing to be read from the fd. -/
def Strands (s : TSt P ρ) (e : TEv P ρ) : Prop :=
  ∃ p won, e = .core (.cas (.other p) won) ∧ s.core.tickled = true ∧ s.buf ≠ [] ∧ s.core.handler = .idle ∧
    s.core.chan ≠ [] ∧ s.core.fd.readable = false ∧ ∀ t, t ≠ .other p → s.core.pc t = .out

omit [DecidableEq ρ] in
/-- Unless it is the step that goes wrong, every step keeps the queue watched. -/
theorem watched_tstep {s s' : TSt P ρ} {e : TEv P ρ} (hi : TInv s) (hw : Watched (· ≠ .out) s.core)
    (hok : ¬ Strands s e) (h : TStep s e s') : Watched (· ≠ .out) s'.core := by
  cases h with
  | flush v rest hb => exact hw
  | clear hh => intro _; exact Or.inr (Or.inr rfl)
  | core e c hne hf hs =>
    refine watched_step (by simp) (by simp) (by simp) hw hs fun t hpc he hc => ?_
    subst he
    have hset : s.core.tickled = true := by
      cases hs with
      | casLost _ _ ht => exact ht
    by_cases hb : s.buf = []
    · -- nothing is pending: the flag is backed as it is on a sequentially consistent machine
      rcases backed_setPc (c := .out) (hi.backed hb hset) (by rw [hpc]; simp) with h | ⟨u, hu⟩ | h
      · exact Or.inl h
      · exact Or.inr (Or.inl ⟨u, by rw [hu]; simp⟩)
      · exact Or.inr (Or.inr (by rw [h]; rfl))
    · cases t with
      | main => exact absurd (hf rfl) hb
      | other p =>
        by_cases hl : s.core.handler.looks = true
        · exact Or.inr (Or.inr hl)
        have hidle : s.core.handler = .idle := by
          cases hh : s.core.handler with
          | idle => rfl
          | entered => exact absurd (hi.place (Or.inl hh)) hb
          | _ => rw [hh] at hl; exact absurd rfl hl
        cases hr : s.core.fd.readable with
        | true => exact Or.inl hr
        | false =>
          by_cases hu : ∃ u, u ≠ .other p ∧ s.core.pc u ≠ .out
          · obtain ⟨u, hup, hu⟩ := hu
            exact Or.inr (Or.inl ⟨u, by rw [setPc_ne _ _ hup]; exact hu⟩)
          · refine absurd ⟨p, false, rfl, hset, hb, hidle, hc, hr, fun t ht => ?_⟩ hok
            by_cases hto : s.core.pc t = .out
            · exact hto
            · exact absurd ⟨t, ht, hto⟩ hu

theorem watched_run {tr : List (TEv P ρ)} {s : TSt P ρ} (h : (tso P ρ).RunIf (fun s e => ¬ Strands s e) tr s) :
    Watched (· ≠ .out) s.core := by
  refine Lib.Machine.runIf_induction (J := fun _ s => Watched (· ≠ .out) s.core) ?_ ?_ h
  · intro s hi hne
    obtain ⟨⟨cap, hc, hs⟩, _⟩ := hi
    rw [hs] at hne
    exact absurd rfl hne
  · intro tr s e s' hr hw hok hst
    exact watched_tstep (tinv_invariant.run hr.run) hw hok (tstep_inv hst)

/-- After the step that goes wrong, the pending clear lands and the runnable is stranded. -/
theorem strands_stranded {s s' : TSt P ρ} {e : TEv P ρ} (hi : TInv s) (hS : Strands s e) (h : TStep s e s') :
    ∃ s'', tstep s' .flush = some s'' ∧ s''.Rest ∧ s''.core.chan ≠ [] ∧ s''.core.fd.readable = false := by
  obtain ⟨p, won, rfl, ht, hb, hh, hc, hr, hq⟩ := hS
  cases h with
  | core _ c _ _ hs =>
    cases hs with
    | casWon _ _ hf => rw [hf] at ht; cases ht
    | casLost _ hpc _ =>
      have hbuf : s.buf = [false] := hi.buf.resolve_left hb
      refine ⟨⟨{ s.core.setPc (.other p) .out with tickled := false }, []⟩, by simp [tstep, hbuf],
        ⟨hh, rfl, fun t => ?_⟩, hc, hr⟩
      by_cases e : t = .other p
      · subst e; simp
      · show (s.core.setPc (.other p) .out).pc t = .out
        rw [setPc_ne _ _ e]; exact hq t e

/-- The last exit of the handler was the early return of `is_empty`. -/
def EarlyReturn (tr : List (TEv P ρ)) : Prop := ∃ pre post, tr = pre ++ .core (.isEmpty true) :: post ∧ .core .enter ∉ post

omit [DecidableEq P] [DecidableEq ρ] in
theorem EarlyReturn.snoc {tr : List (TEv P ρ)} {e : TEv P ρ} (h : EarlyReturn tr) (he : e ≠ .core .enter) :
    EarlyReturn (tr ++ [e]) := by
  obtain ⟨pre, post, rfl, hp⟩ := h
  refine ⟨pre, post ++ [e], by simp, ?_⟩
  rw [List.mem_append, not_or]
  exact ⟨hp, by simpa using Ne.symm he⟩

omit [DecidableEq ρ] in
/-- An exit that fences leaves nothing in the buffer. -/
theorem early_step {tr : List (TEv P ρ)} {s s' : TSt P ρ} {e : TEv P ρ} (hi : TInv s)
    (ih : s.core.handler = .idle → s.buf ≠ [] → EarlyReturn tr) (h : TStep s e s') (hh : s'.core.handler = .idle)
    (hb : s'.buf ≠ []) : EarlyReturn (tr ++ [e]) := by
  cases h with
  | flush v rest hv =>
    rcases hi.buf with h | h
    · rw [h] at hv; cases hv
    · rw [h] at hv
      cases hv
      exact absurd rfl hb
  | clear _ => cases hh
  | core e c _ hf hs =>
    cases hs with
    | empty limit _ _ => exact ⟨tr, [], rfl, List.not_mem_nil⟩
    | recvNone limit cnt _ _ => exact absurd (hf rfl) hb
    | tickle _ => exact absurd (hf rfl) hb
    | call t r _ _ => exact (ih hh hb).snoc (by simp)
    | send t r _ => exact (ih hh hb).snoc (by simp)
    | casWon t _ _ => exact (ih hh hb).snoc (by simp)
    | casLost t _ _ => exact (ih hh hb).snoc (by simp)
    | write t _ => exact (ih hh hb).snoc (by simp)
    | setBatch value => exact (ih hh hb).snoc (by simp)
    | _ => cases hh

/-- With its clear still buffered the handler has left by the early return. -/
theorem early_return {tr : List (TEv P ρ)} {s : TSt P ρ} (h : (tso P ρ).Run tr s) :
    s.core.handler = .idle → s.buf ≠ [] → EarlyReturn tr := by
  refine Lib.Machine.run_induction (J := fun tr s => s.core.handler = .idle → s.buf ≠ [] → EarlyReturn tr) ?_ ?_ h
  · intro s hs _ hb
    exact absurd hs.2 hb
  · intro tr s e s' hr ih hst
    exact early_step (tinv_invariant.run hr) ih (tstep_inv hst)

/-- In a run none of whose steps is the one that goes wrong, a queued runnable at rest
    has a readable fd; and every such step comes after an early return and leads to a
    rest state where it has not. -/
theorem wakeup_unless_stale :
    (∀ (tr : List (TEv P ρ)) (s : TSt P ρ), (tso P ρ).RunIf (fun s e => ¬ Strands s e) tr s → s.Rest →
      s.core.chan ≠ [] → s.core.fd.readable = true) ∧
    ∀ (tr : List (TEv P ρ)) (s s' : TSt P ρ) (e : TEv P ρ), (tso P ρ).Run tr s → Strands s e →
      tstep s e = some s' → EarlyReturn tr ∧ ∃ s'', (tso P ρ).Run (tr ++ [e, .flush]) s'' ∧ s''.Rest ∧
        s''.core.chan ≠ [] ∧ s''.core.fd.readable = false := by
  constructor
  · intro tr s h hrest hc
    obtain ⟨hh, _, hq⟩ := hrest
    exact watched_rest (watched_run h) (by simp) hh hq hc
  · intro tr s s' e h hS hst
    obtain ⟨s'', hf, h''⟩ := strands_stranded (tinv_invariant.run h) hS (tstep_inv hst)
    have hf' : (tso P ρ).step s' .flush = some s'' := hf
    have hrun := (h.snoc hst).snoc hf'
    rw [List.append_assoc] at hrun
    obtain ⟨p, won, -, -, hb, hh, -⟩ := hS
    exact ⟨early_return h hh hb, s'', hrun, h''⟩

end

/-! ## The stranded runnable -/

/-- Threads 0 and 1 queue runnables 10 and 11; the handler runs both before thread 1
    flips TICKLED, so its write dispatches the handler again on an empty channel. -/
def toEarlyReturn : List (Ev Nat Nat) :=
  [.call (.other 0) 10, .send (.other 0) 10, .cas (.other 0) true, .write (.other 0),
   .call (.other 1) 11, .send (.other 1) 11,
   .enter, .drain, .clear, .load 8, .isEmpty false,
   .tryRecv (some 10), .run 10, .ret 10 false, .tryRecv (some 11), .run 11, .ret 11 false]

/-- The second invocation returns early with its clear buffered; thread 0 then queues 12. -/
def staleTrace : List (TEv Nat Nat) :=
  toEarlyReturn.map .core ++ [.flush, .core (.tryRecv none), .core (.cas (.other 1) true), .core (.write (.other 1)),
   .core .enter, .core .drain, .core .clear, .core (.load 8), .core (.isEmpty true),
   .core (.call (.other 0) 12), .core (.send (.other 0) 12), .core (.cas (.other 0) false), .flush]

def started : TSt Nat Nat := ⟨start [] false 8 (Fd.new 1 Nat.one_pos), []⟩

theorem a_stale_flag_strands :
    ∃ s, (tso Nat Nat).Run staleTrace s ∧ s.Rest ∧ s.core.chan = [12] ∧ s.core.fd.readable = false := by
  refine ⟨_, ⟨started, ⟨⟨1, by decide, rfl⟩, rfl⟩, Lib.Machine.steps_of_exec rfl⟩, ⟨rfl, rfl, ?_⟩, rfl, rfl⟩
  intro t
  rcases t with _ | _ | _ | n <;> rfl

/-- The main thread schedules from the event loop: none of its steps is the one that goes wrong. -/
theorem wakeup_unless_stale_main :
    ∃ s, (tso Nat Nat).Run ([.call .main 10, .send .main 10, .cas .main true, .write .main].map .core) s ∧
      s.core.chan = [10] ∧ s.core.fd.readable = true := by
  obtain ⟨s, hs, hrest, hc⟩ : ∃ s, (tso Nat Nat).exec started
      ([.call .main 10, .send .main 10, .cas .main true, .write .main].map .core) = some s ∧ s.Rest ∧
        s.core.chan = [10] := by
    refine ⟨_, rfl, ⟨rfl, rfl, ?_⟩, rfl⟩
    intro t
    rcases t with _ | _ <;> rfl
  have h0 : (tso Nat Nat).init started := ⟨⟨1, by decide, rfl⟩, rfl⟩
  have hrun := Lib.Machine.steps_of_exec hs
  refine ⟨s, ⟨started, h0, hrun⟩, hc, ?_⟩
  refine wakeup_unless_stale.1 _ s ⟨started, h0, hrun, Lib.Machine.meets_of_events ?_⟩ hrest (by simp [hc])
  intro a ha t hbad
  obtain ⟨p, won, rfl, -⟩ := hbad
  simp at ha

end NgxTickle.Sched.Tso
