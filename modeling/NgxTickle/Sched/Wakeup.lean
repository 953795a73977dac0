/-
  NgxTickle.Sched.Wakeup — no lost wakeup: in every state any interleaving reaches, a
  set TICKLED is backed by a readable fd, by a thread about to write, or by a handler
  between its drain and its clear (`Backed`); and a queued runnable by a readable fd,
  by a thread past its send, or by a handler that will look at the channel or write
  (`Watched`).

  The order of the handler's first two steps is what makes it so: a schedule that
  finds TICKLED still set after the drain has sent before the handler looks, and one
  that flips it after the clear writes to a drained fd.
-/

import NgxTickle.Sched.Model

namespace NgxTickle.Sched

open NgxTickle.Notify

variable {P ρ : Type}

/-- Past its drain, and not yet past its last look at the channel or its forced write. -/
def Handler.looks : Handler ρ → Bool
  | .idle | .entered => false
  | _ => true

/-- Past its send: it will test TICKLED, or write. -/
def Pc.pastSend : Pc ρ → Prop
  | .sent | .won => True
  | _ => False

def Backed (s : St P ρ) : Prop := s.fd.readable = true ∨ (∃ t, s.pc t = .won) ∨ s.handler = .drained

/-- Someone sees to a queued runnable: the fd, a thread that is at `B`, or the handler. -/
def Watched (B : Pc ρ → Prop) (s : St P ρ) : Prop :=
  s.chan ≠ [] → s.fd.readable = true ∨ (∃ t, B (s.pc t)) ∨ s.handler.looks = true

structure Inv (s : St P ρ) : Prop where
  tickled : s.tickled = true → Backed s
  queued : Watched Pc.pastSend s

/-- A fresh fd with nothing queued, and any queue with a readable fd, start well. -/
theorem inv_start (chan : List ρ) (tickled : Bool) (batch : UInt32) (fd : Fd)
    (h : fd.readable = true ∨ chan = [] ∧ tickled = false) :
    Inv (start chan tickled batch fd : St P ρ) := by
  rcases h with h | ⟨rfl, rfl⟩
  · exact ⟨fun _ => Or.inl h, fun _ => Or.inl h⟩
  · refine ⟨fun h => ?_, fun h => absurd rfl h⟩
    cases h

/-- In the event loop with no thread at `B`, a queued runnable has a readable fd. -/
theorem watched_rest {B : Pc ρ → Prop} {s : St P ρ} (hw : Watched B s) (hout : ¬ B .out) (hh : s.handler = .idle)
    (hq : s.Quiet) (hc : s.chan ≠ []) : s.fd.readable = true := by
  rcases hw hc with h | ⟨t, h⟩ | h
  · exact h
  · rw [hq t] at h; exact absurd h hout
  · rw [hh] at h; cases h

/-- The handler moves on from any place but the one between drain and clear. -/
theorem backed_move {s s' : St P ρ} (h : Backed s) (hd : s.handler ≠ .drained) (hf : s'.fd = s.fd)
    (hp : s'.pc = s.pc) : Backed s' := by
  rcases h with h | ⟨t, h⟩ | h
  · left; rw [hf]; exact h
  · right; left; exact ⟨t, by rw [hp]; exact h⟩
  · exact absurd h hd

variable [DecidableEq P]

/-- Moving a thread that was not at `B` leaves those that are. -/
theorem exists_setPc {B : Pc ρ → Prop} {s : St P ρ} {t : Thread P} {c : Pc ρ} (hc : ¬ B (s.pc t))
    (h : ∃ u, B (s.pc u)) : ∃ u, B ((s.setPc t c).pc u) := by
  obtain ⟨u, hu⟩ := h
  have hut : u ≠ t := fun e => hc (e ▸ hu)
  exact ⟨u, by rw [setPc_ne s c hut]; exact hu⟩

/-- A thread that had not won moves on. -/
theorem backed_setPc {s : St P ρ} {t : Thread P} {c : Pc ρ} (h : Backed s) (hc : s.pc t ≠ .won) :
    Backed (s.setPc t c) := by
  rcases h with h | h | h
  · exact Or.inl h
  · exact Or.inr (Or.inl (exists_setPc (B := (· = .won)) hc h))
  · exact Or.inr (Or.inr h)

theorem backed_step {s s' : St P ρ} {e : Ev P ρ} (ht : s.tickled = true → Backed s) (h : Step s e s') :
    s'.tickled = true → Backed s' := by
  cases h with
  | call t r hpc _ => intro h; exact backed_setPc (ht h) (by rw [hpc]; simp)
  | send t r hpc => intro h; exact backed_setPc (ht h) (by rw [hpc]; simp)
  | casWon t hpc hf => intro _; exact Or.inr (Or.inl ⟨t, by simp⟩)
  | casLost t hpc hf => intro h; exact backed_setPc (ht h) (by rw [hpc]; simp)
  | write t hpc => intro _; exact Or.inl (by simp)
  | setBatch value => exact ht
  | enter hh _ hr => intro _; exact Or.inl hr
  | drain hh => intro _; exact Or.inr (Or.inr rfl)
  | clear hh => intro h; cases h
  | load hh => intro h; exact backed_move (ht h) (by rw [hh]; simp) rfl rfl
  | empty limit hh hc => intro h; exact backed_move (ht h) (by rw [hh]; simp) rfl rfl
  | nonempty limit hh hc => intro h; exact backed_move (ht h) (by rw [hh]; simp) rfl rfl
  | recvNone limit cnt hh hc => intro h; exact backed_move (ht h) (by rw [hh]; simp) rfl rfl
  | recvSome limit cnt r rest hh hc => intro h; exact backed_move (ht h) (by rw [hh]; simp) rfl rfl
  | run limit cnt r hh => intro h; exact backed_move (ht h) (by rw [hh]; simp) rfl rfl
  | retLimit limit cnt r hh _ _ => intro h; exact backed_move (ht h) (by rw [hh]; simp) rfl rfl
  | retNext limit cnt r hh _ _ => intro h; exact backed_move (ht h) (by rw [hh]; simp) rfl rfl
  | tickle hh => intro _; exact Or.inl (by simp)

/-- Every step keeps the queue watched, except perhaps a `compare_exchange` that fails:
    that thread leaves, and someone else must be there (`hlost`). -/
theorem watched_step {B : Pc ρ → Prop} (hsent : B .sent) (hwon : B .won) (hout : ¬ B .out) {s s' : St P ρ}
    {e : Ev P ρ} (hw : Watched B s) (h : Step s e s')
    (hlost : ∀ t, s.pc t = .sent → e = .cas t false → Watched B (s.setPc t .out)) : Watched B s' := by
  cases h with
  | call t r hpc _ =>
    intro hc
    rcases hw hc with h | h | h
    · exact Or.inl h
    · exact Or.inr (Or.inl (exists_setPc (by rw [hpc]; exact hout) h))
    · exact Or.inr (Or.inr h)
  | send t r hpc => intro _; exact Or.inr (Or.inl ⟨t, by simpa using hsent⟩)
  | casWon t hpc hf => intro _; exact Or.inr (Or.inl ⟨t, by simpa using hwon⟩)
  | casLost t hpc hf => exact hlost t hpc rfl
  | write t hpc => intro _; exact Or.inl (by simp)
  | setBatch value => exact hw
  | enter hh _ hr => intro _; exact Or.inl hr
  | empty limit hh hc => intro h; exact absurd hc h
  | recvNone limit cnt hh hc => intro h; exact absurd hc h
  | tickle hh => intro _; exact Or.inl (by simp)
  | _ => intro _; exact Or.inr (Or.inr rfl)

theorem inv_step {s s' : St P ρ} {e : Ev P ρ} (hi : Inv s) (h : Step s e s') : Inv s' := by
  refine ⟨backed_step hi.tickled h, ?_⟩
  refine watched_step trivial trivial (fun h => h) hi.queued h fun t hpc he hc => ?_
  -- the flag that stopped this thread is backed by someone else
  have hb : Backed s := by
    subst he
    cases h with
    | casLost _ _ hf => exact hi.tickled hf
  rcases backed_setPc (c := .out) hb (by rw [hpc]; simp) with h | ⟨u, hu⟩ | h
  · exact Or.inl h
  · exact Or.inr (Or.inl ⟨u, by rw [hu]; trivial⟩)
  · exact Or.inr (Or.inr (by rw [h]; rfl))

variable [DecidableEq ρ]

theorem inv_invariant : (machine P ρ).Invariant (Inv (P := P) (ρ := ρ)) := by
  constructor
  · intro s hs
    obtain ⟨cap, hc, rfl⟩ := hs
    exact inv_start [] false 8 _ (Or.inr ⟨rfl, rfl⟩)
  · intro s e s' hi h
    exact inv_step hi (step_inv h)

theorem inv_reach {s : St P ρ} (h : (machine P ρ).Reach s) : Inv s := inv_invariant.reach h

/-- No lost wakeup, at every pair of program points; in the event loop with no thread
    inside `schedule`, a queued runnable makes nginx dispatch the handler. -/
theorem no_lost_wakeup {s : St P ρ} (h : (machine P ρ).Reach s) :
    (s.tickled = true → s.fd.readable = true ∨ (∃ t, s.pc t = .won) ∨ s.handler = .drained) ∧
    (s.chan ≠ [] → s.fd.readable = true ∨ (∃ t, (s.pc t).pastSend) ∨ s.handler.looks = true) ∧
    (s.handler = .idle → s.Quiet → s.chan ≠ [] → s.fd.readable = true ∧ (step s .enter).isSome = true) := by
  have hi := inv_reach h
  refine ⟨hi.tickled, hi.queued, fun hh hq hc => ?_⟩
  have hr := watched_rest hi.queued (fun h => h) hh hq hc
  exact ⟨hr, by simp [step, hh, hq .main, hr]⟩

/-- A worker thread schedules one runnable: TICKLED is set and the handler will be dispatched. -/
def scheduledOnce : St Nat Nat :=
  ⟨[7], true, 8, (Fd.new 1 (by decide)).write, Function.update (fun _ => .out) (.other 0) .out, .idle⟩

theorem scheduledOnce_reach : (machine Nat Nat).Reach scheduledOnce := by
  have h : (machine Nat Nat).exec (start [] false 8 (Fd.new 1 (by decide)))
      [.call (.other 0) 7, .send (.other 0) 7, .cas (.other 0) true, .write (.other 0)] = some scheduledOnce := by
    simp [Lib.Machine.exec, step, start, St.mayCall, St.setPc, scheduledOnce]
  exact ⟨_, _, ⟨1, by decide, rfl⟩, Lib.Machine.steps_of_exec h⟩

theorem no_lost_wakeup_scheduledOnce :
    scheduledOnce.tickled = true ∧ scheduledOnce.fd.readable = true ∧ (step scheduledOnce .enter).isSome = true := by
  have hq : scheduledOnce.Quiet := by
    intro t
    simp [scheduledOnce]
  have h := no_lost_wakeup scheduledOnce_reach
  exact ⟨rfl, h.2.2 rfl hq (by simp [scheduledOnce])⟩

end NgxTickle.Sched
