/-
  NgxTickle.Sched.Place — where a runnable is: nowhere in the scheduler, in the hands of
  a thread inside `schedule`, in the channel, or taken by the handler. A runnable that
  is handed to `schedule` only when it is nowhere is always at one place, once
  (`placed_step`), and each event finds it where it must be (`placed_send`,
  `placed_recv`, `placed_run`).
-/

import NgxTickle.Sched.Model

namespace NgxTickle.Sched

variable {P ρ : Type} [DecidableEq P] [DecidableEq ρ]

inductive Place (P : Type) where
  | nowhere
  | hand (t : Thread P)
  | queued
  | taken
  deriving DecidableEq, Repr

structure Placed (s : St P ρ) (r : ρ) (l : Place P) : Prop where
  hand : ∀ t, s.pc t = .entered r ↔ l = .hand t
  queued : s.chan.count r = if l = .queued then 1 else 0
  taken : s.handler.taken.count r = if l = .taken then 1 else 0

/-- Where the event leaves a runnable that was at `l`. -/
def Ev.moves (r : ρ) (l : Place P) : Ev P ρ → Place P
  | .call t r' => if r' = r then .hand t else l
  | .send _ r' => if r' = r then .queued else l
  | .tryRecv (some r') => if r' = r then .taken else l
  | .run r' => if r' = r then .nowhere else l
  | _ => l

/-- The event concerns neither the runnable's thread, nor the channel, nor what is taken. -/
theorem Placed.keep {s s' : St P ρ} {r : ρ} {l : Place P} (h : Placed s r l)
    (hp : ∀ t, s'.pc t = .entered r ↔ s.pc t = .entered r) (hc : s'.chan.count r = s.chan.count r)
    (ht : s'.handler.taken.count r = s.handler.taken.count r) : Placed s' r l :=
  ⟨fun t => (hp t).trans (h.hand t), hc.trans h.queued, ht.trans h.taken⟩

omit [DecidableEq ρ] in
/-- A thread moves between points of `schedule` where it does not hold `r`. -/
theorem entered_setPc {s : St P ρ} {t : Thread P} {c : Pc ρ} {r : ρ} (hs : s.pc t ≠ .entered r) (hc : c ≠ .entered r)
    (u : Thread P) : (s.setPc t c).pc u = .entered r ↔ s.pc u = .entered r := by
  by_cases hu : u = t
  · subst hu
    simp [hs, hc]
  · rw [setPc_ne s c hu]

theorem placed_send {s s' : St P ρ} {t : Thread P} {r : ρ} {l : Place P} (hl : Placed s r l)
    (h : Step s (.send t r) s') : l = .hand t := by
  cases h with
  | send _ _ hpc => exact (hl.hand t).mp hpc

theorem placed_recv {s s' : St P ρ} {r : ρ} {l : Place P} (hl : Placed s r l) (h : Step s (.tryRecv (some r)) s') :
    l = .queued := by
  cases h with
  | recvSome limit cnt _ rest hh hc =>
    by_cases hq : l = .queued
    · exact hq
    · have := hl.queued
      rw [hc, if_neg hq] at this
      simp at this

theorem placed_run {s s' : St P ρ} {r : ρ} {l : Place P} (hl : Placed s r l) (h : Step s (.run r) s') :
    l = .taken := by
  cases h with
  | run limit cnt _ hh =>
    by_cases ht : l = .taken
    · exact ht
    · have := hl.taken
      rw [hh, if_neg ht] at this
      simp [Handler.taken] at this

/-- A runnable's place after a step. -/
theorem placed_step {s s' : St P ρ} {e : Ev P ρ} {r : ρ} {l : Place P} (hl : Placed s r l) (h : Step s e s')
    (hcall : ∀ t, e = .call t r → l = .nowhere) : Placed s' r (e.moves r l) := by
  cases h with
  | call t r' hpc _ =>
    by_cases hr : r' = r
    · subst hr
      have h0 := hcall t rfl
      subst h0
      refine ⟨fun u => ?_, by simpa [Ev.moves] using hl.queued, by simpa [Ev.moves] using hl.taken⟩
      by_cases hu : u = t
      · subst hu; simp [Ev.moves]
      · rw [setPc_ne s _ hu]
        have := hl.hand u
        simp only [Ev.moves, if_true]
        constructor
        · intro h; exact absurd (this.mp h) (by simp)
        · intro h; cases h; exact absurd rfl hu
    · rw [show Ev.moves r l (.call t r') = l by simp [Ev.moves, hr]]
      exact hl.keep (entered_setPc (by rw [hpc]; simp) (by simp [hr])) rfl rfl
  | send t r' hpc =>
    by_cases hr : r' = r
    · subst hr
      have h0 := (hl.hand t).mp hpc
      subst h0
      refine ⟨fun u => ?_, ?_, by simpa [Ev.moves] using hl.taken⟩
      · simp only [Ev.moves, if_true, reduceCtorEq, iff_false]
        show ¬ (s.setPc t .sent).pc u = .entered r'
        by_cases hu : u = t
        · subst hu; simp
        · rw [setPc_ne s _ hu]
          intro h
          have := (hl.hand u).mp h
          cases this
          exact hu rfl
      · have := hl.queued
        simp only [reduceCtorEq, if_false] at this
        simp [Ev.moves, this]
    · rw [show Ev.moves r l (.send t r') = l by simp [Ev.moves, hr]]
      refine hl.keep (fun u => ?_) ?_ rfl
      · exact entered_setPc (by rw [hpc]; simp [hr]) (by simp) u
      · simp [List.count_append, hr]
  | casWon t hpc _ => exact hl.keep (entered_setPc (by rw [hpc]; simp) (by simp)) rfl rfl
  | casLost t hpc _ => exact hl.keep (entered_setPc (by rw [hpc]; simp) (by simp)) rfl rfl
  | write t hpc => exact hl.keep (entered_setPc (by rw [hpc]; simp) (by simp)) rfl rfl
  | setBatch value => exact hl.keep (fun _ => Iff.rfl) rfl rfl
  | recvSome limit cnt r' rest hh hc =>
    by_cases hr : r' = r
    · subst hr
      have h0 : l = .queued := placed_recv hl (Step.recvSome s limit cnt r' rest hh hc)
      subst h0
      have hq := hl.queued
      have ht := hl.taken
      rw [hc] at hq
      rw [hh] at ht
      refine ⟨fun u => ?_, ?_, ?_⟩
      · simpa [Ev.moves] using hl.hand u
      · simp at hq
        simpa [Ev.moves, List.count_eq_zero] using hq
      · simp [Ev.moves, Handler.taken]
    · rw [show Ev.moves r l (.tryRecv (some r')) = l by simp [Ev.moves, hr]]
      refine hl.keep (fun _ => Iff.rfl) ?_ ?_
      · rw [hc, List.count_cons_of_ne hr]
      · rw [hh]; simp [Handler.taken, hr]
  | run limit cnt r' hh =>
    by_cases hr : r' = r
    · subst hr
      have h0 : l = .taken := placed_run hl (Step.run s limit cnt r' hh)
      subst h0
      exact ⟨fun u => by simpa [Ev.moves] using hl.hand u, by simpa [Ev.moves] using hl.queued,
        by simp [Ev.moves, Handler.taken]⟩
    · rw [show Ev.moves r l (.run r') = l by simp [Ev.moves, hr]]
      refine hl.keep (fun _ => Iff.rfl) rfl ?_
      rw [hh]; simp [Handler.taken, hr]
  | enter hh _ _ => exact hl.keep (fun _ => Iff.rfl) rfl (by rw [hh]; rfl)
  | drain hh => exact hl.keep (fun _ => Iff.rfl) rfl (by rw [hh]; rfl)
  | clear hh => exact hl.keep (fun _ => Iff.rfl) rfl (by rw [hh]; rfl)
  | load hh => exact hl.keep (fun _ => Iff.rfl) rfl (by rw [hh]; rfl)
  | empty limit hh _ => exact hl.keep (fun _ => Iff.rfl) rfl (by rw [hh]; rfl)
  | nonempty limit hh _ => exact hl.keep (fun _ => Iff.rfl) rfl (by rw [hh]; rfl)
  | recvNone limit cnt hh _ => exact hl.keep (fun _ => Iff.rfl) rfl (by rw [hh]; rfl)
  | retLimit limit cnt r' hh _ _ => exact hl.keep (fun _ => Iff.rfl) rfl (by rw [hh]; rfl)
  | retNext limit cnt r' hh _ _ => exact hl.keep (fun _ => Iff.rfl) rfl (by rw [hh]; rfl)
  | tickle hh => exact hl.keep (fun _ => Iff.rfl) rfl (by rw [hh]; rfl)

end NgxTickle.Sched
