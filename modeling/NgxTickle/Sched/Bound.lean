/-
  NgxTickle.Sched.Bound — the notifications in the wakeup fd never pile up. Between two
  drains TICKLED is cleared once, so besides the threads that had already won there are
  at most two more winners and one forced write; and a thread wins only once before it
  has written.

  `Bounded S u s` counts `u` notifications and the winners of `s` against the threads
  in `S`, with an allowance that depends on where the handler is (`Handler.slack`): a
  drain takes the notifications away and leaves at most the other threads as winners, a
  clear admits one more of them, the limit exit writes without one. `u` is kept apart
  from the fd, so that the same step lemma serves where only some of them are unread.
-/

import NgxTickle.Sched.Cost

namespace NgxTickle.Sched

open Lib (Census)

variable {P ρ : Type} [DecidableEq P]

/-- The threads other than the main thread that have called `schedule`. -/
def callers (tr : List (Ev P ρ)) : Finset P :=
  (tr.filterMap fun
    | .call (.other p) _ => some p
    | _ => none).toFinset

theorem callers_append (tr tr' : List (Ev P ρ)) : callers tr ⊆ callers (tr ++ tr') := by
  intro p hp
  unfold callers at hp ⊢
  rw [List.filterMap_append, List.toFinset_append]
  exact Finset.mem_union_left _ hp

theorem caller_mem {tr : List (Ev P ρ)} {p : P} {r : ρ} (h : .call (.other p) r ∈ tr) : p ∈ callers tr := by
  unfold callers
  rw [List.mem_toFinset, List.mem_filterMap]
  exact ⟨_, h, rfl⟩

/-- What may be owed or unread beyond one for each other thread. -/
def Handler.slack : Handler ρ → Nat
  | .idle | .entered => 3
  | .drained => 1
  | _ => 2

structure Bounded (S : Finset P) (u : Nat) (s : St P ρ) : Prop where
  others : ∀ p, s.pc (.other p) ≠ .out → p ∈ S
  main : s.handler.open_ = false → s.pc .main = .out
  owed : ∃ w, Census (· = .won) s.pc w ∧ u + w + (!s.tickled).toNat ≤ S.card + s.handler.slack

omit [DecidableEq P] in
theorem Bounded.mono {S : Finset P} {u u' : Nat} {s : St P ρ} (h : Bounded S u s) (hu : u' ≤ u) : Bounded S u' s := by
  obtain ⟨w, hw, hle⟩ := h.owed
  exact ⟨h.others, h.main, w, hw, by omega⟩

omit [DecidableEq P] in
theorem Bounded.widen {S S' : Finset P} {u : Nat} {s : St P ρ} (h : Bounded S u s) (hS : S ⊆ S') : Bounded S' u s := by
  obtain ⟨w, hw, hle⟩ := h.owed
  have := Finset.card_le_card hS
  exact ⟨fun p hp => hS (h.others p hp), h.main, w, hw, by omega⟩

/-- With the main thread outside `schedule`, the winners are among the other threads. -/
theorem Bounded.winners {S : Finset P} {u w : Nat} {s : St P ρ} (h : Bounded S u s) (hm : s.pc .main = .out)
    (hw : Census (· = .won) s.pc w) : w ≤ S.card := by
  calc
    w ≤ (S.image Thread.other).card := by
      refine hw.le_card _ fun t ht => ?_
      cases t with
      | main => rw [hm] at ht; cases ht
      | other p => exact Finset.mem_image_of_mem _ (h.others p (by rw [ht]; simp))
    _ ≤ S.card := Finset.card_image_le

theorem others_step {S S' : Finset P} {s s' : St P ρ} {e : Ev P ρ} (ho : ∀ p, s.pc (.other p) ≠ .out → p ∈ S)
    (hS : S ⊆ S') (hc : ∀ p r, e = .call (.other p) r → p ∈ S') (h : Step s e s') :
    ∀ p, s'.pc (.other p) ≠ .out → p ∈ S' := by
  have moved : ∀ t c, s'.pc = Function.update s.pc t c → (∀ p, t = .other p → c ≠ .out → p ∈ S') →
      ∀ p, s'.pc (.other p) ≠ .out → p ∈ S' := by
    intro t c hpc ht p hp
    rw [hpc] at hp
    by_cases e : Thread.other p = t
    · subst e
      exact ht p rfl (by simpa using hp)
    · rw [Function.update_of_ne e] at hp
      exact hS (ho p hp)
  cases h with
  | call t r _ _ => exact moved t _ rfl fun p hp _ => hc p r (by rw [hp])
  | send t r hpc => exact moved t _ rfl fun p hp _ => hS (ho p (by rw [← hp, hpc]; simp))
  | casWon t hpc _ => exact moved t _ rfl fun p hp _ => hS (ho p (by rw [← hp, hpc]; simp))
  | casLost t _ _ => exact moved t _ rfl fun p _ h => absurd rfl h
  | write t _ => exact moved t _ rfl fun p _ h => absurd rfl h
  | _ => exact fun p hp => hS (ho p hp)

theorem main_step {s s' : St P ρ} {e : Ev P ρ} (hm : s.handler.open_ = false → s.pc .main = .out)
    (h : Step s e s') : s'.handler.open_ = false → s'.pc .main = .out := by
  have moved : ∀ t c, s'.pc = Function.update s.pc t c → s'.handler = s.handler →
      (t = .main → s.handler.open_ = false → c = .out) → s'.handler.open_ = false → s'.pc .main = .out := by
    intro t c hpc hh ht ho
    rw [hh] at ho
    rw [hpc]
    by_cases e : Thread.main = t
    · subst e; simpa using ht rfl ho
    · rw [Function.update_of_ne e]; exact hm ho
  cases h with
  | call t r _ hmay => exact moved t _ rfl rfl fun e ho => by subst e; rw [show s.handler.open_ = true from hmay] at ho; cases ho
  | send t r hpc => exact moved t _ rfl rfl fun e ho => by subst e; rw [hm ho] at hpc; cases hpc
  | casWon t hpc _ => exact moved t _ rfl rfl fun e ho => by subst e; rw [hm ho] at hpc; cases hpc
  | casLost t _ _ => exact moved t _ rfl rfl fun _ _ => rfl
  | write t _ => exact moved t _ rfl rfl fun _ _ => rfl
  | setBatch => exact hm
  | enter _ hpc _ => exact fun _ => hpc
  | retLimit limit cnt r _ hpc _ => exact fun _ => hpc
  | retNext limit cnt r _ hpc _ => exact fun _ => hpc
  | empty limit _ _ => intro ho; cases ho
  | recvNone limit cnt _ _ => intro ho; cases ho
  | tickle _ => intro ho; cases ho
  | run limit cnt r _ => intro ho; cases ho
  | drain hh => exact fun _ => hm (by rw [hh]; rfl)
  | clear hh => exact fun _ => hm (by rw [hh]; rfl)
  | load hh => exact fun _ => hm (by rw [hh]; rfl)
  | nonempty limit hh _ => exact fun _ => hm (by rw [hh]; rfl)
  | recvSome limit cnt r rest hh _ => exact fun _ => hm (by rw [hh]; rfl)

variable [DecidableEq ρ]

/-- A tickle adds at most one notification and the drain takes them all away. -/
theorem bounded_step {S S' : Finset P} {u u' : Nat} {s s' : St P ρ} {e : Ev P ρ} (hb : Bounded S u s) (h : Step s e s')
    (hS : S ⊆ S') (hc : ∀ p r, e = .call (.other p) r → p ∈ S') (hu : u' ≤ u + count .tickle [e])
    (hd : e = .drain → u' = 0) : Bounded S' u' s' := by
  refine ⟨others_step hb.others hS hc h, main_step hb.main h, ?_⟩
  obtain ⟨w, hw, hle⟩ := hb.owed
  obtain ⟨m, hm, heq⟩ := census_step (c := .won) trivial hw h
  have hcard := Finset.card_le_card hS
  refine ⟨m, hm, ?_⟩
  cases h with
  | casWon t _ ht => simp [Ev.arrives, Ev.leaves, Ev.cost, ht] at *; omega
  | casLost t _ ht => simp [Ev.arrives, Ev.leaves, Ev.cost, ht] at *; omega
  | drain hh =>
    -- the winners left are other threads: the main thread is in the handler
    have hwin := hb.winners (hb.main (by rw [hh]; rfl)) hw
    have := (!s.tickled).toNat_le
    simp [Ev.arrives, Ev.leaves, hd rfl] at heq ⊢
    simp only [Handler.slack]
    omega
  | clear hh =>
    simp [Ev.arrives, Ev.leaves, Ev.cost, hh, Handler.slack] at *
    omega
  | _ => simp_all [Ev.arrives, Ev.leaves, Ev.cost, Handler.slack]; omega

omit [DecidableEq ρ] in
theorem bounded_init {s : St P ρ} (h : Init s) : Bounded (callers ([] : List (Ev P ρ))) s.fd.unread s := by
  obtain ⟨cap, hc, rfl⟩ := h
  exact ⟨fun p hp => absurd rfl hp, fun _ => rfl, 0, .none fun _ h => (by cases h), Nat.le_add_right 1 2⟩

omit [DecidableEq ρ] in
theorem unread_step {s s' : St P ρ} {e : Ev P ρ} (h : Step s e s') :
    s'.fd.unread ≤ s.fd.unread + count .tickle [e] := by
  cases h with
  | drain _ => exact Nat.zero_le _
  | write t _ => exact Notify.Fd.write_le s.fd
  | tickle _ => exact Notify.Fd.write_le s.fd
  | _ => exact Nat.le_add_right _ _

theorem bounded_run {tr : List (Ev P ρ)} {s : St P ρ} (h : (machine P ρ).Run tr s) :
    Bounded (callers tr) s.fd.unread s := by
  refine Lib.Machine.run_induction (J := fun tr s => Bounded (callers tr) s.fd.unread s) (fun s => bounded_init) ?_ h
  intro tr s e s' _ ih hst
  have hs := step_inv hst
  refine bounded_step ih hs (callers_append tr [e]) ?_ (unread_step hs) ?_
  · rintro p r rfl
    exact caller_mem (r := r) (by simp)
  · rintro rfl; cases hs; rfl

/-- Unread notifications and threads about to write are at most the other threads that
    call `schedule` and three more; a larger fd is never found full. -/
theorem notifications_bounded {tr : List (Ev P ρ)} {s : St P ρ} (h : (machine P ρ).Run tr s) :
    (∃ w, Census (· = .won) s.pc w ∧ s.fd.unread + w ≤ (callers tr).card + 3) ∧
    ((callers tr).card + 3 < s.fd.cap → ∀ e s', step s e = some s' → e.cost = some .tickle →
      s.fd.unread < s.fd.cap ∧ s'.fd.unread = s.fd.unread + 1) := by
  obtain ⟨w, hw, hle⟩ := (bounded_run h).owed
  have hslack : s.handler.slack ≤ 3 := by cases s.handler <;> simp [Handler.slack]
  refine ⟨⟨w, hw, by omega⟩, fun hcap e s' hst he => ?_⟩
  have hlt : s.fd.unread < s.fd.cap := by omega
  refine ⟨hlt, ?_⟩
  cases step_inv hst with
  | write t _ => exact Notify.Fd.write_unread hlt
  | tickle _ => exact Notify.Fd.write_unread hlt
  | casWon t _ _ => cases he
  | retLimit limit cnt r _ _ _ => cases he
  | _ => cases he

/-- One other thread and a fd with room for five: its write is not refused. -/
theorem notifications_bounded_five :
    ∃ s : St Nat Nat, ∃ s', (machine Nat Nat).Run [.call (.other 0) 7, .send (.other 0) 7, .cas (.other 0) true] s ∧
      step s (.write (.other 0)) = some s' ∧ s.fd.unread < s.fd.cap ∧ s'.fd.unread = s.fd.unread + 1 := by
  have h0 : (machine Nat Nat).init (start [] false 8 (Notify.Fd.new 5 (Nat.succ_pos 4))) := ⟨5, Nat.succ_pos 4, rfl⟩
  obtain ⟨s, hs, hcap, s', hw⟩ : ∃ s, (machine Nat Nat).exec (start [] false 8 (Notify.Fd.new 5 (Nat.succ_pos 4)))
      [.call (.other 0) 7, .send (.other 0) 7, .cas (.other 0) true] = some s ∧ s.fd.cap = 5 ∧
      ∃ s', step s (.write (.other 0)) = some s' := ⟨_, rfl, rfl, _, rfl⟩
  have hrun : (machine Nat Nat).Run _ s := ⟨_, h0, Lib.Machine.steps_of_exec hs⟩
  have h := (notifications_bounded hrun).2 (by rw [hcap]; decide) _ s' hw rfl
  exact ⟨s, s', hrun, hw, h⟩

end NgxTickle.Sched
