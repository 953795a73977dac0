/-
  NgxTickle.Sched.Flag — what TICKLED says of the fd. The comment on the static has it
  `true` while a tickle is pending. At rest a set TICKLED has a readable fd behind it
  (`no_lost_wakeup`), but the fd can be readable with TICKLED false: the limit exit
  writes and leaves TICKLED as it is (`a_forced_tickle_is_not_flagged`).

  `Bypass` is a limit exit that writes while TICKLED is false, or while a thread that
  flipped it has yet to write, so that two notifications are under way.

  - `tickled_means_pending`: in a run without a `Bypass`, in particular in one without
    a limit exit (`unforced`), TICKLED and the fd agree at every rest, and a thread that
    flips TICKLED finds no notification pending. Each `Bypass` can be followed by a rest
    where they disagree.
  - `agree_iff`: whatever the run, at rest they disagree exactly when a notification is
    left that TICKLED does not announce: one written while TICKLED was false, or there
    when it was cleared (`Stray`). It lasts until a drain takes it or a flip announces it.
-/

import NgxTickle.Sched.Bound

namespace NgxTickle.Sched

open Lib (Census)

variable {P ρ : Type}

/-- The limit exit writes where TICKLED is false, or where a winner has yet to write. -/
def Bypass (s : St P ρ) (e : Ev P ρ) : Prop := e = .tickle ∧ (s.tickled = false ∨ ∃ t, s.pc t = .won)

/-- A write while TICKLED is false, or a clear while the fd is readable. -/
def Stray (s : St P ρ) : Ev P ρ → Prop
  | .write _ | .tickle => s.tickled = false
  | .clear => s.fd.readable = true
  | _ => False

/-- The fd is drained, or TICKLED set. -/
def Ev.settles : Ev P ρ → Prop
  | .drain | .cas _ true => True
  | _ => False

/-- A notification that TICKLED does not announce. -/
def Unflagged (s : St P ρ) : Prop := s.fd.readable = true ∧ s.tickled = false

variable [DecidableEq P]

/-! ## What a stray notification leaves -/

theorem unflagged_step {s s' : St P ρ} {e : Ev P ρ} (h : Step s e s') :
    Unflagged s' ↔ Stray s e ∨ Unflagged s ∧ ¬ e.settles := by
  cases h with
  | casWon t _ ht => simp [Unflagged, Stray, Ev.settles]
  | write t _ => simp [Unflagged, Stray, Ev.settles]
  | tickle _ => simp [Unflagged, Stray, Ev.settles]
  | drain _ => simp [Unflagged, Stray, Ev.settles]
  | clear _ =>
    show s.fd.readable = true ∧ false = false ↔ s.fd.readable = true ∨ Unflagged s ∧ ¬ False
    unfold Unflagged
    tauto
  | _ => simp [Unflagged, Stray, Ev.settles]

variable [DecidableEq ρ]

theorem unflagged_run {s₀ s : St P ρ} {tr : List (Ev P ρ)} (h0 : Init s₀) (h : (machine P ρ).Steps s₀ tr s) :
    Unflagged s ↔ (machine P ρ).Since Stray Ev.settles s₀ tr := by
  refine Lib.Machine.since_iff (Q := Unflagged) ?_ (fun t e t' hst => unflagged_step (step_inv hst)) h
  obtain ⟨cap, hc, rfl⟩ := h0
  simp [Unflagged, start]

/-- At rest TICKLED and the fd agree unless a stray notification is left. -/
theorem agree_iff {s₀ s : St P ρ} {tr : List (Ev P ρ)} (h0 : Init s₀) (h : (machine P ρ).Steps s₀ tr s)
    (hh : s.handler = .idle) (hq : s.Quiet) :
    (s.tickled = true ↔ s.fd.readable = true) ↔ ¬ (machine P ρ).Since Stray Ev.settles s₀ tr := by
  have backed : s.tickled = true → s.fd.readable = true := by
    intro ht
    rcases (inv_reach ⟨tr, s₀, h0, h⟩).tickled ht with hb | ⟨t, hb⟩ | hb
    · exact hb
    · rw [hq t] at hb; cases hb
    · rw [hh] at hb; cases hb
  rw [← unflagged_run h0 h]
  unfold Unflagged
  cases ht : s.tickled with
  | true => simp [backed ht]
  | false => simp

/-! ## Without a bypass -/

def Handler.room : Handler ρ → Nat
  | .drained => 0
  | _ => 1

/-- At most one notification is under way: unread, about to be written, or still to be
    announced; none between the drain and the clear. -/
structure Single (s : St P ρ) : Prop where
  one : ∃ w, Census (· = .won) s.pc w ∧ s.fd.readable.toNat + w + (!s.tickled).toNat ≤ s.handler.room
  entered : s.handler = .entered → s.fd.readable = true

omit [DecidableEq ρ] in
theorem room_le (h : Handler ρ) : h.room ≤ 1 := by cases h <;> simp [Handler.room]

theorem single_step {s s' : St P ρ} {e : Ev P ρ} (hi : Single s) (he : ¬ Bypass s e) (h : Step s e s') :
    Single s' ∧ ¬ Stray s e := by
  obtain ⟨w, hw, hle⟩ := hi.one
  obtain ⟨m, hm, heq⟩ := census_step (c := .won) trivial hw h
  have hroom := room_le s.handler
  cases h with
  | call t r _ _ => exact ⟨⟨⟨m, hm, by rw [show m = w from heq]; exact hle⟩, hi.entered⟩, fun h => h⟩
  | send t r _ => exact ⟨⟨⟨m, hm, by rw [show m = w from heq]; exact hle⟩, hi.entered⟩, fun h => h⟩
  | casLost t _ _ => exact ⟨⟨⟨m, hm, by rw [show m = w from heq]; exact hle⟩, hi.entered⟩, fun h => h⟩
  | setBatch => exact ⟨⟨⟨w, hw, hle⟩, hi.entered⟩, fun h => h⟩
  | casWon t _ ht =>
    refine ⟨⟨⟨m, hm, ?_⟩, hi.entered⟩, fun h => h⟩
    simp [Ev.leaves, Ev.arrives, ht] at heq hle ⊢
    omega
  | write t hpc =>
    have hpos := hw.pos (i := t) hpc
    refine ⟨⟨⟨m, hm, ?_⟩, fun _ => by simp⟩, fun hstray => ?_⟩
    · simp [Ev.leaves, Ev.arrives] at heq ⊢
      omega
    · -- this thread is the one notification under way, so it is announced
      rw [show s.tickled = false from hstray] at hle
      simp at hle
      omega
  | enter hh _ hr => exact ⟨⟨⟨w, hw, by rw [hh] at hle; exact hle⟩, fun _ => hr⟩, fun h => h⟩
  | drain hh =>
    rw [hi.entered hh, hh] at hle
    refine ⟨⟨⟨w, hw, ?_⟩, fun h => by cases h⟩, fun h => h⟩
    show s.fd.drain.readable.toNat + w + (!s.tickled).toNat ≤ 0
    rw [Notify.Fd.drain_readable]
    simp only [Handler.room, Bool.toNat_true, Bool.toNat_false] at hle ⊢
    omega
  | clear hh =>
    rw [hh] at hle
    simp [Handler.room] at hle
    obtain ⟨⟨hr, rfl⟩, -⟩ := hle
    refine ⟨⟨⟨0, hw, by simp [hr, Handler.room]⟩, fun h => by cases h⟩, fun hstray => ?_⟩
    rw [show s.fd.readable = true from hstray] at hr
    cases hr
  | tickle hh =>
    -- TICKLED announces it, and nobody is about to write another
    have ht : s.tickled = true := by
      cases ht : s.tickled with
      | true => rfl
      | false => exact absurd ⟨rfl, Or.inl ht⟩ he
    have hw0 : w = 0 := by
      have hle := hw.le_card ∅ fun t hpc => absurd ⟨rfl, Or.inr ⟨t, hpc⟩⟩ he
      simpa using hle
    subst hw0
    refine ⟨⟨⟨0, hw, by simp [ht, Handler.room]⟩, fun h => by cases h⟩, fun hstray => ?_⟩
    rw [show s.tickled = false from hstray] at ht
    cases ht
  | _ => exact ⟨⟨⟨w, hw, Nat.le_trans hle hroom⟩, fun h => by cases h⟩, fun h => h⟩

theorem single_invariant : (machine P ρ).InvariantIf (fun s e => ¬ Bypass s e) Single := by
  constructor
  · intro s hs
    obtain ⟨cap, hc, rfl⟩ := hs
    exact ⟨⟨0, .none fun _ h => (by cases h), Nat.le_refl 1⟩, fun h => by cases h⟩
  · intro s e s' hi he hst
    exact (single_step hi he (step_inv hst)).1

/-- Every stray notification goes back to a limit exit that bypasses TICKLED. -/
theorem unstrayed {s₀ s : St P ρ} {tr : List (Ev P ρ)} (h0 : Init s₀) (h : (machine P ρ).Steps s₀ tr s)
    (hm : (machine P ρ).Meets (fun s e => ¬ Bypass s e) s₀ tr) :
    (machine P ρ).Meets (fun s e => ¬ Stray s e) s₀ tr := by
  intro pre e post m htr hp
  subst htr
  obtain ⟨m', hm', hpost⟩ := Lib.Machine.steps_append.mp h
  rw [hm'.det hp] at hpost
  obtain ⟨k, hk, -⟩ := Lib.Machine.steps_cons.mp hpost
  have hpre : (machine P ρ).Meets (fun s e => ¬ Bypass s e) s₀ pre := by
    intro p b q u hpq hu
    subst hpq
    exact hm p b (q ++ e :: post) u (by simp) hu
  have hi := single_invariant.run ⟨s₀, h0, hp, hpre⟩
  exact (single_step hi (hm pre e post m rfl hp) (step_inv hk)).2

/-- A run without a limit exit has no bypass. -/
theorem unforced {s₀ : St P ρ} {tr : List (Ev P ρ)} (h : .tickle ∉ tr) :
    (machine P ρ).Meets (fun s e => ¬ Bypass s e) s₀ tr := by
  refine Lib.Machine.meets_of_events fun e he s hb => ?_
  obtain ⟨rfl, -⟩ := hb
  exact h he

/-! ## After a bypass -/

/-- A thread at its `compare_exchange` gets out of `schedule` by its own steps. -/
theorem leave_sent {s : St P ρ} {t : Thread P} (h : s.pc t = .sent) :
    ∃ tr s', (machine P ρ).Steps s tr s' ∧ s'.pc = Function.update s.pc t .out ∧ s'.handler = s.handler ∧
      (s.fd.readable = true → s'.fd.readable = true) := by
  cases ht : s.tickled with
  | true => exact ⟨_, _, (Step.casLost s t h ht).steps, rfl, rfl, fun h => h⟩
  | false =>
    have hwon := (Step.casWon s t h ht).steps
    have hwrite := (Step.write { s.setPc t .won with tickled := true } t (setPc_self s t .won)).steps
    refine ⟨_, _, hwon.append hwrite, ?_, rfl, fun _ => Notify.Fd.write_readable _⟩
    simp [St.setPc]

theorem leave (s : St P ρ) (t : Thread P) :
    ∃ tr s', (machine P ρ).Steps s tr s' ∧ s'.pc = Function.update s.pc t .out ∧ s'.handler = s.handler ∧
      (s.fd.readable = true → s'.fd.readable = true) := by
  cases h : s.pc t with
  | out => exact ⟨[], s, .nil s, by rw [← h, Function.update_eq_self], rfl, fun h => h⟩
  | won => exact ⟨_, _, (Step.write s t h).steps, rfl, rfl, fun _ => Notify.Fd.write_readable _⟩
  | sent => exact leave_sent h
  | entered r =>
    have hsend := (Step.send s t r h).steps
    have hsent : ({ s.setPc t .sent with chan := s.chan ++ [r] } : St P ρ).pc t = .sent := setPc_self s t .sent
    obtain ⟨tr, s', hs, hpc, hh, hr⟩ := leave_sent hsent
    refine ⟨_, s', hsend.append hs, ?_, hh, hr⟩
    rw [hpc]
    simp [St.setPc]

/-- So do all threads of a finite set, one after the other. -/
theorem leave_all (S : Finset (Thread P)) (s : St P ρ) :
    ∃ tr s', (machine P ρ).Steps s tr s' ∧ (∀ t ∈ S, s'.pc t = .out) ∧ (∀ t ∉ S, s'.pc t = s.pc t) ∧
      s'.handler = s.handler ∧ (s.fd.readable = true → s'.fd.readable = true) := by
  induction S using Finset.induction_on with
  | empty => exact ⟨[], s, .nil s, by simp, fun _ _ => rfl, rfl, fun h => h⟩
  | insert t S _ ih =>
    obtain ⟨tr, m, hs, hin, hout, hh, hr⟩ := ih
    obtain ⟨tr', s', hs', hpc, hh', hr'⟩ := leave m t
    refine ⟨tr ++ tr', s', hs.append hs', ?_, ?_, hh'.trans hh, fun h => hr' (hr h)⟩
    · intro u hu
      rw [hpc]
      by_cases hut : u = t
      · subst hut; simp
      · rw [Function.update_of_ne hut]
        exact hin u ((Finset.mem_insert.mp hu).resolve_left hut)
    · intro u hu
      rw [Finset.mem_insert, not_or] at hu
      rw [hpc, Function.update_of_ne hu.1]
      exact hout u hu.2

/-- In the event loop with no thread inside `schedule`, and the fd readable with TICKLED false. -/
def Disagrees (s : St P ρ) : Prop := s.handler = .idle ∧ s.Quiet ∧ Unflagged s

/-- An invocation past its clear ends, and drains nothing and flips nothing. -/
theorem unflagged_recv {s : St P ρ} {limit cnt : UInt32} (hq : s.Quiet) (hu : Unflagged s)
    (hh : s.handler = .recv limit cnt) : ∃ tr s', (machine P ρ).Steps s tr s' ∧ Disagrees s' := by
  induction hc : s.chan generalizing s cnt with
  | nil => exact ⟨_, _, (Step.recvNone s limit cnt hh hc).steps, rfl, hq, hu⟩
  | cons r rest ih =>
    have hrecv := (Step.recvSome s limit cnt r rest hh hc).steps
    have hrun := (Step.run { s with chan := rest, handler := .took limit cnt r } limit cnt r rfl).steps
    have hrun := hrecv.append hrun
    by_cases hl : limit ≤ cnt + 1
    · have hret := (Step.retLimit { s with chan := rest, handler := .running limit cnt r } limit cnt r rfl (hq .main)
        hl).steps
      have htick := (Step.tickle { s with chan := rest, handler := Handler.limitHit } rfl).steps
      exact ⟨_, _, (hrun.append hret).append htick, rfl, hq, Notify.Fd.write_readable _, hu.2⟩
    · have hret := (Step.retNext { s with chan := rest, handler := .running limit cnt r } limit cnt r rfl (hq .main)
        hl).steps
      obtain ⟨tr, s', hs, hd⟩ := ih (s := { s with chan := rest, handler := .recv limit (cnt + 1) }) hq hu rfl rfl
      exact ⟨_, s', (hrun.append hret).append hs, hd⟩

theorem unflagged_cleared {s : St P ρ} (hq : s.Quiet) (hu : Unflagged s) (hh : s.handler = .cleared) :
    ∃ tr s', (machine P ρ).Steps s tr s' ∧ Disagrees s' := by
  have hload := (Step.load s hh).steps
  by_cases hc : s.chan = []
  · have hempty := (Step.empty { s with handler := .loaded s.batch } s.batch rfl hc).steps
    exact ⟨_, _, hload.append hempty, rfl, hq, hu⟩
  · have hne := (Step.nonempty { s with handler := .loaded s.batch } s.batch rfl hc).steps
    obtain ⟨tr, s', hs, hd⟩ := unflagged_recv (s := { s with handler := .recv s.batch 0 }) hq hu rfl
    exact ⟨_, s', (hload.append hne).append hs, hd⟩

/-- A winner that writes only after the next clear leaves its notification unannounced. -/
theorem late_write {s : St P ρ} {p : P} (hh : s.handler = .idle) (hr : s.fd.readable = true)
    (hp : s.pc (.other p) = .won) (hout : ∀ t, t ≠ .other p → s.pc t = .out) :
    ∃ tr s', (machine P ρ).Steps s tr s' ∧ Disagrees s' := by
  have henter := (Step.enter s hh (hout .main (by simp)) hr).steps
  have hdrain := (Step.drain { s with handler := .entered } rfl).steps
  have hclear := (Step.clear { s with handler := .drained, fd := s.fd.drain } rfl).steps
  have hwrite := (Step.write { s with handler := .cleared, fd := s.fd.drain, tickled := false } (.other p) hp).steps
  have hs := ((henter.append hdrain).append hclear).append hwrite
  have hq : (s.setPc (.other p) .out).Quiet := by
    intro t
    by_cases ht : t = .other p
    · subst ht; simp
    · rw [setPc_ne s _ ht]; exact hout t ht
  obtain ⟨tr, s', hs', hd⟩ := unflagged_cleared
    (s := { ({ s with handler := .cleared, fd := s.fd.drain, tickled := false } : St P ρ).setPc (.other p) .out with
      fd := s.fd.drain.write }) hq ⟨Notify.Fd.write_readable _, rfl⟩ rfl
  exact ⟨_, s', hs.append hs', hd⟩

/-- A thread inside `schedule` that has not won can win while TICKLED is false. -/
theorem win {s : St P ρ} {t : Thread P} (hin : s.pc t ≠ .out) (ht : s.tickled = false ∨ s.pc t = .won) :
    ∃ tr s', (machine P ρ).Steps s tr s' ∧ s'.pc = Function.update s.pc t .won ∧ s'.handler = s.handler ∧
      s'.fd = s.fd := by
  cases h : s.pc t with
  | out => exact absurd h hin
  | won => exact ⟨[], s, .nil s, by rw [← h, Function.update_eq_self], rfl, rfl⟩
  | sent =>
    rw [h] at ht
    have hf : s.tickled = false := by simpa using ht
    exact ⟨_, _, (Step.casWon s t h hf).steps, rfl, rfl, rfl⟩
  | entered r =>
    rw [h] at ht
    have hf : s.tickled = false := by simpa using ht
    have hsend := (Step.send s t r h).steps
    have hwon := (Step.casWon { s.setPc t .sent with chan := s.chan ++ [r] } t (setPc_self s t .sent) hf).steps
    exact ⟨_, _, hsend.append hwon, by simp [St.setPc], rfl, rfl⟩

/-- The threads of `S` leave one after the other, and `p` is the late winner. -/
theorem winner_disagrees {s : St P ρ} {S : Finset P} {p : P} (hS : ∀ q, s.pc (.other q) ≠ .out → q ∈ S)
    (hm : s.pc .main = .out) (hh : s.handler = .idle) (hr : s.fd.readable = true) (hp : s.pc (.other p) = .won) :
    ∃ tr s', (machine P ρ).Steps s tr s' ∧ Disagrees s' := by
  obtain ⟨tr, m, hs, hin, hout, hh', hr'⟩ := leave_all ((S.image Thread.other).erase (.other p)) s
  have hwon : m.pc (.other p) = .won := by
    rw [hout _ (Finset.notMem_erase _ _)]
    exact hp
  have hrest : ∀ t, t ≠ .other p → m.pc t = .out := by
    intro t ht
    by_cases hc : t ∈ S.image Thread.other
    · exact hin t (Finset.mem_erase.mpr ⟨ht, hc⟩)
    · rw [hout t (fun h => hc (Finset.mem_of_mem_erase h))]
      cases t with
      | main => exact hm
      | other q =>
        by_contra hne
        exact hc (Finset.mem_image_of_mem _ (hS q hne))
  obtain ⟨tr', s', hs', hd⟩ := late_write (hh'.trans hh) (hr' hr) hwon hrest
  exact ⟨_, s', hs.append hs', hd⟩

omit [DecidableEq P] [DecidableEq ρ] in
/-- A thread that is still inside `schedule` after a bypass has won, or can win. -/
theorem exists_inside {s : St P ρ} (hm : s.pc .main = .out) (hq : ¬ s.Quiet)
    (hb : s.tickled = false ∨ ∃ t, s.pc t = .won) :
    ∃ p, s.pc (.other p) ≠ .out ∧ (s.tickled = false ∨ s.pc (.other p) = .won) := by
  have other : ∀ t, s.pc t ≠ .out → ∃ p, t = .other p := by
    intro t ht
    cases t with
    | main => exact absurd hm ht
    | other p => exact ⟨p, rfl⟩
  rcases hb with ht | ⟨t, ht⟩
  · obtain ⟨t, hin⟩ := not_forall.mp hq
    obtain ⟨p, rfl⟩ := other t hin
    exact ⟨p, hin, Or.inl ht⟩
  · have hin : s.pc t ≠ .out := by rw [ht]; simp
    obtain ⟨p, rfl⟩ := other t hin
    exact ⟨p, hin, Or.inr ht⟩

/-- What a bypass can lead to: a thread that is inside `schedule` becomes the late
    winner, or none is and TICKLED is false already. -/
theorem bypass_disagrees {tr : List (Ev P ρ)} {s s' : St P ρ} {e : Ev P ρ} (hrun : (machine P ρ).Run tr s)
    (hb : Bypass s e) (h : Step s e s') : ∃ tr' s'', (machine P ρ).Steps s' tr' s'' ∧ Disagrees s'' := by
  obtain ⟨rfl, hb⟩ := hb
  cases h with
  | tickle hh =>
    have hbd := bounded_run hrun
    have hm : s.pc .main = .out := hbd.main (by rw [hh]; rfl)
    have hr : s.fd.write.readable = true := Notify.Fd.write_readable _
    by_cases hq : s.Quiet
    · have ht : s.tickled = false := by
        rcases hb with ht | ⟨t, ht⟩
        · exact ht
        · rw [hq t] at ht; cases ht
      exact ⟨[], _, .nil _, rfl, hq, hr, ht⟩
    · obtain ⟨p, hin, ht⟩ := exists_inside hm hq hb
      obtain ⟨tr₁, m, hs, hpc, hh₁, hf⟩ := win (s := { s with handler := .idle, fd := s.fd.write }) hin ht
      have hmain : m.pc .main = .out := by
        rw [hpc, Function.update_of_ne (by simp)]
        exact hm
      have hS : ∀ q, m.pc (.other q) ≠ .out → q ∈ callers tr := by
        intro q hne
        apply hbd.others q
        by_cases hqp : q = p
        · subst hqp; exact hin
        · rw [hpc, Function.update_of_ne (by simpa using hqp)] at hne
          exact hne
      obtain ⟨tr₂, s'', hs', hd⟩ := winner_disagrees hS hmain hh₁ (by rw [hf]; exact hr)
        (by rw [hpc, Function.update_self])
      exact ⟨_, s'', hs.append hs', hd⟩

/-! ## TICKLED and the fd -/

/-- In a run without a bypass TICKLED is true at rest iff the fd is readable, and a
    thread that flips TICKLED (and will write) has found no notification pending. Each
    bypass can be followed by a rest where the fd is readable and TICKLED false. -/
theorem tickled_means_pending :
    (∀ (tr : List (Ev P ρ)) (s : St P ρ), (machine P ρ).RunIf (fun s e => ¬ Bypass s e) tr s →
      (s.handler = .idle → s.Quiet → (s.tickled = true ↔ s.fd.readable = true)) ∧
      ∀ t s', step s (.cas t true) = some s' → s.fd.readable = false) ∧
    ∀ (tr : List (Ev P ρ)) (s s' : St P ρ) (e : Ev P ρ), (machine P ρ).Run tr s → Bypass s e → step s e = some s' →
      ∃ tr' s'', (machine P ρ).Run (tr ++ e :: tr') s'' ∧ s''.handler = .idle ∧ s''.Quiet ∧
        s''.fd.readable = true ∧ s''.tickled = false := by
  constructor
  · intro tr s hrun
    obtain ⟨s₀, h0, h, hm⟩ := hrun
    have hns : ¬ (machine P ρ).Since Stray Ev.settles s₀ tr := (unstrayed h0 h hm).not_since
    refine ⟨fun hh hq => (agree_iff h0 h hh hq).mpr hns, ?_⟩
    intro t s' hst
    cases step_inv hst with
    | casWon _ _ ht =>
      cases hr : s.fd.readable with
      | false => rfl
      | true => exact absurd ((unflagged_run h0 h).mp ⟨hr, ht⟩) hns
  · intro tr s s' e h hb hst
    obtain ⟨tr', s'', hs, hh, hq, hr, ht⟩ := bypass_disagrees h hb (step_inv hst)
    have hrun := (h.snoc hst).append hs
    rw [List.append_assoc] at hrun
    exact ⟨tr', s'', hrun, hh, hq, hr, ht⟩

/-- Batch size 1, one runnable: at rest after the limit exit the fd is readable and
    TICKLED false, and the next schedule writes to the fd again. -/
theorem a_forced_tickle_is_not_flagged :
    ∃ s : St Nat Nat, (machine Nat Nat).Run oneForced s ∧ s.handler = .idle ∧ s.Quiet ∧ s.fd.readable = true ∧
      s.tickled = false ∧ ∃ s', (machine Nat Nat).Steps s
        [.call (.other 1) 8, .send (.other 1) 8, .cas (.other 1) true, .write (.other 1)] s' ∧
        s'.fd.unread = s.fd.unread + 1 := by
  refine ⟨_, ⟨start [] false 8 (Notify.Fd.new 5 (Nat.succ_pos 4)), ⟨5, Nat.succ_pos 4, rfl⟩,
    Lib.Machine.steps_of_exec rfl⟩, rfl, ?_, rfl, rfl, _, Lib.Machine.steps_of_exec rfl, rfl⟩
  intro t
  rcases t with _ | _ | n <;> rfl

/-- One schedule, without a limit exit: TICKLED and the fd agree. After the limit exit of
    `oneForced` they can disagree. -/
theorem tickled_means_pending_once :
    (∃ s : St Nat Nat, (machine Nat Nat).Run [.call .main 7, .send .main 7, .cas .main true, .write .main] s ∧
      s.fd.readable = true ∧ (s.tickled = true ↔ s.fd.readable = true)) ∧
    ∃ tr' s'', (machine Nat Nat).Run (oneForced.dropLast ++ .tickle :: tr') s'' ∧ s''.handler = .idle ∧ s''.Quiet ∧
      s''.fd.readable = true ∧ s''.tickled = false := by
  have h0 : Init (start [] false 8 (Notify.Fd.new 5 (Nat.succ_pos 4)) : St Nat Nat) := ⟨5, Nat.succ_pos 4, rfl⟩
  constructor
  · obtain ⟨s, hs, hh, hr, hq⟩ : ∃ s, (machine Nat Nat).exec (start [] false 8 (Notify.Fd.new 5 (Nat.succ_pos 4)))
        [.call .main 7, .send .main 7, .cas .main true, .write .main] = some s ∧ s.handler = .idle ∧
          s.fd.readable = true ∧ s.Quiet := by
      refine ⟨_, rfl, rfl, rfl, ?_⟩
      intro t
      rcases t with _ | _ <;> rfl
    have h := Lib.Machine.steps_of_exec hs
    exact ⟨s, ⟨_, h0, h⟩, hr, (tickled_means_pending.1 _ s ⟨_, h0, h, unforced (by simp)⟩).1 hh hq⟩
  · obtain ⟨s, hs, ht, s', hst⟩ : ∃ s, (machine Nat Nat).exec (start [] false 8 (Notify.Fd.new 5 (Nat.succ_pos 4)))
        oneForced.dropLast = some s ∧ s.tickled = false ∧ ∃ s', step s .tickle = some s' := ⟨_, rfl, rfl, _, rfl⟩
    exact tickled_means_pending.2 _ s s' .tickle ⟨_, h0, Lib.Machine.steps_of_exec hs⟩ ⟨rfl, Or.inl ht⟩ hst

end NgxTickle.Sched
