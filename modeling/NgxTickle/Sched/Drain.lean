/-
  NgxTickle.Sched.Drain — the self-pipe's drain loop ends, whoever writes meanwhile.
  Taken alone it need not: each read takes what has been written since the last one.
  But TICKLED is not cleared before the loop is over, so beyond the threads that had
  already won at most one more can win and write. The bytes read and unread stay within
  the bound on notifications (`Bounded`), and each read that is not interrupted takes
  one or finds none.
-/

import NgxTickle.Sched.Bound
import NgxTickle.Sched.Sys

namespace NgxTickle.Sched.Sys

open NgxTickle.Notify

variable {P ρ : Type}

/-- The successful reads. -/
def okReads (tr : List (SysEv P ρ)) : Nat :=
  tr.countP fun
    | .read r => decide (0 < r.rc)
    | _ => false

/-- The interrupted reads. -/
def intrReads (tr : List (SysEv P ρ)) : Nat :=
  tr.countP fun
    | .read r => decide (r = .eintr)
    | _ => false

def reads (tr : List (SysEv P ρ)) : Nat :=
  tr.countP fun
    | .read _ => true
    | _ => false

/-- The threads other than the main thread that have called `schedule`. -/
def sysCallers [DecidableEq P] (B : Backend) (tr : List (SysEv P ρ)) : Finset P := callers (tr.flatMap (event B))

variable [DecidableEq P] [DecidableEq ρ]

omit [DecidableEq P] [DecidableEq ρ] in
theorem event_cases (B : Backend) (e : SysEv P ρ) : event B e = [] ∨ ∃ b, event B e = [b] := by
  cases e with
  | core e => exact Or.inr ⟨e, rfl⟩
  | write t r => by_cases hd : B.signal r = .done <;> simp [event, hd]
  | read r => by_cases hd : B.drain r = .done <;> simp [event, hd]
  | tickle r => by_cases hd : B.signal r = .done <;> simp [event, hd]

omit [DecidableEq ρ] in
theorem sys_unread_step {B : Backend} {s s' : SysSt P ρ} {e : SysEv P ρ} (h : SysStep B s e s') :
    s'.fd.unread ≤ s.fd.unread + count .tickle (event B e) := by
  cases h with
  | core e v _ _ => exact Nat.le_add_right _ _
  | wrote t r fd _ hd _ hle => simpa [event, hd, count, Ev.cost] using hle
  | writeIntr t _ _ => exact Nat.le_add_right _ _
  | drained r _ _ => exact Nat.zero_le _
  | took r fd _ _ _ hlt =>
    show fd.unread ≤ _
    omega
  | readIntr _ _ => exact Nat.le_add_right _ _
  | tickled r fd _ hd _ hle => simpa [event, hd, count, Ev.cost] using hle
  | tickleIntr _ _ => exact Nat.le_add_right _ _

omit [DecidableEq ρ] in
/-- The model's drain is the read that ends the loop. -/
theorem drained_of_event {B : Backend} {s s' : SysSt P ρ} {e : SysEv P ρ} (h : SysStep B s e s')
    (hd : .drain ∈ event B e) : s'.handler = .drained ∧ s'.fd.unread = 0 := by
  cases h with
  | drained r _ _ => exact ⟨rfl, rfl⟩
  | core e v he _ => rw [← List.mem_singleton.mp hd] at he; cases he
  | wrote t r fd _ hdone _ _ => simp [event, hdone] at hd
  | writeIntr t _ hagain => simp [event, hagain] at hd
  | took r fd _ hagain _ _ => simp [event, hagain] at hd
  | readIntr _ hagain => simp [event, hagain] at hd
  | tickled r fd _ hdone _ _ => simp [event, hdone] at hd
  | tickleIntr _ hagain => simp [event, hagain] at hd

/-- The step lemma of the bound, for a step over a backend. -/
theorem bounded_sysStep {B : Backend} {S S' : Finset P} {u u' : Nat} {s s' : SysSt P ρ} {e : SysEv P ρ}
    (hb : Bounded S u s.view) (h : SysStep B s e s') (hS : S ⊆ S')
    (hc : ∀ p r, .call (.other p) r ∈ event B e → p ∈ S') (hu : u' ≤ u + count .tickle (event B e))
    (hd : .drain ∈ event B e → u' = 0) : Bounded S' u' s'.view := by
  have hv := view_step h
  rcases event_cases B e with he | ⟨b, he⟩
  · rw [he] at hv hu
    rw [Lib.Machine.steps_nil.mp hv]
    exact (hb.mono hu).widen hS
  · rw [he] at hv hu hc hd
    obtain ⟨m, hm, hst⟩ := Lib.Machine.steps_cons.mp hv
    rw [Lib.Machine.steps_nil.mp hst]
    have hm : step s.view b = some m := hm
    refine bounded_step hb (step_inv hm) hS ?_ hu ?_
    · rintro p r rfl
      exact hc p r (by simp)
    · rintro rfl
      exact hd (by simp)

omit [DecidableEq ρ] in
theorem sysCallers_append (B : Backend) (tr tr' : List (SysEv P ρ)) :
    sysCallers B tr ⊆ sysCallers B (tr ++ tr') := by
  unfold sysCallers
  rw [List.flatMap_append]
  exact callers_append _ _

omit [DecidableEq ρ] in
theorem sysCaller_mem {B : Backend} {tr : List (SysEv P ρ)} {e : SysEv P ρ} {p : P} {r : ρ}
    (h : .call (.other p) r ∈ event B e) : p ∈ sysCallers B (tr ++ [e]) := by
  refine caller_mem (r := r) ?_
  simp [h]

/-- In every run over a backend, unread notifications and winners are bounded. -/
theorem bounded_sysRun {B : Backend} (hB : B.Lawful) {tr : List (SysEv P ρ)} {s : SysSt P ρ}
    (h : (sys P ρ B).Run tr s) : Bounded (sysCallers B tr) s.fd.unread s.view := by
  refine Lib.Machine.run_induction (J := fun tr s => Bounded (sysCallers B tr) s.fd.unread s.view) ?_ ?_ h
  · rintro s rfl
    exact ⟨fun p hp => absurd rfl hp, fun _ => rfl, 0, .none fun _ h => (by cases h), Nat.le_add_right 1 2⟩
  · intro tr s e s' _ ih hst
    have hs := (sysStep_inv hB hst).2
    exact bounded_sysStep ih hs (sysCallers_append B tr [e]) (fun p r => sysCaller_mem) (sys_unread_step hs) fun hd =>
      (drained_of_event hs hd).2

/-! ## One drain -/

/-- The drain that began some steps ago is not over. -/
structure Draining (S : Finset P) (post : List (SysEv P ρ)) (s : SysSt P ρ) : Prop where
  entered : s.handler = .entered
  bound : Bounded S (okReads post + s.fd.unread) s.view
  /-- Each read so far took something or was interrupted. -/
  reads : reads post = okReads post + intrReads post

omit [DecidableEq ρ] in
theorem entered_step {B : Backend} {s s' : SysSt P ρ} {e : SysEv P ρ} (h : SysStep B s e s')
    (hh : s'.handler = .entered) (he : e ≠ .core .enter) : s.handler = .entered := by
  cases h with
  | core e v _ hv =>
    have hh : v.handler = .entered := hh
    cases hv with
    | enter _ _ _ => exact absurd rfl he
    | call t r _ _ => exact hh
    | send t r _ => exact hh
    | casWon t _ _ => exact hh
    | casLost t _ _ => exact hh
    | write t _ => exact hh
    | setBatch value => exact hh
    | _ => cases hh
  | wrote t r fd _ _ _ _ => exact hh
  | writeIntr t _ _ => exact hh
  | drained r hh' _ => exact hh'
  | took r fd hh' _ _ _ => exact hh'
  | readIntr hh' _ => exact hh'
  | tickled r fd _ _ _ _ => cases hh
  | tickleIntr _ _ => exact hh

theorem draining_step {B : Backend} {S S' : Finset P} {post : List (SysEv P ρ)} {s s' : SysSt P ρ} {e : SysEv P ρ}
    (hi : Draining S post s) (h : SysStep B s e s') (hh : s'.handler = .entered) (hS : S ⊆ S')
    (hc : ∀ p r, .call (.other p) r ∈ event B e → p ∈ S') : Draining S' (post ++ [e]) s' := by
  have hunread := sys_unread_step h
  have hdrain : .drain ∉ event B e := by
    intro hd
    rw [(drained_of_event h hd).1] at hh
    cases hh
  have hreads := hi.reads
  have counts : okReads (post ++ [e]) + s'.fd.unread ≤ okReads post + s.fd.unread + count .tickle (event B e) ∧
      reads (post ++ [e]) = okReads (post ++ [e]) + intrReads (post ++ [e]) := by
    unfold okReads reads intrReads at *
    simp only [List.countP_append, List.countP_singleton]
    cases h with
    | core e v _ _ => exact ⟨by simp; omega, by simpa using hreads⟩
    | wrote t r fd _ _ _ _ => exact ⟨by simp at hunread ⊢; omega, by simpa using hreads⟩
    | writeIntr t _ _ => exact ⟨by simp, by simpa using hreads⟩
    | drained r _ _ => cases hh
    | took r fd _ _ hpos hlt =>
      have hne : r ≠ .eintr := by rintro rfl; cases hpos
      refine ⟨?_, ?_⟩
      · simp [hpos]
        omega
      · simp [hpos, hne]
        omega
    | readIntr _ _ =>
      refine ⟨by simp [Ret.eintr], ?_⟩
      simp [Ret.eintr] at hreads ⊢
      omega
    | tickled r fd _ _ _ _ => cases hh
    | tickleIntr _ _ => exact ⟨by simp, by simpa using hreads⟩
  exact ⟨hh, bounded_sysStep hi.bound h hS hc counts.1 fun hd => absurd hd hdrain, counts.2⟩

/-- From the dispatch on, as long as the drain is not over. -/
theorem draining_run {B : Backend} (hB : B.Lawful) {pre post : List (SysEv P ρ)} {m s : SysSt P ρ}
    (hpre : (sys P ρ B).Run pre m) (h : (sys P ρ B).Steps m (.core .enter :: post) s) (hne : .core .enter ∉ post)
    (hh : s.handler = .entered) : Draining (sysCallers B (pre ++ .core .enter :: post)) post s := by
  obtain ⟨m', hm, hpost⟩ := Lib.Machine.steps_cons.mp h
  have hrun := hpre.snoc hm
  have hcat : ∀ tr : List (SysEv P ρ), pre ++ .core .enter :: tr = pre ++ [.core .enter] ++ tr := by simp
  refine Lib.Machine.steps_induction
    (J := fun post s => .core .enter ∉ post → s.handler = .entered →
      Draining (sysCallers B (pre ++ .core .enter :: post)) post s) ?_ ?_ hpost hne hh
  · intro _ hh
    refine ⟨hh, ?_, rfl⟩
    show Bounded _ (0 + m'.fd.unread) m'.view
    rw [Nat.zero_add]
    exact bounded_sysRun hB hrun
  · intro post s e s' _ ih hst hne hh
    rw [List.mem_append, not_or] at hne
    have hs := (sysStep_inv hB hst).2
    have hin := entered_step hs hh (by rintro rfl; simp at hne)
    rw [hcat, ← List.append_assoc]
    have hi := ih hne.1 hin
    rw [hcat] at hi
    exact draining_step hi hs hh (sysCallers_append B _ [e]) fun p r => sysCaller_mem

/-- A read of the self-pipe that ends the drain found it empty. -/
theorem selfpipe_last {cap : Nat} {hcap : 0 < cap} {fd fd' : Fd} {r : Ret} (h : (selfpipe cap hcap).read fd r = some fd')
    (hd : (selfpipe cap hcap).drain r = .done) : r = .eagain := by
  have h : pipeRead fd r = some fd' := h
  have hd : Selfpipe.drain r = .done := hd
  unfold pipeRead at h
  split at h
  · rename_i hpos
    simp [Selfpipe.drain, hpos] at hd
  · obtain ⟨-, rfl | ⟨-, he⟩⟩ := failed_cases h
    · cases hd
    · exact he

/-- While the self-pipe is being drained, with any steps of the other threads between
    the reads: at most three more reads have succeeded than other threads call
    `schedule`, and the others were interrupted. The next read is possible, and takes
    something, is interrupted, or is the EAGAIN with which the drain returns. -/
theorem selfpipe_drain_ends (cap : Nat) (hcap : 0 < cap) {pre post : List (SysEv P ρ)} {m s : SysSt P ρ}
    (hpre : (sys P ρ (selfpipe cap hcap)).Run pre m)
    (h : (sys P ρ (selfpipe cap hcap)).Steps m (.core .enter :: post) s) (hne : .core .enter ∉ post)
    (hh : s.handler = .entered) :
    okReads post ≤ (sysCallers (selfpipe cap hcap) (pre ++ .core .enter :: post)).card + 3 ∧
    reads post ≤ (sysCallers (selfpipe cap hcap) (pre ++ .core .enter :: post)).card + 3 + intrReads post ∧
    (∃ r s', r ≠ .eintr ∧ sysStep (selfpipe cap hcap) s (.read r) = some s') ∧
    ∀ r s', sysStep (selfpipe cap hcap) s (.read r) = some s' → s'.aborted = false ∧
      (0 < r.rc ∧ s'.handler = .entered ∨ r = .eintr ∧ s' = s ∨ r = .eagain ∧ s'.handler = .drained) := by
  have hB := selfpipe_lawful cap hcap
  have hi := draining_run hB hpre h hne hh
  have hok : okReads post ≤ (sysCallers (selfpipe cap hcap) (pre ++ .core .enter :: post)).card + 3 := by
    obtain ⟨w, -, hle⟩ := hi.bound.owed
    have hslack : s.view.handler.slack = 3 := by
      show s.handler.slack = 3
      rw [hh]
      rfl
    omega
  have ha : s.aborted = false := (sys_running hB).run (hpre.append h)
  refine ⟨hok, ?_, ?_, fun r s' hst => ?_⟩
  · have := hi.reads
    omega
  · obtain ⟨r, fd, hr, hr'⟩ := hB.read_some s.fd
    have hsome : (sysStep (selfpipe cap hcap) s (.read r)).isSome = true := by simp [sysStep, ha, hh, hr]
    obtain ⟨s', hs'⟩ := Option.isSome_iff_exists.mp hsome
    exact ⟨r, s', hr', hs'⟩
  · obtain ⟨-, hs⟩ := sysStep_inv hB hst
    have hread : ∃ fd, (selfpipe cap hcap).read s.fd r = some fd := by
      simp only [sysStep, Option.ite_none_right_eq_some, Option.map_eq_some_iff] at hst
      obtain ⟨-, fd, hr, -⟩ := hst
      exact ⟨fd, hr⟩
    cases hs with
    | drained _ _ hd =>
      obtain ⟨fd, hr⟩ := hread
      exact ⟨ha, Or.inr (Or.inr ⟨selfpipe_last hr hd, rfl⟩)⟩
    | took _ fd _ _ hpos _ => exact ⟨ha, Or.inl ⟨hpos, hh⟩⟩
    | readIntr _ _ => exact ⟨ha, Or.inr (Or.inl ⟨rfl, rfl⟩)⟩

/-- One other thread schedules and writes its byte. -/
def oneByte : List (SysEv Nat Nat) :=
  [.core (.call (.other 0) 7), .core (.send (.other 0) 7), .core (.cas (.other 0) true), .write (.other 0) ⟨1, .eagain⟩]

/-- The drain that begins then has read it, and has not returned. -/
def oneRead : List (SysEv Nat Nat) := oneByte ++ [.core .enter, .read ⟨1, .eagain⟩]

/-- Its one read is within the bound, and it returns with the next one. -/
theorem selfpipe_drain_ends_one :
    ∃ s s' : SysSt Nat Nat, (sys Nat Nat (selfpipe 1 Nat.one_pos)).Run oneRead s ∧ s.handler = .entered ∧
      sysCallers (selfpipe 1 Nat.one_pos) oneRead = {0} ∧ okReads [(.read ⟨1, .eagain⟩ : SysEv Nat Nat)] = 1 ∧
      okReads [(.read ⟨1, .eagain⟩ : SysEv Nat Nat)] ≤ (sysCallers (selfpipe 1 Nat.one_pos) oneRead).card + 3 ∧
      sysStep (selfpipe 1 Nat.one_pos) s (.read .eagain) = some s' ∧ s'.aborted = false ∧ s'.handler = .drained := by
  obtain ⟨m, hm⟩ : ∃ m : SysSt Nat Nat, (sys Nat Nat (selfpipe 1 Nat.one_pos)).exec
      (fresh Nat Nat (selfpipe 1 Nat.one_pos)) oneByte = some m := ⟨_, rfl⟩
  obtain ⟨s, hs, hh, s', hst⟩ : ∃ s, (sys Nat Nat (selfpipe 1 Nat.one_pos)).exec m
      [.core .enter, .read ⟨1, .eagain⟩] = some s ∧ s.handler = .entered ∧
      ∃ s', sysStep (selfpipe 1 Nat.one_pos) s (.read .eagain) = some s' := by
    cases hm
    exact ⟨_, rfl, rfl, _, rfl⟩
  have hpre : (sys Nat Nat (selfpipe 1 Nat.one_pos)).Run oneByte m :=
    ⟨fresh Nat Nat (selfpipe 1 Nat.one_pos), rfl, Lib.Machine.steps_of_exec hm⟩
  have hsteps := Lib.Machine.steps_of_exec hs
  obtain ⟨hok, -, -, hread⟩ := selfpipe_drain_ends 1 Nat.one_pos hpre hsteps (by simp) hh
  obtain ⟨ha, ⟨hpos, -⟩ | ⟨he, -⟩ | ⟨-, hd⟩⟩ := hread _ s' hst
  · cases hpos
  · cases he
  · exact ⟨s, s', hpre.append hsteps, hh, rfl, rfl, hok, hst, ha, hd⟩

end NgxTickle.Sched.Sys
