/-
  NgxTickle.Sched.Fifo — the channel is drained in order, nothing is lost or run twice,
  and a queued runnable waits only for those ahead of it.

  What a run did is read from its events: `sentOf` and `ranOf` are the runnables sent
  and run, `returnedOf` those whose run is over. `invocations` is the log of the
  `async_handler` invocations a run begins, newest first: the limit each loaded, how
  many runnables it ran, and how it ended, having seen the channel empty (the early
  return or an empty `try_recv`) or at the limit.

  - `conserved`: run, taken and queued runnables are those sent, in order.
  - `logged_steps`: an invocation runs at most `max 1 limit` runnables, and it returns
    only when it has run exactly that many or has seen the channel empty
    (`done_logged`); its counter never wraps (`cnt_run`).
  - `waited`: a runnable with `k` queued ahead of it at its send has run once the
    invocations begun after the send and completed have quotas adding up to more than
    `k`, whatever is scheduled meanwhile.
-/

import Mathlib.Algebra.Ring.Nat
import NgxTickle.Sched.Model

namespace NgxTickle.Sched

variable {P ρ : Type}

/-! ## What a run did -/

def sentOf (tr : List (Ev P ρ)) : List ρ :=
  tr.filterMap fun
    | .send _ r => some r
    | _ => none

def ranOf (tr : List (Ev P ρ)) : List ρ :=
  tr.filterMap fun
    | .run r => some r
    | _ => none

def returnedOf (tr : List (Ev P ρ)) : List ρ :=
  tr.filterMap fun
    | .ret r _ => some r
    | _ => none

inductive Exit where
  /-- It saw the channel empty. -/
  | empty
  | limit
  deriving DecidableEq, Repr

structure Invocation where
  limit : Option UInt32
  ran : Nat
  ended : Option Exit
  deriving DecidableEq, Repr

def logEv (log : List Invocation) (e : Ev P ρ) : List Invocation :=
  match e, log with
  | .enter, log => ⟨none, 0, none⟩ :: log
  | .load limit, i :: log => { i with limit := some limit } :: log
  | .run _, i :: log => { i with ran := i.ran + 1 } :: log
  | .isEmpty true, i :: log => { i with ended := some .empty } :: log
  | .tryRecv none, i :: log => { i with ended := some .empty } :: log
  | .tickle, i :: log => { i with ended := some .limit } :: log
  | _, log => log

/-- The invocations begun in `tr`, newest first. -/
def invocations (tr : List (Ev P ρ)) : List Invocation := tr.foldl logEv []

/-- The most an invocation runs with the limit it loaded. -/
def quota (limit : UInt32) : Nat := max 1 limit.toNat

/-- The quotas of the completed invocations. -/
def completedQuota (log : List Invocation) : Nat :=
  ((log.filter (·.ended.isSome)).map fun i => (i.limit.map quota).getD 0).sum

/-- The event by which the handler sees the channel empty. -/
def Ev.seesEmpty : Ev P ρ → Prop
  | .isEmpty true | .tryRecv none => True
  | _ => False

@[simp] theorem sentOf_append (tr tr' : List (Ev P ρ)) : sentOf (tr ++ tr') = sentOf tr ++ sentOf tr' := by
  simp [sentOf]

@[simp] theorem ranOf_append (tr tr' : List (Ev P ρ)) : ranOf (tr ++ tr') = ranOf tr ++ ranOf tr' := by
  simp [ranOf]

@[simp] theorem returnedOf_append (tr tr' : List (Ev P ρ)) :
    returnedOf (tr ++ tr') = returnedOf tr ++ returnedOf tr' := by
  simp [returnedOf]

theorem invocations_snoc (tr : List (Ev P ρ)) (e : Ev P ρ) : invocations (tr ++ [e]) = logEv (invocations tr) e := by
  simp [invocations]

/-! ## Conservation -/

variable [DecidableEq P]

theorem step_conserved {s s' : St P ρ} {e : Ev P ρ} (h : Step s e s') :
    ranOf [e] ++ s'.handler.taken ++ s'.chan = s.handler.taken ++ s.chan ++ sentOf [e] := by
  cases h <;> simp_all [ranOf, sentOf, Handler.taken]

theorem step_returned {s s' : St P ρ} {e : Ev P ρ} (h : Step s e s') :
    returnedOf [e] ++ s'.handler.inRun = s.handler.inRun ++ ranOf [e] := by
  cases h <;> simp_all [ranOf, returnedOf, Handler.inRun]

variable [DecidableEq ρ]

/-- Run, taken and queued runnables are exactly the runnables sent, in order. -/
theorem conserved {tr : List (Ev P ρ)} {s : St P ρ} (h : (machine P ρ).Run tr s) :
    ranOf tr ++ s.handler.taken ++ s.chan = sentOf tr := by
  refine Lib.Machine.run_induction (J := fun tr s => ranOf tr ++ s.handler.taken ++ s.chan = sentOf tr) ?_ ?_ h
  · intro s hs
    obtain ⟨cap, hc, rfl⟩ := hs
    rfl
  · intro tr s e s' _ ih hst
    have hs := step_conserved (step_inv hst)
    rw [ranOf_append, sentOf_append, ← ih]
    simp only [List.append_assoc] at hs ⊢
    rw [hs]

/-- The runs that are over, and the one on the stack, are the runs begun. -/
theorem returned {tr : List (Ev P ρ)} {s : St P ρ} (h : (machine P ρ).Run tr s) :
    returnedOf tr ++ s.handler.inRun = ranOf tr := by
  refine Lib.Machine.run_induction (J := fun tr s => returnedOf tr ++ s.handler.inRun = ranOf tr) ?_ ?_ h
  · intro s hs
    obtain ⟨cap, hc, rfl⟩ := hs
    rfl
  · intro tr s e s' _ ih hst
    rw [returnedOf_append, ranOf_append, List.append_assoc, step_returned (step_inv hst), ← ih, List.append_assoc]

/-! ## The counter -/

/-- In the drain loop the counter is below the quota. -/
def Handler.CntOk : Handler ρ → Prop
  | .recv limit cnt | .took limit cnt _ | .running limit cnt _ => cnt.toNat < quota limit
  | _ => True

theorem quota_pos (limit : UInt32) : 0 < quota limit := by unfold quota; omega

theorem quota_lt (limit : UInt32) : quota limit < 2 ^ 32 := by
  have := limit.toNat_lt
  unfold quota
  omega

/-- Below the quota, adding one does not wrap. -/
theorem cnt_succ {limit cnt : UInt32} (h : cnt.toNat < quota limit) : (cnt + 1).toNat = cnt.toNat + 1 := by
  have := quota_lt limit
  rw [UInt32.toNat_add, UInt32.toNat_one]
  omega

omit [DecidableEq ρ] in
theorem cnt_step {s s' : St P ρ} {e : Ev P ρ} (hi : s.handler.CntOk) (h : Step s e s') : s'.handler.CntOk := by
  cases h with
  | nonempty limit hh hc => exact quota_pos limit
  | recvSome limit cnt r rest hh hc => rw [hh] at hi; exact hi
  | run limit cnt r hh => rw [hh] at hi; exact hi
  | retNext limit cnt r hh _ hlt =>
    rw [hh] at hi
    have hs := cnt_succ hi
    rw [UInt32.le_iff_toNat_le] at hlt
    show (cnt + 1).toNat < quota limit
    unfold quota
    omega
  | _ => first | exact hi | trivial

theorem cnt_invariant : (machine P ρ).Invariant fun s => s.handler.CntOk := by
  constructor
  · intro s hs
    obtain ⟨cap, hc, rfl⟩ := hs
    trivial
  · intro s e s' hi h
    exact cnt_step hi (step_inv h)

/-- The counter of a reachable state never wraps. -/
theorem cnt_run {tr : List (Ev P ρ)} {s : St P ρ} (h : (machine P ρ).Run tr s) {limit cnt : UInt32} {r : ρ}
    (hh : s.handler = .running limit cnt r) : (cnt + 1).toNat = cnt.toNat + 1 := by
  have hc := cnt_invariant.run h
  rw [hh] at hc
  exact cnt_succ hc

/-! ## The invocations -/

/-- A completed invocation: at the limit with its quota run, or on an empty channel with less. -/
def Invocation.Done (i : Invocation) : Prop :=
  ∃ limit, i.limit = some limit ∧
    (i.ended = some .limit ∧ i.ran = quota limit ∨ i.ended = some .empty ∧ i.ran < quota limit)

/-- The newest invocation, by where the handler is. -/
def Invocation.At (i : Invocation) : Handler ρ → Prop
  | .idle => i.Done
  | .entered | .drained | .cleared => i = ⟨none, 0, none⟩
  | .loaded limit => i = ⟨some limit, 0, none⟩
  | .recv limit cnt | .took limit cnt _ => i = ⟨some limit, cnt.toNat, none⟩
  | .running limit cnt _ => i = ⟨some limit, cnt.toNat + 1, none⟩
  | .limitHit => ∃ limit, i = ⟨some limit, quota limit, none⟩

/-- The log of the invocations begun since some earlier state. -/
def Logged (log : List Invocation) (h : Handler ρ) : Prop :=
  match log with
  | [] => True
  | i :: log => i.At h ∧ ∀ j ∈ log, j.Done

omit [DecidableEq ρ] in
theorem logged_step {s s' : St P ρ} {e : Ev P ρ} {log : List Invocation} (hl : Logged log s.handler)
    (hc : s.handler.CntOk) (h : Step s e s') : Logged (logEv log e) s'.handler := by
  cases log with
  | nil =>
    cases h with
    | enter _ _ _ => exact ⟨rfl, fun j hj => by cases hj⟩
    | _ => trivial
  | cons i log =>
    obtain ⟨ha, hd⟩ := hl
    cases h with
    | enter hh _ _ =>
      rw [hh] at ha
      refine ⟨rfl, fun j hj => ?_⟩
      rcases List.mem_cons.mp hj with rfl | hj
      · exact ha
      · exact hd j hj
    | drain hh => rw [hh] at ha; exact ⟨ha, hd⟩
    | clear hh => rw [hh] at ha; exact ⟨ha, hd⟩
    | load hh => rw [hh] at ha; subst ha; exact ⟨rfl, hd⟩
    | empty limit hh _ =>
      rw [hh] at ha
      subst ha
      exact ⟨⟨limit, rfl, Or.inr ⟨rfl, quota_pos limit⟩⟩, hd⟩
    | nonempty limit hh _ => rw [hh] at ha; subst ha; exact ⟨rfl, hd⟩
    | recvNone limit cnt hh _ =>
      rw [hh] at ha
      subst ha
      rw [hh] at hc
      exact ⟨⟨limit, rfl, Or.inr ⟨rfl, hc⟩⟩, hd⟩
    | recvSome limit cnt r rest hh _ => rw [hh] at ha; subst ha; exact ⟨rfl, hd⟩
    | run limit cnt r hh => rw [hh] at ha; subst ha; exact ⟨rfl, hd⟩
    | retLimit limit cnt r hh _ hle =>
      rw [hh] at ha
      subst ha
      rw [hh] at hc
      have hs := cnt_succ hc
      have hq : cnt.toNat + 1 = quota limit := by
        rw [UInt32.le_iff_toNat_le] at hle
        have hc : cnt.toNat < quota limit := hc
        unfold quota at hc ⊢
        omega
      exact ⟨⟨limit, by rw [hq]⟩, hd⟩
    | retNext limit cnt r hh _ _ =>
      rw [hh] at ha
      subst ha
      rw [hh] at hc
      refine ⟨?_, hd⟩
      simp [Invocation.At, cnt_succ hc]
    | tickle hh =>
      rw [hh] at ha
      obtain ⟨limit, rfl⟩ := ha
      exact ⟨⟨limit, rfl, Or.inl ⟨rfl, rfl⟩⟩, hd⟩
    | _ => exact ⟨ha, hd⟩

theorem logged_steps {tr tr' : List (Ev P ρ)} {s s' : St P ρ} (h : (machine P ρ).Run tr s)
    (h' : (machine P ρ).Steps s tr' s') : Logged (invocations tr') s'.handler := by
  refine Lib.Machine.steps_induction (J := fun tr' s' => Logged (invocations tr') s'.handler) trivial ?_ h'
  intro tr'' t e t' ht ih hst
  rw [invocations_snoc]
  exact logged_step ih (cnt_invariant.run (h.append ht)) (step_inv hst)

/-- What an invocation ran and how it ended. -/
def Invocation.Fair (i : Invocation) : Prop :=
  ∀ limit, i.limit = some limit →
    i.ran ≤ quota limit ∧ (i.ended = none ∨ i.ended = some .limit ∧ i.ran = quota limit ∨ i.ended = some .empty)

theorem Invocation.Done.fair {i : Invocation} (h : i.Done) : i.Fair := by
  obtain ⟨l, hl, h⟩ := h
  intro limit he
  rw [hl] at he
  cases he
  rcases h with ⟨h1, h2⟩ | ⟨h1, h2⟩
  · exact ⟨Nat.le_of_eq h2, Or.inr (Or.inl ⟨h1, h2⟩)⟩
  · exact ⟨Nat.le_of_lt h2, Or.inr (Or.inr h1)⟩

omit [DecidableEq ρ] in
/-- Still going, it has run no more than its quota. -/
theorem fair_at {i : Invocation} {h : Handler ρ} (ha : i.At h) (hc : h.CntOk) : i.Fair := by
  intro limit he
  cases h with
  | idle => exact Invocation.Done.fair ha limit he
  | entered => subst ha; cases he
  | drained => subst ha; cases he
  | cleared => subst ha; cases he
  | loaded l => subst ha; exact ⟨Nat.zero_le _, Or.inl rfl⟩
  | recv l cnt => subst ha; cases he; exact ⟨Nat.le_of_lt hc, Or.inl rfl⟩
  | took l cnt r => subst ha; cases he; exact ⟨Nat.le_of_lt hc, Or.inl rfl⟩
  | running l cnt r => subst ha; cases he; exact ⟨hc, Or.inl rfl⟩
  | limitHit =>
    obtain ⟨l, rfl⟩ := ha
    cases he
    exact ⟨Nat.le_refl _, Or.inl rfl⟩

omit [DecidableEq ρ] in
theorem fair_logged {log : List Invocation} {h : Handler ρ} (hl : Logged log h) (hc : h.CntOk) :
    ∀ i ∈ log, i.Fair := by
  intro i hi
  cases log with
  | nil => cases hi
  | cons j log =>
    rcases List.mem_cons.mp hi with rfl | hi
    · exact fair_at hl.1 hc
    · exact (hl.2 i hi).fair

omit [DecidableEq P] [DecidableEq ρ] in
/-- Only the newest invocation can be going on, and it is while the handler is not idle. -/
theorem done_logged {log : List Invocation} {h : Handler ρ} (hl : Logged log h) :
    (h = .idle → ∀ i ∈ log, i.Done) ∧ ∀ i ∈ log.tail, i.Done := by
  cases log with
  | nil => exact ⟨fun _ i hi => (by cases hi), fun i hi => (by cases hi)⟩
  | cons i log =>
    obtain ⟨ha, hd⟩ := hl
    refine ⟨?_, hd⟩
    intro hh j hj
    subst hh
    rcases List.mem_cons.mp hj with rfl | hj
    · exact ha
    · exact hd j hj

omit [DecidableEq ρ] in
/-- The handler sees the channel empty with nothing taken and no run on the stack. -/
theorem seesEmpty_step {s s' : St P ρ} {e : Ev P ρ} (h : Step s e s') (he : e.seesEmpty) :
    s.chan = [] ∧ s.handler.taken = [] ∧ s.handler.inRun = [] := by
  cases h with
  | empty limit hh hc => exact ⟨hc, by rw [hh]; rfl, by rw [hh]; rfl⟩
  | recvNone limit cnt hh hc => exact ⟨hc, by rw [hh]; rfl, by rw [hh]; rfl⟩
  | _ => cases he

/-! ## The waiting bound -/

/-- What the logged invocations ran, together. -/
def logRan (log : List Invocation) : Nat := (log.map (·.ran)).sum

omit [DecidableEq P] [DecidableEq ρ] in
theorem logRan_step (i : Invocation) (log : List Invocation) (e : Ev P ρ) :
    logRan (logEv (i :: log) e) = logRan (i :: log) + (ranOf [e]).length := by
  unfold logEv
  split <;> simp_all [logRan, ranOf]
  omega

omit [DecidableEq P] [DecidableEq ρ] in
theorem logEv_nil {log : List Invocation} {e : Ev P ρ} (h : logEv log e = []) : log = [] ∧ e ≠ .enter := by
  unfold logEv at h
  split at h <;> simp_all

omit [DecidableEq P] [DecidableEq ρ] in
theorem ended_step {log : List Invocation} {e : Ev P ρ} (h : ∃ i ∈ logEv log e, i.ended = some .empty) :
    (∃ i ∈ log, i.ended = some .empty) ∨ e.seesEmpty := by
  unfold logEv at h
  split at h <;> simp_all [Ev.seesEmpty]

omit [DecidableEq ρ] in
theorem taken_step {s s' : St P ρ} {e : Ev P ρ} (h : Step s e s') :
    s.handler.taken.length ≤ (ranOf [e]).length + s'.handler.taken.length := by
  cases h <;> simp_all [ranOf, Handler.taken]

omit [DecidableEq P] [DecidableEq ρ] in
/-- Where no invocation ended early, what was run covers the completed quotas and the
    run on the stack. -/
theorem quota_le_ran {log : List Invocation} {h : Handler ρ} (hl : Logged log h) (hne : log ≠ [])
    (he : ∀ i ∈ log, i.ended ≠ some .empty) : completedQuota log + h.inRun.length ≤ logRan log := by
  have done : ∀ l : List Invocation, (∀ j ∈ l, j.Done) → (∀ i ∈ l, i.ended ≠ some .empty) →
      completedQuota l = logRan l := by
    intro l
    induction l with
    | nil => intro _ _; rfl
    | cons j l ih =>
      intro hd he
      obtain ⟨limit, hlim, ⟨h1, h2⟩ | ⟨h1, -⟩⟩ := hd j List.mem_cons_self
      · have := ih (fun k hk => hd k (List.mem_cons_of_mem _ hk)) (fun k hk => he k (List.mem_cons_of_mem _ hk))
        simp only [completedQuota, logRan] at this ⊢
        simp [h1, hlim, h2, this]
      · exact absurd h1 (he j List.mem_cons_self)
  cases log with
  | nil => exact absurd rfl hne
  | cons i log =>
    obtain ⟨ha, hd⟩ := hl
    have hrest := done log hd fun k hk => he k (List.mem_cons_of_mem _ hk)
    by_cases hi : i.ended = none
    · have hcur : h.inRun.length ≤ i.ran := by
        cases h with
        | running l cnt r => subst ha; exact Nat.succ_le_succ (Nat.zero_le _)
        | _ => exact Nat.zero_le _
      simp only [completedQuota, logRan] at hrest ⊢
      simp [hi, hrest]
      omega
    · have hidle : h = .idle := by
        cases h with
        | idle => rfl
        | limitHit =>
          obtain ⟨l, rfl⟩ := ha
          exact absurd rfl hi
        | _ => rw [show i = _ from ha] at hi; exact absurd rfl hi
      subst hidle
      have := done (i :: log) (fun j hj => by
        rcases List.mem_cons.mp hj with rfl | hj
        · exact ha
        · exact hd j hj) he
      rw [this]
      exact Nat.le_refl _

/-- From the send of a runnable at place `n`, with `b` runnables taken before: what the
    invocations begun since have run. -/
structure Waiting (n b : Nat) (tr post : List (Ev P ρ)) (s : St P ρ) : Prop where
  before : invocations post = [] → b ≤ (ranOf (tr ++ post)).length + s.handler.taken.length
  since : invocations post ≠ [] → b + logRan (invocations post) ≤ (ranOf (tr ++ post)).length
  empty : (∃ i ∈ invocations post, i.ended = some .empty) → n < (returnedOf (tr ++ post)).length

theorem waiting_step {n b : Nat} {tr post : List (Ev P ρ)} {s s' : St P ρ} {e : Ev P ρ}
    (hrun : (machine P ρ).Run (tr ++ post) s) (hn : n < (sentOf tr).length) (hw : Waiting n b tr post s)
    (h : Step s e s') : Waiting n b tr (post ++ [e]) s' := by
  have hran : (ranOf (tr ++ (post ++ [e]))).length = (ranOf (tr ++ post)).length + (ranOf [e]).length := by
    simp [← List.append_assoc]
  refine ⟨fun hnil => ?_, fun hne => ?_, fun hex => ?_⟩
  · rw [invocations_snoc] at hnil
    have := hw.before (logEv_nil hnil).1
    have := taken_step h
    omega
  · rw [invocations_snoc]
    cases hlog : invocations post with
    | nil =>
      -- the first invocation begins: the runnable taken before the send has run
      have hb := hw.before hlog
      cases h with
      | enter hh _ _ =>
        rw [hh] at hb
        simp only [Handler.taken, List.length_nil] at hb
        show b + 0 ≤ _
        omega
      | _ => rw [invocations_snoc, hlog] at hne; exact absurd rfl hne
    | cons i log =>
      have hs := hw.since (by rw [hlog]; simp)
      rw [hlog] at hs
      rw [logRan_step]
      omega
  · rw [invocations_snoc] at hex
    have hret : (returnedOf (tr ++ (post ++ [e]))).length =
        (returnedOf (tr ++ post)).length + (returnedOf [e]).length := by
      simp [← List.append_assoc]
    rcases ended_step hex with hex | hse
    · have := hw.empty hex
      omega
    · -- an empty channel: everything sent so far has run
      obtain ⟨hc, ht, hr⟩ := seesEmpty_step h hse
      have h1 := conserved hrun
      have h2 := returned hrun
      rw [hc, ht] at h1
      rw [hr] at h2
      simp only [List.append_nil] at h1 h2
      have h3 : (sentOf (tr ++ post)).length = (sentOf tr).length + (sentOf post).length := by simp
      rw [← h1, ← h2] at h3
      omega

/-- A runnable with `m.chan` ahead of it at its send has run, once the quotas of the
    invocations begun after the send and completed add up to more than that. -/
theorem waited {pre post : List (Ev P ρ)} {m s : St P ρ} {t : Thread P} {r : ρ} (hpre : (machine P ρ).Run pre m)
    (hpost : (machine P ρ).Steps m (.send t r :: post) s)
    (hk : m.chan.length < completedQuota (invocations post)) :
    (returnedOf (pre ++ .send t r :: post))[(sentOf pre).length]? = some r := by
  have hcat : pre ++ .send t r :: post = (pre ++ [.send t r]) ++ post := by simp
  obtain ⟨m', h1, h2⟩ := Lib.Machine.steps_cons.mp hpost
  have hrun' := hpre.snoc h1
  have hrun := hpre.append hpost
  have hm : m'.handler = m.handler := by
    have h1 : step m (.send t r) = some m' := h1
    cases step_inv h1
    rfl
  have hn : (sentOf pre).length < (sentOf (pre ++ [.send t r])).length := by simp [sentOf]
  have hb : (ranOf pre).length + m.handler.taken.length + m.chan.length = (sentOf pre).length := by
    have := congrArg List.length (conserved hpre)
    simpa [Nat.add_assoc] using this
  have hw : Waiting (sentOf pre).length ((ranOf pre).length + m.handler.taken.length) (pre ++ [.send t r]) post s := by
    refine Lib.Machine.steps_induction
      (J := fun post s => Waiting (sentOf pre).length ((ranOf pre).length + m.handler.taken.length)
        (pre ++ [.send t r]) post s) ?_ ?_ h2
    · refine ⟨fun _ => ?_, fun h => absurd rfl h, fun ⟨i, hi, _⟩ => by cases hi⟩
      rw [hm]
      simp [ranOf]
    · intro post' s' e s'' hs ih hst
      exact waiting_step (hrun'.append hs) hn ih (step_inv hst)
  have hlen : (sentOf pre).length < (returnedOf (pre ++ .send t r :: post)).length := by
    by_cases he : ∃ i ∈ invocations post, i.ended = some .empty
    · rw [hcat]; exact hw.empty he
    · have hne : invocations post ≠ [] := by
        intro h
        rw [h] at hk
        exact absurd hk (Nat.not_lt_zero _)
      have hl := logged_steps hrun' h2
      have hq := quota_le_ran hl hne fun i hi h => he ⟨i, hi, h⟩
      have hs := hw.since hne
      have hr := congrArg List.length (returned hrun)
      rw [List.length_append] at hr
      rw [← hcat] at hs
      omega
  -- what has returned is a prefix of what was sent
  have hpfx : returnedOf (pre ++ .send t r :: post) ++ (s.handler.inRun ++ s.handler.taken ++ s.chan) =
      sentOf (pre ++ .send t r :: post) := by
    rw [← conserved hrun, ← returned hrun]
    simp
  have hget : (sentOf (pre ++ .send t r :: post))[(sentOf pre).length]? = some r := by
    simp [sentOf]
  rw [← hpfx, List.getElem?_append_left hlen] at hget
  exact hget

/-- FIFO, exactly once, with bounded batches and bounded waiting. An invocation that is
    over, as each is but the newest and that one too with the handler idle, has run its
    quota or has seen the channel empty before. -/
theorem fifo_exactly_once {tr : List (Ev P ρ)} {s : St P ρ} (h : (machine P ρ).Run tr s) :
    ranOf tr ++ s.handler.taken ++ s.chan = sentOf tr ∧
    (∀ i ∈ invocations tr, ∀ limit, i.limit = some limit → i.ran ≤ max 1 limit.toNat ∧
      (i.ended = none ∨ i.ended = some .limit ∧ i.ran = max 1 limit.toNat ∨ i.ended = some .empty)) ∧
    ((s.handler = .idle → ∀ i ∈ invocations tr, i.Done) ∧ ∀ i ∈ (invocations tr).tail, i.Done) ∧
    (∀ pre e post m, tr = pre ++ e :: post → e.seesEmpty → (machine P ρ).Run pre m →
      (machine P ρ).Steps m (e :: post) s → m.chan = []) ∧
    (∀ limit cnt r, s.handler = .running limit cnt r → (cnt + 1).toNat = cnt.toNat + 1) ∧
    ∀ pre t r post m, tr = pre ++ .send t r :: post → (machine P ρ).Run pre m →
      (machine P ρ).Steps m (.send t r :: post) s → m.chan.length < completedQuota (invocations post) →
      (returnedOf tr)[(sentOf pre).length]? = some r := by
  have hl : Logged (invocations tr) s.handler := by
    obtain ⟨s₀, h0, hs⟩ := h
    exact logged_steps ⟨s₀, h0, .nil _⟩ hs
  refine ⟨conserved h, fair_logged hl (cnt_invariant.run h), done_logged hl, ?_, fun limit cnt r hh => cnt_run h hh, ?_⟩
  · rintro pre e post m rfl he hpre hpost
    obtain ⟨m', h1, -⟩ := Lib.Machine.steps_cons.mp hpost
    exact (seesEmpty_step (step_inv h1) he).1
  · rintro pre t r post m rfl hpre hpost hk
    exact waited hpre hpost hk

/-- One runnable, its wakeup and the invocation that runs it. -/
def oneBatch : List (Ev Nat Nat) :=
  [.send (.other 0) 7, .cas (.other 0) true, .write (.other 0), .enter, .drain, .clear, .load 8, .isEmpty false,
   .tryRecv (some 7), .run 7, .ret 7 false, .tryRecv none]

/-- The run of it ends in the event loop: 7 has run and returned, in an invocation that is over. -/
theorem fifo_exactly_once_oneBatch :
    ∃ s : St Nat Nat, (machine Nat Nat).Run (.call (.other 0) 7 :: oneBatch) s ∧ s.handler = .idle ∧ s.chan = [] ∧
      ranOf (.call (.other 0) 7 :: oneBatch) = sentOf (.call (.other 0) 7 :: oneBatch) ∧
      (returnedOf (.call (.other 0) 7 :: oneBatch))[0]? = some 7 ∧
      ∀ i ∈ invocations (.call (.other 0) 7 :: oneBatch), i.Done := by
  have h0 : (machine Nat Nat).init (start [] false 8 (Notify.Fd.new 1 (by decide))) := ⟨1, by decide, rfl⟩
  obtain ⟨m, hm, hc⟩ : ∃ m, (machine Nat Nat).exec (start [] false 8 (Notify.Fd.new 1 (by decide)))
      [.call (.other 0) 7] = some m ∧ m.chan = [] := ⟨_, rfl, rfl⟩
  obtain ⟨s, hs, hh, hq⟩ : ∃ s, (machine Nat Nat).exec m oneBatch = some s ∧ s.handler = .idle ∧ s.chan = [] := by
    cases hm
    exact ⟨_, rfl, rfl, rfl⟩
  have hpre : (machine Nat Nat).Run [.call (.other 0) 7] m := ⟨_, h0, Lib.Machine.steps_of_exec hm⟩
  have hpost := Lib.Machine.steps_of_exec hs
  have hrun := hpre.append hpost
  have h := fifo_exactly_once hrun
  refine ⟨s, hrun, hh, hq, by simpa [hh, hq, Handler.taken] using h.1, ?_, h.2.2.1.1 hh⟩
  exact h.2.2.2.2.2 _ _ _ _ m rfl hpre hpost (by rw [hc]; decide)

end NgxTickle.Sched
