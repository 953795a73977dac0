/-
  NgxTickle.Sched.Cost — what tickle coalescing costs: how many tickle calls a run
  makes, against its sends, its invocations and the runnables it runs.

  A tickle is paid for by a flip of TICKLED or by an invocation at its limit (`Paid`).
  A flip needs a send of its own, and all but one of them a clear between it and the
  flip before (`flips_le_sends`, `flips_le_clears`). An invocation at its limit has run
  its quota (`limitHits`).
-/

import NgxTickle.Lib.Census
import NgxTickle.Sched.Fifo
import NgxTickle.Sched.Wakeup

namespace NgxTickle.Sched

open Lib (Census)

variable {P ρ : Type}

/-! ## Counting events -/

inductive Cost where
  | send
  /-- An invocation clears TICKLED. -/
  | clear
  | run
  /-- A `compare_exchange` succeeds. -/
  | flip
  /-- The test `cnt >= limit` succeeds. -/
  | limit
  /-- A tickle, of `schedule` or of the limit exit. -/
  | tickle
  deriving DecidableEq, Repr

def Ev.cost : Ev P ρ → Option Cost
  | .send .. => some .send
  | .clear => some .clear
  | .run _ => some .run
  | .cas _ true => some .flip
  | .ret _ true => some .limit
  | .write _ | .tickle => some .tickle
  | _ => none

def count (c : Cost) (tr : List (Ev P ρ)) : Nat := tr.countP fun e => decide (e.cost = some c)

theorem count_append (c : Cost) (tr tr' : List (Ev P ρ)) : count c (tr ++ tr') = count c tr + count c tr' :=
  List.countP_append

@[simp] theorem count_one (c : Cost) (e : Ev P ρ) : count c [e] = if e.cost = some c then 1 else 0 := by
  simp [count, List.countP_cons]

theorem count_run (tr : List (Ev P ρ)) : count .run tr = (ranOf tr).length := by
  induction tr with
  | nil => rfl
  | cons e tr ih =>
    show count .run ([e] ++ tr) = (ranOf ([e] ++ tr)).length
    rw [count_append, ranOf_append, List.length_append, ih]
    cases e with
    | cas t won => cases won <;> rfl
    | ret r hit => cases hit <;> rfl
    | _ => rfl

/-! ## Threads inside `schedule` -/

/-- The event takes its thread to this place, past its send. -/
def Ev.arrives : Ev P ρ → Pc ρ → Bool
  | .send .., .sent => true
  | .cas _ true, .won => true
  | _, _ => false

/-- The event takes its thread away from this place. -/
def Ev.leaves : Ev P ρ → Pc ρ → Bool
  | .cas .., .sent => true
  | .write _, .won => true
  | _, _ => false

variable [DecidableEq P] [DecidableEq ρ]

/-- How many threads are at a place past the send, from one state to the next. -/
theorem census_step {c : Pc ρ} (hc : c.pastSend) {s s' : St P ρ} {e : Ev P ρ} {n : Nat}
    (hn : Census (· = c) s.pc n) (h : Step s e s') :
    ∃ m, Census (· = c) s'.pc m ∧ m + (e.leaves c).toNat = n + (e.arrives c).toNat := by
  have moved : ∀ t d, s'.pc = Function.update s.pc t d →
      ∃ m, Census (· = c) s'.pc m ∧ m + (if s.pc t = c then 1 else 0) = n + (if d = c then 1 else 0) := by
    intro t d hpc
    rw [hpc]
    exact hn.move t d
  have hc : c = .sent ∨ c = .won := by
    cases c with
    | sent => exact Or.inl rfl
    | won => exact Or.inr rfl
    | _ => exact hc.elim
  rcases hc with rfl | rfl
  all_goals
    cases h with
    | call t r hpc _ => simpa [hpc, Ev.leaves, Ev.arrives] using moved t _ rfl
    | send t r hpc => simpa [hpc, Ev.leaves, Ev.arrives] using moved t _ rfl
    | casWon t hpc _ => simpa [hpc, Ev.leaves, Ev.arrives] using moved t _ rfl
    | casLost t hpc _ => simpa [hpc, Ev.leaves, Ev.arrives] using moved t _ rfl
    | write t hpc => simpa [hpc, Ev.leaves, Ev.arrives] using moved t _ rfl
    | _ => exact ⟨n, hn, rfl⟩

/-! ## Flips and tickles -/

/-- Between the limit test and its tickle. -/
def Handler.owes : Handler ρ → Nat
  | .limitHit => 1
  | _ => 0

/-- Each flip and each limit test that succeeded has its tickle, or a thread about to make it. -/
def Paid (tr : List (Ev P ρ)) (s : St P ρ) : Prop :=
  ∃ w, Census (· = .won) s.pc w ∧ count .tickle tr + w + s.handler.owes = count .flip tr + count .limit tr

/-- Each flip has a send of its own, not the one of a thread that is at its `compare_exchange`. -/
def Sent (tr : List (Ev P ρ)) (s : St P ρ) : Prop :=
  ∃ n, Census (· = .sent) s.pc n ∧ count .flip tr + n ≤ count .send tr

omit [DecidableEq ρ] in
theorem tickles_step {s s' : St P ρ} {e : Ev P ρ} (h : Step s e s') :
    count .tickle [e] + s'.handler.owes + (e.arrives .won).toNat =
      count .flip [e] + count .limit [e] + s.handler.owes + (e.leaves .won).toNat := by
  cases h with
  | casWon t _ _ => simp [Ev.cost, Ev.arrives, Ev.leaves]; omega
  | write t _ => simp [Ev.cost, Ev.arrives, Ev.leaves]; omega
  | _ => simp_all [Ev.cost, Ev.arrives, Ev.leaves, Handler.owes]

theorem paid_step {tr : List (Ev P ρ)} {s s' : St P ρ} {e : Ev P ρ} (hp : Paid tr s) (h : Step s e s') :
    Paid (tr ++ [e]) s' := by
  obtain ⟨w, hw, heq⟩ := hp
  obtain ⟨m, hm, hc⟩ := census_step (c := .won) trivial hw h
  have := tickles_step h
  refine ⟨m, hm, ?_⟩
  simp only [count_append]
  omega

omit [DecidableEq P] [DecidableEq ρ] in
theorem flip_sent (e : Ev P ρ) : count .flip [e] + (e.arrives .sent).toNat ≤ count .send [e] + (e.leaves .sent).toNat := by
  cases e with
  | cas t won => cases won <;> simp [Ev.cost, Ev.arrives, Ev.leaves]
  | ret r hit => cases hit <;> simp [Ev.cost, Ev.arrives, Ev.leaves]
  | _ => simp [Ev.cost, Ev.arrives, Ev.leaves]

theorem sent_step {tr : List (Ev P ρ)} {s s' : St P ρ} {e : Ev P ρ} (hp : Sent tr s) (h : Step s e s') :
    Sent (tr ++ [e]) s' := by
  obtain ⟨n, hn, hle⟩ := hp
  obtain ⟨m, hm, hc⟩ := census_step (c := .sent) trivial hn h
  have := flip_sent e
  refine ⟨m, hm, ?_⟩
  simp only [count_append]
  omega

omit [DecidableEq ρ] in
/-- A flip finds TICKLED false, and only a clear makes it so again. -/
theorem flips_step {tr : List (Ev P ρ)} {s s' : St P ρ} {e : Ev P ρ}
    (hf : count .flip tr ≤ count .clear tr + s.tickled.toNat) (h : Step s e s') :
    count .flip (tr ++ [e]) ≤ count .clear (tr ++ [e]) + s'.tickled.toNat := by
  simp only [count_append]
  cases h with
  | casWon t _ ht => simp [Ev.cost, ht] at hf ⊢; omega
  | clear _ =>
    have := s.tickled.toNat_le
    simp [Ev.cost] at hf ⊢
    omega
  | _ => simpa [Ev.cost] using hf

/-! ## Invocations at their limit -/

def Invocation.AtLimit (i : Invocation) : Prop := ∃ limit, i.limit = some limit ∧ i.ran = max 1 limit.toNat

/-- The logged invocations whose limit test has succeeded: those that left by the
    limit exit, and the newest between its test and its tickle. -/
def limitHits (h : Handler ρ) (log : List Invocation) : List Invocation :=
  log.take h.owes ++ log.filter fun i => decide (i.ended = some .limit)

theorem atLimit_of_done {i : Invocation} (h : i.Done) (he : i.ended = some .limit) : i.AtLimit := by
  obtain ⟨limit, hl, ⟨-, hr⟩ | ⟨hn, -⟩⟩ := h
  · exact ⟨limit, hl, hr⟩
  · rw [he] at hn; cases hn

omit [DecidableEq P] [DecidableEq ρ] in
theorem hits_atLimit {log : List Invocation} {h : Handler ρ} (hl : Logged log h) : ∀ i ∈ limitHits h log, i.AtLimit := by
  intro i hi
  cases log with
  | nil => cases h <;> cases hi
  | cons j log =>
    obtain ⟨ha, hd⟩ := hl
    rcases List.mem_append.mp hi with hi | hi
    · cases h with
      | limitHit =>
        obtain ⟨limit, rfl⟩ := ha
        simp [Handler.owes] at hi
        subst hi
        exact ⟨limit, rfl, rfl⟩
      | _ => cases hi
    · simp only [List.mem_filter, decide_eq_true_eq] at hi
      obtain ⟨hm, he⟩ := hi
      rcases List.mem_cons.mp hm with rfl | hm
      · cases h with
        | idle => exact atLimit_of_done ha he
        | limitHit => obtain ⟨limit, rfl⟩ := ha; cases he
        | _ => rw [show i = _ from ha] at he; cases he
      · exact atLimit_of_done (hd i hm) he

/-- What the log says of the counts: the runs are its runs, the limit tests that
    succeeded are its invocations at their limit, and its limits were loaded. -/
structure Tallied (tr : List (Ev P ρ)) (s : St P ρ) : Prop where
  none : invocations tr = [] → s.handler = .idle
  ran : logRan (invocations tr) = count .run tr
  hits : (limitHits s.handler (invocations tr)).length = count .limit tr
  loaded : ∀ i ∈ invocations tr, ∀ limit, i.limit = some limit → .load limit ∈ tr

omit [DecidableEq ρ] in
theorem none_step {log : List Invocation} {s s' : St P ρ} {e : Ev P ρ} (hn : log = [] → s.handler = .idle)
    (h : Step s e s') (hlog : logEv log e = []) : s'.handler = .idle := by
  obtain ⟨hl, he⟩ := logEv_nil hlog
  have hi := hn hl
  cases h <;> simp_all

omit [DecidableEq ρ] in
theorem ran_step {log : List Invocation} {s s' : St P ρ} {e : Ev P ρ} (hn : log = [] → s.handler = .idle)
    (h : Step s e s') : logRan (logEv log e) = logRan log + count .run [e] := by
  rw [count_run]
  cases log with
  | cons i log => exact logRan_step i log e
  | nil =>
    have hi := hn rfl
    cases h <;> simp_all [logEv, logRan, ranOf]

omit [DecidableEq ρ] in
theorem hits_step {log : List Invocation} {s s' : St P ρ} {e : Ev P ρ} (hl : Logged log s.handler)
    (hn : log = [] → s.handler = .idle) (h : Step s e s') :
    (limitHits s'.handler (logEv log e)).length = (limitHits s.handler log).length + count .limit [e] := by
  cases log with
  | nil =>
    have hi := hn rfl
    cases h <;> simp_all [logEv, limitHits, Handler.owes, Ev.cost]
  | cons i log =>
    obtain ⟨ha, -⟩ := hl
    cases h with
    | tickle hh =>
      rw [hh] at ha
      obtain ⟨limit, rfl⟩ := ha
      simp [hh, logEv, limitHits, Handler.owes, Ev.cost]
    | _ => simp_all [logEv, limitHits, Handler.owes, Ev.cost, Invocation.At]

omit [DecidableEq P] [DecidableEq ρ] in
theorem loaded_step {log : List Invocation} {tr : List (Ev P ρ)} {e : Ev P ρ}
    (hl : ∀ i ∈ log, ∀ limit, i.limit = some limit → .load limit ∈ tr) :
    ∀ i ∈ logEv log e, ∀ limit, i.limit = some limit → .load limit ∈ tr ++ [e] := by
  have old : ∀ i ∈ log, ∀ limit, i.limit = some limit → .load limit ∈ tr ++ [e] := fun i hi limit h =>
    List.mem_append_left _ (hl i hi limit h)
  intro i hi limit hlim
  unfold logEv at hi
  split at hi
  · rcases List.mem_cons.mp hi with rfl | hi
    · cases hlim
    · exact old i hi limit hlim
  · rcases List.mem_cons.mp hi with rfl | hi
    · cases hlim; simp
    · exact old i (List.mem_cons_of_mem _ hi) limit hlim
  all_goals first
    | exact old i hi limit hlim
    | rcases List.mem_cons.mp hi with rfl | hi
      · exact old _ List.mem_cons_self limit hlim
      · exact old i (List.mem_cons_of_mem _ hi) limit hlim

theorem tallied_run {tr : List (Ev P ρ)} {s : St P ρ} (h : (machine P ρ).Run tr s) : Tallied tr s := by
  refine Lib.Machine.run_induction (J := Tallied) ?_ ?_ h
  · intro s hs
    obtain ⟨cap, hc, rfl⟩ := hs
    exact ⟨fun _ => rfl, rfl, rfl, fun i hi => by cases hi⟩
  · intro tr s e s' hrun ih hst
    have hl : Logged (invocations tr) s.handler := by
      obtain ⟨s₀, h0, hs⟩ := hrun
      exact logged_steps ⟨s₀, h0, .nil _⟩ hs
    have hs := step_inv hst
    constructor
    · rw [invocations_snoc]; exact none_step ih.none hs
    · rw [invocations_snoc, count_append, ran_step ih.none hs, ih.ran]
    · rw [invocations_snoc, count_append, hits_step hl ih.none hs, ih.hits]
    · rw [invocations_snoc]; exact loaded_step ih.loaded

omit [DecidableEq P] [DecidableEq ρ] in
/-- Invocations that each ran `q` or more ran `q` for each of them. -/
theorem hits_le_ran {log : List Invocation} {h : Handler ρ} (hl : Logged log h) {q : Nat}
    (hq : ∀ i ∈ limitHits h log, i.ran = q) : (limitHits h log).length * q ≤ logRan log := by
  have closed : ∀ l : List Invocation, (∀ i ∈ l, i.ended = some .limit → i.ran = q) →
      (l.filter fun i => decide (i.ended = some .limit)).length * q ≤ logRan l := by
    intro l
    induction l with
    | nil => intro _; simp [logRan]
    | cons j l ih =>
      intro hj
      have hrest := ih fun i hi => hj i (List.mem_cons_of_mem _ hi)
      unfold logRan at hrest ⊢
      by_cases he : j.ended = some .limit
      · simp [he, Nat.add_mul, hj j List.mem_cons_self he]
        omega
      · simp [he]
        omega
  have hold : ∀ i ∈ log, i.ended = some .limit → i.ran = q := fun i hi he =>
    hq i (List.mem_append_right _ (by simp [hi, he]))
  cases log with
  | nil => cases h <;> simp [limitHits]
  | cons i log =>
    by_cases hh : h = .limitHit
    · subst hh
      obtain ⟨⟨limit, rfl⟩, -⟩ := hl
      have hi := hq ⟨some limit, quota limit, none⟩ (by simp [limitHits, Handler.owes])
      have := closed log fun i hi => hold i (List.mem_cons_of_mem _ hi)
      simp only at hi
      simp [limitHits, Handler.owes, logRan, Nat.add_mul, hi] at this ⊢
      omega
    · have h0 : h.owes = 0 := by cases h <;> first | rfl | exact absurd rfl hh
      simpa [limitHits, h0] using closed (i :: log) hold

/-! ## The cost law -/

theorem paid_run {tr : List (Ev P ρ)} {s : St P ρ} (h : (machine P ρ).Run tr s) : Paid tr s := by
  refine Lib.Machine.run_induction (J := Paid) ?_ ?_ h
  · intro s hs
    obtain ⟨cap, hc, rfl⟩ := hs
    exact ⟨0, .none fun _ h => (by cases h), rfl⟩
  · intro tr s e s' _ ih hst
    exact paid_step ih (step_inv hst)

theorem flips_le_sends {tr : List (Ev P ρ)} {s : St P ρ} (h : (machine P ρ).Run tr s) :
    count .flip tr ≤ count .send tr := by
  have hs : Sent tr s := by
    refine Lib.Machine.run_induction (J := Sent) ?_ ?_ h
    · intro s hs
      obtain ⟨cap, hc, rfl⟩ := hs
      exact ⟨0, .none fun _ h => (by cases h), Nat.le_refl _⟩
    · intro tr s e s' _ ih hst
      exact sent_step ih (step_inv hst)
  obtain ⟨n, -, hn⟩ := hs
  omega

theorem flips_le_clears {tr : List (Ev P ρ)} {s : St P ρ} (h : (machine P ρ).Run tr s) :
    count .flip tr ≤ 1 + count .clear tr := by
  have hf : count .flip tr ≤ count .clear tr + s.tickled.toNat := by
    refine Lib.Machine.run_induction (J := fun tr s => count .flip tr ≤ count .clear tr + s.tickled.toNat) ?_ ?_ h
    · intro s hs
      obtain ⟨cap, hc, rfl⟩ := hs
      exact Nat.le_refl _
    · intro tr s e s' _ ih hst
      exact flips_step ih (step_inv hst)
  have := s.tickled.toNat_le
  omega

theorem hits_run {tr : List (Ev P ρ)} {s : St P ρ} (h : (machine P ρ).Run tr s) {b : UInt32}
    (hb : ∀ limit, .load limit ∈ tr → limit = b) : count .limit tr * max 1 b.toNat ≤ count .run tr := by
  have ht := tallied_run h
  have hl : Logged (invocations tr) s.handler := by
    obtain ⟨s₀, h0, hs⟩ := h
    exact logged_steps ⟨s₀, h0, .nil _⟩ hs
  rw [← ht.hits, ← ht.ran]
  apply hits_le_ran hl
  intro i hi
  obtain ⟨limit, hlim, hr⟩ := hits_atLimit hl i hi
  have hm : i ∈ invocations tr := by
    rcases List.mem_append.mp hi with hi | hi
    · exact List.mem_of_mem_take hi
    · exact List.mem_of_mem_filter hi
  rw [hr, hb limit (ht.loaded i hm limit hlim)]

/-- Every tickle is a flip's or a limit exit's; a flip needs a send, and a clear since
    the flip before; a limit exit needs its quota of runs. So with batch size `b` there
    are at most `min S (1 + H) + R / max 1 b` tickles. -/
theorem tickle_cost {tr : List (Ev P ρ)} {s : St P ρ} (h : (machine P ρ).Run tr s) :
    (∃ w, Census (· = .won) s.pc w ∧
      count .tickle tr + (w + s.handler.owes) = count .flip tr + count .limit tr) ∧
    count .flip tr ≤ count .send tr ∧ count .flip tr ≤ 1 + count .clear tr ∧
    ((limitHits s.handler (invocations tr)).length = count .limit tr ∧
      ∀ i ∈ limitHits s.handler (invocations tr), ∃ limit, i.limit = some limit ∧ i.ran = max 1 limit.toNat) ∧
    ∀ b : UInt32, (∀ limit, .load limit ∈ tr → limit = b) →
      count .limit tr * max 1 b.toNat ≤ count .run tr ∧
      count .tickle tr ≤ min (count .send tr) (1 + count .clear tr) + count .run tr / max 1 b.toNat := by
  obtain ⟨w, hw, heq⟩ := paid_run h
  have hsend := flips_le_sends h
  have hclear := flips_le_clears h
  refine ⟨⟨w, hw, by omega⟩, hsend, hclear, ⟨(tallied_run h).hits, ?_⟩, ?_⟩
  · obtain ⟨s₀, h0, hs⟩ := h
    exact hits_atLimit (logged_steps ⟨s₀, h0, .nil _⟩ hs)
  · intro b hb
    have hruns := hits_run h hb
    have hlim : count .limit tr ≤ count .run tr / max 1 b.toNat :=
      (Nat.le_div_iff_mul_le (by omega)).mpr hruns
    refine ⟨hruns, ?_⟩
    omega

/-- Batch size 1: one runnable, its tickle, and the forced one of the limit exit. -/
def oneForced : List (Ev Nat Nat) :=
  [.setBatch 1, .call (.other 0) 7, .send (.other 0) 7, .cas (.other 0) true, .write (.other 0), .enter, .drain, .clear,
   .load 1, .isEmpty false, .tryRecv (some 7), .run 7, .ret 7 true, .tickle]

/-- It ends in the event loop with both tickles made, and they are paid for. -/
theorem tickle_cost_oneForced :
    ∃ s : St Nat Nat, (machine Nat Nat).Run oneForced s ∧ s.handler = .idle ∧ s.fd.readable = true ∧
      count .tickle oneForced = 2 ∧
      count .tickle oneForced ≤ min (count .send oneForced) (1 + count .clear oneForced) + count .run oneForced / 1 := by
  have h0 : (machine Nat Nat).init (start [] false 8 (Notify.Fd.new 1 Nat.one_pos)) := ⟨1, Nat.one_pos, rfl⟩
  obtain ⟨s, hs, hh, hr⟩ : ∃ s, (machine Nat Nat).exec (start [] false 8 (Notify.Fd.new 1 Nat.one_pos)) oneForced =
      some s ∧ s.handler = .idle ∧ s.fd.readable = true := ⟨_, rfl, rfl, rfl⟩
  have hrun : (machine Nat Nat).Run oneForced s := ⟨_, h0, Lib.Machine.steps_of_exec hs⟩
  have h := tickle_cost hrun
  refine ⟨s, hrun, hh, hr, rfl, (h.2.2.2.2 1 fun limit hl => ?_).2⟩
  simpa [oneForced] using hl

end NgxTickle.Sched
