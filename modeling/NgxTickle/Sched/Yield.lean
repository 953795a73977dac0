/-
  NgxTickle.Sched.Yield — tasks that yield take turns (`examples/yielding.rs`: `yield_now`,
  `yielding_handler`; the section on fairness in `src/lib.rs`).

  A yielder awaits `yield_now()` so many times, one after another. Its first poll of each
  wakes itself, and a task woken while it runs is handed to `schedule` when the run ends;
  so it goes on exactly as many times as it yields (`wakes_iff`). What else a run schedules
  is any function of the runs so far, as long as it is no yielder.

  So whatever the batch sizes are and whatever else is queued, no yielder is ever more than
  one run ahead of one that has not finished, each is run once more than it yields, and the
  event loop comes to a stop unless the other runnables keep it going
  (`yielders_take_turns`).
-/

import Mathlib.Algebra.BigOperators.Group.List.Lemmas
import Mathlib.Algebra.Order.BigOperators.Group.List
import Mathlib.Algebra.Order.Ring.Nat
import Mathlib.Data.List.Dedup
import NgxTickle.Sched.Batch

namespace NgxTickle.Sched.Yield

open NgxTickle.Notify NgxTickle.Sched NgxTickle.Sched.Batch Lib

inductive Poll where
  | ready
  | pending
  deriving DecidableEq, Repr

/-- The closure of `yield_now`: `yielded` after the poll, what it returns, and whether it
    woke its task. -/
def yield_now (yielded : Bool) : Bool × Poll × Bool :=
  if yielded then (true, .ready, false) else (true, .pending, true)

/-- What is left of the body: the yields to await, the current one included, and the state
    of the current one. -/
structure Body where
  left : Nat
  yielded : Bool
  deriving DecidableEq, Repr

/-- A poll of the body goes on to the next yield where the current one is over. -/
def Body.poll : Nat → Bool → Body × Poll × Bool
  | 0, yielded => (⟨0, yielded⟩, .ready, false)
  | left + 1, yielded =>
    match yield_now yielded with
    | (_, .ready, _) => Body.poll left false
    | (yielded', .pending, woke) => (⟨left + 1, yielded'⟩, .pending, woke)

/-- The body of `k` yields after its poll `c` (from 0). -/
def polled (k : Nat) : Nat → Body × Poll × Bool
  | 0 => Body.poll k false
  | c + 1 => Body.poll (polled k c).1.left (polled k c).1.yielded

/-- The task woke itself in the last of `c` polls. -/
def wakes (k : Nat) : Nat → Bool
  | 0 => false
  | c + 1 => (polled k c).2.2

theorem polled_pending {k c : Nat} (h : c < k) : polled k c = (⟨k - c, true⟩, .pending, true) := by
  induction c with
  | zero =>
    cases k with
    | zero => omega
    | succ k => rfl
  | succ c ih =>
    obtain ⟨j, hj⟩ : ∃ j, k - c = j + 2 := ⟨k - c - 2, by omega⟩
    have hj' : k - (c + 1) = j + 1 := by omega
    rw [polled, ih (by omega), hj, hj']
    rfl

/-- From then on there is nothing left to await. -/
theorem polled_ready {k c : Nat} (h : k ≤ c) : (polled k c).1.left = 0 ∧ (polled k c).2.2 = false := by
  induction h with
  | refl =>
    cases k with
    | zero => exact ⟨rfl, rfl⟩
    | succ k =>
      have hk : k.succ - k = 1 := by omega
      rw [polled, polled_pending (Nat.lt_succ_self k), hk]
      exact ⟨rfl, rfl⟩
  | step _ ih =>
    rw [polled, ih.1]
    exact ⟨rfl, rfl⟩

theorem wakes_iff {k c : Nat} : wakes k c = true ↔ 0 < c ∧ c ≤ k := by
  cases c with
  | zero => simp [wakes]
  | succ c =>
    by_cases h : c < k
    · simp [wakes, polled_pending h]
      omega
    · simp [wakes, polled_ready (Nat.not_lt.mp h)]
      omega

section

variable {ρ : Type} (yields : ρ → Option Nat) (others : List ρ → List ρ)

/-- The runnable is that of a yielder. -/
def yielder (r : ρ) : Bool := (yields r).isSome

def again (r : ρ) (c : Nat) : Bool := (yields r).any fun k => wakes k c

theorem yielder_of {yields : ρ → Option Nat} {r : ρ} {k : Nat} (h : yields r = some k) : yielder yields r = true := by
  simp [yielder, h]

theorem again_of {yields : ρ → Option Nat} {r : ρ} {k : Nat} (h : yields r = some k) (c : Nat) :
    again yields r c = true ↔ 0 < c ∧ c ≤ k := by
  simp [again, h, wakes_iff]

variable [DecidableEq ρ]

/-- What the last run schedules: the task itself comes after what its poll scheduled. -/
def runs (hist : List ρ) : List ρ :=
  others hist ++
    match hist.getLast? with
    | some r => if again yields r (hist.count r) = true then [r] else []
    | none => []

variable {yields others}

theorem runs_take_turns (ho : ∀ hist, ∀ r ∈ others hist, yields r = none) :
    Worklist.TakesTurns (runs yields others) (yielder yields) (again yields) := by
  intro hist r
  have hf : (others (hist ++ [r])).filter (yielder yields) = [] := by
    rw [List.filter_eq_nil_iff]
    intro x hx
    simp [yielder, ho _ x hx]
  simp only [runs, List.filter_append, hf, List.nil_append, List.getLast?_concat]
  by_cases ha : again yields r ((hist ++ [r]).count r) = true
  · have hy : yielder yields r = true := by
      cases hk : yields r with
      | none => simp [again, hk] at ha
      | some k => exact yielder_of hk
    simp [hy]
  · rw [if_neg ha, if_neg fun h => ha h.2]
    rfl

/-- How many runs of yielders there are at most. -/
theorem count_yielders {chan hist : List ρ} (hin : ∀ r ∈ hist, yielder yields r = true → r ∈ chan)
    (hle : ∀ r ∈ chan, ∀ k, yields r = some k → hist.count r ≤ k + 1) :
    hist.countP (yielder yields) ≤ chan.length * ((chan.map fun r => (yields r).getD 0).sum + 1) := by
  let M := (chan.map fun r => (yields r).getD 0).sum + 1
  let ys := hist.dedup.filter (yielder yields)
  have hsub : ys ⊆ chan := fun r hr => by
    obtain ⟨hr, hy⟩ := List.mem_filter.mp hr
    exact hin r (List.mem_dedup.mp hr) hy
  have hlen : ys.length ≤ chan.length :=
    (List.subperm_of_subset ((List.nodup_dedup hist).filter _) hsub).length_le
  have hM : ∀ n ∈ (ys.map fun r => hist.count r), n ≤ M := by
    intro n hn
    obtain ⟨r, hr, rfl⟩ := List.mem_map.mp hn
    have hy := (List.mem_filter.mp hr).2
    obtain ⟨k, hk⟩ := Option.isSome_iff_exists.mp hy
    have hkM : k ≤ (chan.map fun r => (yields r).getD 0).sum :=
      List.le_sum_of_mem (List.mem_map.mpr ⟨r, hsub hr, by simp [hk]⟩)
    have := hle r (hsub hr) k hk
    omega
  calc hist.countP (yielder yields) = (ys.map fun r => hist.count r).sum :=
        (List.sum_map_count_dedup_filter_eq_countP _ hist).symm
    _ ≤ (ys.map fun r => hist.count r).length • M := List.sum_le_card_nsmul _ M hM
    _ ≤ chan.length * M := by
        rw [List.length_map]
        exact Nat.mul_le_mul_right M hlen

end

/-- From any queue, with any batch sizes: the yielders of the queue take turns, and each is
    run once more than it yields. Unless other runnables are run for ever the event loop
    stops. -/
theorem yielders_take_turns {P ρ : Type} [DecidableEq P] [DecidableEq ρ] (yields : ρ → Option Nat)
    (others : List ρ → List ρ) (ho : ∀ hist, ∀ r ∈ others hist, yields r = none) (chan : List ρ)
    (hc : (chan.filter (yielder yields)).Nodup) (ls : Nat → UInt32) (tickled : Bool) (batch : UInt32) (fd : Fd)
    (h : fd.readable = true) :
    let A := at_ (runs yields others) ls (begin_ chan tickled batch fd : DSt P ρ)
    (∀ n t u k j, t ∈ chan → yields t = some k → yields u = some j → (A n).hist.count t ≤ k →
      (A n).hist.count u ≤ (A n).hist.count t + 1) ∧
    (∀ n t k, t ∈ chan → yields t = some k → (A n).hist.count t ≤ k + 1) ∧
    (∀ n t k, (A n).Stopped → t ∈ chan → yields t = some k → (A n).hist.count t = k + 1) ∧
    ∀ N, (∀ n, (A n).hist.countP (fun r => !yielder yields r) ≤ N) → ∃ n, (A n).Stopped := by
  intro A
  have hb := runs_take_turns ho
  have hA := solo_begin (P := P) chan tickled batch h
  have fA : ∀ n, ∃ i, view (A n) = Worklist.after (runs yields others) ⟨[], chan⟩ i := by
    intro n
    rw [← view_begin chan tickled batch fd]
    exact follows (runs yields others) ls hA n
  have most : ∀ n t k, t ∈ chan → yields t = some k → (A n).hist.count t ≤ k + 1 := by
    intro n t k ht hk
    obtain ⟨i, hi⟩ := fA n
    have := Worklist.count_after_le hb hc ht (yielder_of hk) (fun c hc => ((again_of hk c).mp hc).2) i
    rw [← hi] at this
    exact this
  have queued : ∀ n t k, t ∈ chan → yields t = some k → (t ∈ (view (A n)).queue ↔ (A n).hist.count t ≤ k) := by
    intro n t k ht hk
    obtain ⟨i, hi⟩ := fA n
    have := Worklist.queued_after hb hc ht (yielder_of hk) i
    rw [← hi, again_of hk] at this
    rw [this]
    show (A n).hist.count t = 0 ∨ 0 < (A n).hist.count t ∧ (A n).hist.count t ≤ k ↔ _
    omega
  refine ⟨fun n t u k j ht hk hj hle => ?_, most, fun n t k hs ht hk => ?_, fun N hN => ?_⟩
  · have hq := (queued n t k ht hk).mpr hle
    obtain ⟨i, hi⟩ := fA n
    have hturns := Worklist.turns_after hb hc i
    rw [← hi] at hturns
    exact hturns.fair hq (yielder_of hk) (yielder_of hj)
  · have hq := (stopped_done (solo_at _ ls hA n) hs).2
    have hle := most n t k ht hk
    have hnot := mt (queued n t k ht hk).mpr (by rw [hq]; simp)
    omega
  · refine stops _ ls hA (N := chan.length * ((chan.map fun t => (yields t).getD 0).sum + 1) + N) fun n => ?_
    have hin : ∀ r ∈ (A n).hist, yielder yields r = true → r ∈ chan := by
      intro r hr hy
      obtain ⟨i, hi⟩ := fA n
      refine Worklist.mine_after hb hy i (Or.inl ?_)
      rw [← hi]
      exact hr
    have hcount := count_yielders hin fun r hr k hk => most n r k hr hk
    have hothers := hN n
    have hlen : (A n).hist.length = (A n).hist.countP (yielder yields) +
        (A n).hist.countP fun r => !yielder yields r := by
      simpa using List.length_eq_countP_add_countP (yielder yields) (l := (A n).hist)
    show (A n).hist.length ≤ _
    omega

/-- 1 and 2 yield once, and the first run of 1 schedules 9, which does not. -/
def once (r : Nat) : Option Nat := if r = 9 then none else some 1

def first (hist : List Nat) : List Nat := if hist = [1] then [9] else []

theorem yielders_take_turns_once :
    (at_ (runs once first) (fun _ => 8) (begin_ [1, 2] false 8 (Fd.new 1 (by decide)).write : DSt Nat Nat) 36).Stopped ∧
      (at_ (runs once first) (fun _ => 8) (begin_ [1, 2] false 8 (Fd.new 1 (by decide)).write : DSt Nat Nat) 36).hist.count
        2 = 2 := by
  have ho : ∀ hist, ∀ r ∈ first hist, once r = none := by
    intro hist r hr
    unfold first at hr
    split at hr
    · rw [List.mem_singleton.mp hr]
      rfl
    · cases hr
  have h := yielders_take_turns (P := Nat) once first ho [1, 2] (by decide) (fun _ => 8) false 8
    (Fd.new 1 (by decide)).write (by decide)
  have hs : (at_ (runs once first) (fun _ => 8) (begin_ [1, 2] false 8 (Fd.new 1 (by decide)).write : DSt Nat Nat)
    36).Stopped := ⟨rfl, rfl, rfl⟩
  exact ⟨hs, h.2.2.1 36 2 1 hs (by decide) (by decide)⟩

end NgxTickle.Sched.Yield
