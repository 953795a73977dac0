/-
  Lib.Budget — machines in which some events ask for work and the others do it. `due`
  is what is left to do in a state: an event that asks adds at most `K` to it, every
  other event takes at least one off (`Budget`). So over a run the work done is paid for
  by what was asked (`Budget.steps`); and where runs are bounded, one of them ends where
  it cannot go on (`exists_maximal`).

  With many parties `due` is a sum over those that matter, and a step changes the share
  of one (`sum_change`); the events that concern the others are left out by `C`.
-/

import Mathlib.Algebra.BigOperators.Group.Finset.Basic
import NgxTickle.Lib.Machine

namespace Lib

universe u v w

/-- A sum after the share of one party has changed. -/
theorem sum_change {ι : Type w} [DecidableEq ι] {T : Finset ι} {F G : ι → Nat} {i : ι} (hi : i ∈ T)
    (h : ∀ j, j ≠ i → G j = F j) : ∑ j ∈ T, G j + F i = ∑ j ∈ T, F j + G i := by
  have rest : ∑ j ∈ T.erase i, G j = ∑ j ∈ T.erase i, F j :=
    Finset.sum_congr rfl fun j hj => h j (Finset.ne_of_mem_erase hj)
  have hF := Finset.add_sum_erase T F hi
  have hG := Finset.add_sum_erase T G hi
  omega

namespace Machine

variable {σ : Type u} {α : Type v} {M : Machine σ α}

structure Budget (M : Machine σ α) (asks : α → Bool) (K : Nat) (C : α → Prop) (due : σ → Nat) : Prop where
  ask : ∀ s a t, M.Reach s → C a → M.step s a = some t → asks a = true → due t ≤ due s + K
  work : ∀ s a t, M.Reach s → C a → M.step s a = some t → asks a = false → due t + 1 ≤ due s

/-- The work done in a run is paid for by what was due and what was asked. -/
theorem Budget.steps {asks : α → Bool} {K : Nat} {C : α → Prop} {due : σ → Nat} (hB : M.Budget asks K C due) {s t : σ}
    {tr : List α} (hs : M.Reach s) (h : M.Steps s tr t) (hc : ∀ a ∈ tr, C a) :
    due t + tr.countP (fun a => !asks a) ≤ due s + K * tr.countP asks := by
  induction h with
  | nil => simp
  | @snoc m t tr a h hst ih =>
    have ih := ih fun b hb => hc b (List.mem_append_left _ hb)
    have hm : M.Reach m := by
      obtain ⟨tr₀, h₀⟩ := hs
      exact (h₀.append h).reach
    have hca := hc a (by simp)
    simp only [List.countP_append, List.countP_singleton]
    cases ha : asks a with
    | true =>
      have := hB.ask _ _ _ hm hca hst ha
      simp only [Bool.not_true, Bool.false_eq_true, if_false, if_true, Nat.mul_add, Nat.mul_one]
      omega
    | false =>
      have := hB.work _ _ _ hm hca hst ha
      simp only [Bool.not_false, Bool.false_eq_true, if_false, if_true, Nat.add_zero]
      omega

/-- Where nothing is asked all events are work. -/
theorem countP_quiet {asks : α → Bool} {tr : List α} (hq : ∀ a ∈ tr, asks a = false) :
    tr.countP asks = 0 ∧ tr.countP (fun a => !asks a) = tr.length :=
  ⟨List.countP_eq_zero.mpr fun a ha => by simp [hq a ha], List.countP_eq_length.mpr fun a ha => by simp [hq a ha]⟩

/-- Where the runs of some events are bounded, one of them cannot go on. -/
theorem exists_maximal {q : α → Prop} {s : σ} {N : Nat}
    (h : ∀ tr t, M.Steps s tr t → (∀ a ∈ tr, q a) → tr.length ≤ N) :
    ∃ tr t, M.Steps s tr t ∧ (∀ a ∈ tr, q a) ∧ ∀ a, q a → M.step t a = none := by
  by_contra hcon
  -- otherwise there is a run of every length
  have long : ∀ n, ∃ tr t, M.Steps s tr t ∧ (∀ a ∈ tr, q a) ∧ tr.length = n := by
    intro n
    induction n with
    | zero => exact ⟨[], s, .nil s, by simp, rfl⟩
    | succ n ih =>
      obtain ⟨tr, t, hs, hq, hl⟩ := ih
      by_cases hstuck : ∀ a, q a → M.step t a = none
      · exact absurd ⟨tr, t, hs, hq, hstuck⟩ hcon
      · push Not at hstuck
        obtain ⟨a, ha, hst⟩ := hstuck
        obtain ⟨t', hst⟩ := Option.ne_none_iff_exists'.mp hst
        refine ⟨tr ++ [a], t', hs.snoc hst, fun b hb => ?_, by simp [hl]⟩
        rcases List.mem_append.mp hb with hb | hb
        · exact hq b hb
        · rw [List.mem_singleton.mp hb]; exact ha
  obtain ⟨tr, t, hs, hq, hl⟩ := long (N + 1)
  have := h tr t hs hq
  omega

end Machine

end Lib
