/-
  Lib.Census — how many agents of a family are at a place. `f` gives the place of
  each agent, and `Census B f n` says that exactly `n` of them are at a place in `B`;
  the family itself may be infinite. Agents move one at a time, so the count follows
  from where the one that moves was and where it is now (`Census.move`).
-/

import Mathlib.Data.Finset.Card
import Mathlib.Logic.Function.Basic

namespace Lib

universe u v

variable {ι : Type u} {β : Type v}

/-- Exactly `n` agents are at a place in `B`. -/
def Census (B : β → Prop) (f : ι → β) (n : Nat) : Prop := ∃ W : Finset ι, (∀ i, i ∈ W ↔ B (f i)) ∧ W.card = n

namespace Census

variable {B : β → Prop} {f : ι → β} {n : Nat}

theorem none (h : ∀ i, ¬ B (f i)) : Census B f 0 := ⟨∅, fun i => by simp [h i], rfl⟩

/-- Agents that are all in `T` are no more than `T` has. -/
theorem le_card (h : Census B f n) (T : Finset ι) (hT : ∀ i, B (f i) → i ∈ T) : n ≤ T.card := by
  obtain ⟨W, hW, rfl⟩ := h
  exact Finset.card_le_card fun i hi => hT i ((hW i).mp hi)

theorem pos (h : Census B f n) {i : ι} (hi : B (f i)) : 0 < n := by
  obtain ⟨W, hW, rfl⟩ := h
  exact Finset.card_pos.mpr ⟨i, (hW i).mpr hi⟩

variable [DecidableEq ι]

/-- One agent moves: the count loses its old place and gains its new one. -/
theorem move [DecidablePred B] (h : Census B f n) (i : ι) (c : β) :
    ∃ m, Census B (Function.update f i c) m ∧
      m + (if B (f i) then 1 else 0) = n + (if B c then 1 else 0) := by
  obtain ⟨W, hW, rfl⟩ := h
  have hrest : ∀ j, j ≠ i → (j ∈ W ↔ B (Function.update f i c j)) := by
    intro j hj
    rw [Function.update_of_ne hj]
    exact hW j
  by_cases hold : B (f i)
  · have hi := (hW i).mpr hold
    have hpos := Finset.card_pos.mpr ⟨i, hi⟩
    by_cases hnew : B c
    · refine ⟨W.card, ⟨W, fun j => ?_, rfl⟩, by simp [hold, hnew]⟩
      by_cases hj : j = i
      · subst hj; simpa [hi] using hnew
      · exact hrest j hj
    · refine ⟨(W.erase i).card, ⟨W.erase i, fun j => ?_, rfl⟩, ?_⟩
      · by_cases hj : j = i
        · subst hj; simpa using hnew
        · rw [← hrest j hj]; simp [hj]
      · rw [Finset.card_erase_of_mem hi]
        simp only [hold, hnew, if_true, if_false]
        omega
  · have hi : i ∉ W := fun h => hold ((hW i).mp h)
    by_cases hnew : B c
    · refine ⟨(insert i W).card, ⟨insert i W, fun j => ?_, rfl⟩, ?_⟩
      · by_cases hj : j = i
        · subst hj; simpa using hnew
        · rw [← hrest j hj]; simp [hj]
      · rw [Finset.card_insert_of_notMem hi]
        simp [hold, hnew]
    · refine ⟨W.card, ⟨W, fun j => ?_, rfl⟩, by simp [hold, hnew]⟩
      by_cases hj : j = i
      · subst hj; simpa [hi] using hnew
      · exact hrest j hj

end Census

end Lib
