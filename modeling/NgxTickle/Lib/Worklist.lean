/-
  Lib.Worklist — a FIFO list of work where each item, when it is done, appends what a
  function of the history says (`beh`, of the items done so far, the newest included).
  `after n` is the state once `n` items are done, or all of them.

  The history only grows (`hist_mono`), so the histories of two instants agree on their
  common length (`hist_comparable`); once nothing is left nothing changes
  (`after_done`), so all ends are one (`done_unique`).

  Items that append themselves and nothing else of their kind take turns: none that is
  still queued has been done less than once fewer than another (`Turns.fair`).
-/

import Mathlib.Data.List.Infix

namespace Lib

universe u

structure Worklist (α : Type u) where
  hist : List α
  queue : List α

namespace Worklist

variable {α : Type u} (beh : List α → List α)

/-- Do the item at the head of the queue. -/
def next (w : Worklist α) : Worklist α :=
  match w.queue with
  | [] => w
  | x :: rest => ⟨w.hist ++ [x], rest ++ beh (w.hist ++ [x])⟩

def after (w : Worklist α) : Nat → Worklist α
  | 0 => w
  | n + 1 => next beh (after w n)

theorem next_nil {w : Worklist α} (h : w.queue = []) : next beh w = w := by
  unfold next
  rw [h]

theorem next_cons {w : Worklist α} {x : α} {rest : List α} (h : w.queue = x :: rest) :
    next beh w = ⟨w.hist ++ [x], rest ++ beh (w.hist ++ [x])⟩ := by
  unfold next
  rw [h]

theorem next_hist (w : Worklist α) : w.hist <+: (next beh w).hist := by
  cases h : w.queue with
  | nil => rw [next_nil beh h]
  | cons x rest => rw [next_cons beh h]; exact List.prefix_append _ _

theorem hist_mono (w : Worklist α) {m n : Nat} (h : m ≤ n) : (after beh w m).hist <+: (after beh w n).hist := by
  induction h with
  | refl => exact List.prefix_refl _
  | step _ ih => exact ih.trans (next_hist beh _)

theorem hist_comparable (w : Worklist α) (m n : Nat) :
    (after beh w m).hist <+: (after beh w n).hist ∨ (after beh w n).hist <+: (after beh w m).hist := by
  rcases Nat.le_total m n with h | h
  · exact Or.inl (hist_mono beh w h)
  · exact Or.inr (hist_mono beh w h)

theorem after_done {w : Worklist α} {m n : Nat} (hd : (after beh w m).queue = []) (h : m ≤ n) :
    after beh w n = after beh w m := by
  induction h with
  | refl => rfl
  | step _ ih =>
    rw [after, ih]
    exact next_nil beh hd

theorem done_unique {w : Worklist α} {m n : Nat} (hm : (after beh w m).queue = []) (hn : (after beh w n).queue = []) :
    after beh w m = after beh w n := by
  rcases Nat.le_total m n with h | h
  · exact (after_done beh hm h).symm
  · exact after_done beh hn h

/-- No history is longer than that of a state with nothing left. -/
theorem hist_le_done {w : Worklist α} {m : Nat} (hd : (after beh w m).queue = []) (n : Nat) :
    (after beh w n).hist.length ≤ (after beh w m).hist.length := by
  rcases Nat.le_total m n with h | h
  · rw [after_done beh hd h]
  · exact (hist_mono beh w h).length_le

/-! ## Items that append themselves -/

section

variable [DecidableEq α] (mine : α → Bool) (again : α → Nat → Bool)

/-- Of those that are `mine`, an item done `c` times appends itself if `again x c`, and
    nothing else appends any. -/
def TakesTurns : Prop :=
  ∀ hist x, (beh (hist ++ [x])).filter mine =
    if mine x = true ∧ again x ((hist ++ [x]).count x) = true then [x] else []

/-- The queue is what is left of a round, then those that have had their turn in it. -/
structure Turns (w : Worklist α) : Prop where
  nodup : (w.queue.filter mine).Nodup
  round : ∃ m rest next, w.queue.filter mine = rest ++ next ∧ (∀ x ∈ rest, w.hist.count x = m) ∧
    (∀ x ∈ next, w.hist.count x = m + 1) ∧ ∀ x, mine x = true → w.hist.count x ≤ m + 1

variable {beh mine again}

theorem turns_start {queue : List α} (h : (queue.filter mine).Nodup) : Turns mine ⟨[], queue⟩ :=
  ⟨h, 0, queue.filter mine, [], by simp, by simp, by simp, by simp⟩

theorem count_snoc_ne {hist : List α} {x y : α} (h : y ≠ x) : (hist ++ [x]).count y = hist.count y := by
  simp [List.count_append, Ne.symm h]

theorem count_snoc_self (hist : List α) (x : α) : (hist ++ [x]).count x = hist.count x + 1 := by
  simp [List.count_append]

/-- Where the round begins anew, nobody has had a turn. -/
theorem Turns.first {w : Worklist α} (h : Turns mine w) {x : α} {xs : List α} (hq : w.queue.filter mine = x :: xs) :
    ∃ m rest next, xs = rest ++ next ∧ w.hist.count x = m ∧ (∀ y ∈ rest, w.hist.count y = m) ∧
      (∀ y ∈ next, w.hist.count y = m + 1) ∧ ∀ y, mine y = true → w.hist.count y ≤ m + 1 := by
  obtain ⟨m, rest, next, he, h1, h2, h3⟩ := h.round
  rw [hq] at he
  cases rest with
  | cons y rest =>
    cases he
    exact ⟨m, rest, next, rfl, h1 x (by simp), fun y hy => h1 y (by simp [hy]), h2, h3⟩
  | nil =>
    rw [List.nil_append] at he
    subst he
    exact ⟨m + 1, xs, [], by simp, h2 x (by simp), fun y hy => h2 y (by simp [hy]), by simp,
      fun y hy => Nat.le_succ_of_le (h3 y hy)⟩

theorem turns_next (hb : TakesTurns beh mine again) {w : Worklist α} (h : Turns mine w) : Turns mine (next beh w) := by
  cases hq : w.queue with
  | nil => rw [next_nil beh hq]; exact h
  | cons x rest =>
    rw [next_cons beh hq]
    have hbx := hb w.hist x
    by_cases hx : mine x = true
    · have hf : w.queue.filter mine = x :: rest.filter mine := by simp [hq, hx]
      obtain ⟨m, l, n, he, h0, h1, h2, h3⟩ := h.first hf
      have hnd := h.nodup
      rw [hf, List.nodup_cons] at hnd
      obtain ⟨hnot, hnd⟩ := hnd
      have ne : ∀ y, y ∈ l ∨ y ∈ n → y ≠ x := by
        rintro y hy rfl
        rw [he, List.mem_append] at hnot
        exact hnot hy
      have hc : ∀ y, mine y = true → (w.hist ++ [x]).count y ≤ m + 1 := by
        intro y hy
        by_cases e : y = x
        · rw [e, count_snoc_self, h0]
        · rw [count_snoc_ne e]
          exact h3 y hy
      have h1' : ∀ y ∈ l, (w.hist ++ [x]).count y = m := fun y hy => by
        rw [count_snoc_ne (ne y (Or.inl hy))]
        exact h1 y hy
      have h2' : ∀ y ∈ n, (w.hist ++ [x]).count y = m + 1 := fun y hy => by
        rw [count_snoc_ne (ne y (Or.inr hy))]
        exact h2 y hy
      by_cases ha : again x ((w.hist ++ [x]).count x) = true
      · rw [if_pos ⟨hx, ha⟩] at hbx
        refine ⟨?_, m, l, n ++ [x], ?_, h1', ?_, hc⟩
        · simp only [List.filter_append, hbx]
          exact List.nodup_append.mpr ⟨hnd, by simp, by
            rintro a ha b hb rfl
            rw [List.mem_singleton] at hb
            exact hnot (hb ▸ ha)⟩
        · simp only [List.filter_append, hbx, he, List.append_assoc]
        · intro y hy
          rcases List.mem_append.mp hy with hy | hy
          · exact h2' y hy
          · rw [List.mem_singleton.mp hy, count_snoc_self, h0]
      · rw [if_neg fun h => ha h.2] at hbx
        refine ⟨?_, m, l, n, ?_, h1', h2', hc⟩
        · simpa only [List.filter_append, hbx, List.append_nil] using hnd
        · simp only [List.filter_append, hbx, List.append_nil, he]
    · rw [if_neg fun h => hx h.1] at hbx
      have hf : (rest ++ beh (w.hist ++ [x])).filter mine = w.queue.filter mine := by
        simp [List.filter_append, hbx, hq, hx]
      have hc : ∀ y, mine y = true → (w.hist ++ [x]).count y = w.hist.count y := by
        intro y hy
        exact count_snoc_ne fun e => hx (e ▸ hy)
      have mine_ : ∀ {y}, y ∈ w.queue.filter mine → mine y = true := fun hy => (List.mem_filter.mp hy).2
      obtain ⟨m, l, n, he, h1, h2, h3⟩ := h.round
      refine ⟨by simpa only [hf] using h.nodup, m, l, n, hf.trans he, fun y hy => ?_, fun y hy => ?_, fun y hy => ?_⟩
      · rw [hc y (mine_ (by rw [he]; simp [hy]))]
        exact h1 y hy
      · rw [hc y (mine_ (by rw [he]; simp [hy]))]
        exact h2 y hy
      · rw [hc y hy]
        exact h3 y hy

theorem turns_after (hb : TakesTurns beh mine again) {queue : List α} (h : (queue.filter mine).Nodup) (n : Nat) :
    Turns mine (after beh ⟨[], queue⟩ n) := by
  induction n with
  | zero => exact turns_start h
  | succ n ih => exact turns_next hb ih

theorem Turns.fair {w : Worklist α} (h : Turns mine w) {x y : α} (hx : x ∈ w.queue) (hmx : mine x = true)
    (hmy : mine y = true) : w.hist.count y ≤ w.hist.count x + 1 := by
  obtain ⟨m, l, n, he, h1, h2, h3⟩ := h.round
  have hm : x ∈ l ++ n := he ▸ List.mem_filter.mpr ⟨hx, hmx⟩
  have := h3 y hmy
  rcases List.mem_append.mp hm with hx | hx
  · rw [h1 x hx]
    exact this
  · rw [h2 x hx]
    omega

/-- Items of the kind all come from the queue at the start. -/
theorem mine_after (hb : TakesTurns beh mine again) {queue : List α} {x : α} (hm : mine x = true) (n : Nat)
    (h : x ∈ (after beh ⟨[], queue⟩ n).hist ∨ x ∈ (after beh ⟨[], queue⟩ n).queue) : x ∈ queue := by
  induction n with
  | zero => exact h.resolve_left (by simp [after])
  | succ n ih =>
    rw [after] at h
    generalize after beh ⟨[], queue⟩ n = w at ih h
    cases hq : w.queue with
    | nil => rw [next_nil beh hq] at h; exact ih h
    | cons y rest =>
      rw [next_cons beh hq] at h
      have hy : x = y → x ∈ queue := fun e => ih (Or.inr (by rw [hq, e]; simp))
      rcases h with h | h
      · rcases List.mem_append.mp h with h | h
        · exact ih (Or.inl h)
        · exact hy (List.mem_singleton.mp h)
      · rcases List.mem_append.mp h with h | h
        · exact ih (Or.inr (by rw [hq]; exact List.mem_cons_of_mem _ h))
        · have hf := List.mem_filter.mpr ⟨h, hm⟩
          rw [hb w.hist y] at hf
          split at hf
          · exact hy (List.mem_singleton.mp hf)
          · cases hf

/-- Until it is done for good an item stays queued. -/
theorem queued_after (hb : TakesTurns beh mine again) {queue : List α} (h : (queue.filter mine).Nodup) {x : α}
    (hx : x ∈ queue) (hm : mine x = true) (n : Nat) :
    x ∈ (after beh ⟨[], queue⟩ n).queue ↔ (after beh ⟨[], queue⟩ n).hist.count x = 0 ∨
      again x ((after beh ⟨[], queue⟩ n).hist.count x) = true := by
  induction n with
  | zero => simp [after, hx]
  | succ n ih =>
    have ht := turns_after hb h n
    rw [after]
    generalize after beh ⟨[], queue⟩ n = w at ih ht
    cases hq : w.queue with
    | nil => rw [next_nil beh hq]; exact ih
    | cons y rest =>
      rw [next_cons beh hq]
      have hby := hb w.hist y
      have mem : ∀ {l : List α}, x ∈ l ↔ x ∈ l.filter mine := fun {l} => by simp [List.mem_filter, hm]
      show x ∈ rest ++ beh (w.hist ++ [y]) ↔ _
      rw [List.mem_append, mem (l := beh (w.hist ++ [y])), hby]
      by_cases e : x = y
      · subst e
        have hnot : x ∉ rest := by
          have hnd := ht.nodup
          rw [hq, List.filter_cons_of_pos hm, List.nodup_cons] at hnd
          exact fun hr => hnd.1 (mem.mp hr)
        rw [count_snoc_self]
        by_cases ha : again x (w.hist.count x + 1) = true
        · simp [hm, ha]
        · simp [hnot, ha]
      · rw [count_snoc_ne e]
        have hr : x ∈ rest ↔ x ∈ w.queue := by rw [hq, List.mem_cons]; simp [e]
        rw [← ih, ← hr]
        simp [e]

/-- An item that stops after `k` more times is done `k + 1` times at most. -/
theorem count_after_le (hb : TakesTurns beh mine again) {queue : List α} (h : (queue.filter mine).Nodup) {x : α}
    (hx : x ∈ queue) (hm : mine x = true) {k : Nat} (hk : ∀ c, again x c = true → c ≤ k) (n : Nat) :
    (after beh ⟨[], queue⟩ n).hist.count x ≤ k + 1 := by
  induction n with
  | zero => simp [after]
  | succ n ih =>
    have hq := queued_after hb h hx hm n
    rw [after]
    generalize after beh ⟨[], queue⟩ n = w at ih hq
    cases hw : w.queue with
    | nil => rw [next_nil beh hw]; exact ih
    | cons y rest =>
      rw [next_cons beh hw]
      by_cases e : x = y
      · subst e
        rw [count_snoc_self]
        rcases hq.mp (by rw [hw]; simp) with h0 | ha
        · omega
        · have := hk _ ha
          omega
      · rw [count_snoc_ne e]
        exact ih

end

end Worklist

end Lib
