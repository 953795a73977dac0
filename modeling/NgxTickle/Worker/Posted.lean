/-
  NgxTickle.Worker.Posted — the posted queue and the pools. A Finalization is in two
  lists with different lifetimes: its event in `ngx_posted_events`, and itself in the
  cleanups of its request's pool. The invariant (`PostedOk`): an event is linked once,
  exactly while its posted bit is set, and while it is linked its Finalization is
  registered with a pool that is not freed, so that pool's destruction unlinks it.
-/

import NgxTickle.Worker.Pools

namespace NgxTickle.Worker

open NgxTickle.Task
open NgxTickle.Sched (Thread Pc Handler)

variable {A : AsyncTask} {P : Type}

structure PostedOk (w : St A P) : Prop where
  once : w.posted.Nodup
  linked : ∀ f, f ∈ w.posted ↔ ∃ x, w.fins f = some x ∧ x.posted = true
  /-- What is linked is registered. -/
  pooled : ∀ f x, w.fins f = some x → x.posted = true →
    ∃ p, w.pools x.request = some p ∧ p.life ≠ .freed ∧ .fin f ∈ p.cleanups
  /-- What a pool cleans up is of its request. -/
  owned : ∀ r p f, w.pools r = some p → .fin f ∈ p.cleanups → ∃ x, w.fins f = some x ∧ x.request = r

theorem PostedOk.fresh {w : St A P} (h : PostedOk w) {f : FinId} (hf : w.fins f = none) : f ∉ w.posted := by
  intro hm
  obtain ⟨x, hx, -⟩ := (h.linked f).mp hm
  rw [hf] at hx
  cases hx

theorem PostedOk.posted_of_mem {w : St A P} (h : PostedOk w) {f : FinId} {x : Finalization} (hm : f ∈ w.posted)
    (hx : w.fins f = some x) : x.posted = true := by
  obtain ⟨y, hy, hpo⟩ := (h.linked f).mp hm
  rw [hx] at hy
  cases hy
  exact hpo

/-- A pool's cleanups only change for those of no Finalization. -/
structure SameFins (w w' : St A P) : Prop where
  fins : w'.fins = w.fins
  posted : w'.posted = w.posted
  kept : ∀ r p, w.pools r = some p → ∃ p', w'.pools r = some p' ∧
    (p.life ≠ .freed → (∃ f, .fin f ∈ p.cleanups) → p'.life ≠ .freed) ∧ ∀ f, .fin f ∈ p.cleanups → .fin f ∈ p'.cleanups
  none : ∀ r p' f, w'.pools r = some p' → .fin f ∈ p'.cleanups → ∃ p, w.pools r = some p ∧ .fin f ∈ p.cleanups

theorem PostedOk.congr {w w' : St A P} (h : PostedOk w) (hs : SameFins w w') : PostedOk w' := by
  refine ⟨by rw [hs.posted]; exact h.once, by rw [hs.posted, hs.fins]; exact h.linked, ?_, ?_⟩
  · intro f x hx hp
    rw [hs.fins] at hx
    obtain ⟨p, hpl, hl, hm⟩ := h.pooled f x hx hp
    obtain ⟨p', hp', hl', hm'⟩ := hs.kept _ p hpl
    exact ⟨p', hp', hl' hl ⟨f, hm⟩, hm' f hm⟩
  · intro r p' f hp' hm
    rw [hs.fins]
    obtain ⟨p, hp, hm'⟩ := hs.none r p' f hp' hm
    exact h.owned r p f hp hm'

theorem SameFins.refl {w w' : St A P} (hf : w'.fins = w.fins) (hp : w'.posted = w.posted) (hl : w'.pools = w.pools) :
    SameFins w w' :=
  ⟨hf, hp, fun r p h => ⟨p, by rw [hl]; exact h, fun h _ => h, fun _ h => h⟩,
    fun r p f h hm => ⟨p, by rw [← hl]; exact h, hm⟩⟩

/-- One pool changes, in no Finalization. -/
theorem SameFins.set {w w' : St A P} {r : ReqId} {p₀ p' : Pool} (hf : w'.fins = w.fins) (hp : w'.posted = w.posted)
    (hl : w'.pools = Function.update w.pools r (some p')) (h₀ : w.pools r = some p₀)
    (hlife : p₀.life ≠ .freed → (∃ f, .fin f ∈ p₀.cleanups) → p'.life ≠ .freed)
    (hm : ∀ f, .fin f ∈ p₀.cleanups ↔ .fin f ∈ p'.cleanups) : SameFins w w' := by
  refine ⟨hf, hp, fun q p h => ?_, fun q p f h hc => ?_⟩
  · by_cases hq : q = r
    · subst hq
      rw [h₀] at h
      cases h
      exact ⟨p', by rw [hl, Function.update_self], hlife, fun f => (hm f).mp⟩
    · exact ⟨p, by rw [hl, Function.update_of_ne hq, h], fun h _ => h, fun _ h => h⟩
  · rw [hl] at h
    by_cases hq : q = r
    · subst hq
      rw [Function.update_self] at h
      cases h
      exact ⟨p₀, h₀, (hm f).mpr hc⟩
    · rw [Function.update_of_ne hq] at h
      exact ⟨p, h, hc⟩

variable [DecidableEq P]

omit [DecidableEq P] in
/-- Linking a fresh event at the tail, registered with its request's pool. -/
theorem postedOk_finalize {w : St A P} {f : FinId} {r : ReqId} {rc : Int} {p : Pool} (h : PostedOk w)
    (hp : w.pools r = some p) (hl : p.life ≠ .freed) (hf : w.fins f = none) :
    PostedOk { (w.setPool r { p with cleanups := .fin f :: p.cleanups }).setFin f ⟨true, r, rc⟩ with
      posted := w.posted ++ [f] } := by
  have hn := h.fresh hf
  refine ⟨?_, fun g => ?_, fun g x hx hpo => ?_, fun q p' g hq hm => ?_⟩
  · refine List.nodup_append.mpr ⟨h.once, List.pairwise_singleton _ f, fun a ha b hb e => ?_⟩
    rw [List.mem_singleton.mp hb] at e
    exact hn (e ▸ ha)
  · by_cases hg : g = f
    · subst hg; simp
    · simp [hg, h.linked g]
  · by_cases hg : g = f
    · subst hg
      simp at hx
      subst hx
      exact ⟨_, Function.update_self _ _ _, hl, List.mem_cons_self⟩
    · simp [hg] at hx
      obtain ⟨q, hq, hql, hqm⟩ := h.pooled g x hx hpo
      by_cases hr : x.request = r
      · rw [hr, hp] at hq
        cases hq
        rw [hr]
        exact ⟨_, Function.update_self _ _ _, hl, List.mem_cons_of_mem _ hqm⟩
      · exact ⟨q, (Function.update_of_ne hr _ _).trans hq, hql, hqm⟩
  · by_cases hr : q = r
    · subst hr
      simp at hq
      subst hq
      by_cases hg : g = f
      · subst hg; exact ⟨_, Function.update_self _ _ _, rfl⟩
      · have hm : .fin g ∈ p.cleanups := by simpa [hg] using hm
        obtain ⟨x, hx, hxr⟩ := h.owned q p g hp hm
        exact ⟨x, by simp [hg, hx], hxr⟩
    · have hq : w.pools q = some p' := by simpa [hr] using hq
      obtain ⟨x, hx, hxr⟩ := h.owned q p' g hq hm
      have hg : g ≠ f := fun e => by rw [e, hf] at hx; cases hx
      exact ⟨x, by simp [hg, hx], hxr⟩

omit [DecidableEq P] in
/-- Unlinking the event of `f`, wherever its Finalization is registered. -/
theorem postedOk_unlink {w w' : St A P} {f : FinId} {x : Finalization} (h : PostedOk w) (hx : w.fins f = some x)
    (hf : w'.fins = Function.update w.fins f (some { x with posted := false }))
    (hp : w'.posted = w.posted.erase f)
    (hk : ∀ g r p, g ≠ f → w.pools r = some p → p.life ≠ .freed → .fin g ∈ p.cleanups →
      ∃ p', w'.pools r = some p' ∧ p'.life ≠ .freed ∧ .fin g ∈ p'.cleanups)
    (ho : ∀ g r p', w'.pools r = some p' → .fin g ∈ p'.cleanups → ∃ p, w.pools r = some p ∧ .fin g ∈ p.cleanups) :
    PostedOk w' := by
  refine ⟨by rw [hp]; exact h.once.erase f, fun g => ?_, fun g y hy hpo => ?_, fun r p' g hr hm => ?_⟩
  · rw [hp, h.once.mem_erase_iff, hf]
    by_cases hg : g = f
    · subst hg; simp
    · simp [hg, h.linked g]
  · rw [hf] at hy
    by_cases hg : g = f
    · subst hg
      simp at hy
      subst hy
      cases hpo
    · simp [hg] at hy
      obtain ⟨p, hpp, hl, hm⟩ := h.pooled g y hy hpo
      exact hk g _ p hg hpp hl hm
  · obtain ⟨p, hpp, hm'⟩ := ho g r p' hr hm
    obtain ⟨y, hy, hyr⟩ := h.owned r p g hpp hm'
    rw [hf]
    by_cases hg : g = f
    · subst hg
      rw [hx] at hy
      cases hy
      exact ⟨_, Function.update_self _ _ _, hyr⟩
    · exact ⟨y, by simp [hg, hy], hyr⟩

theorem postedOk_step {w w' : St A P} {a : Act P} (h : PostedOk w) (hst : Step w a w') : PostedOk w' := by
  cases hst with
  | newRequest r c _ h₀ =>
    refine h.congr ⟨rfl, rfl, fun q p hq => ?_, fun q p' f hq hm => ?_⟩
    · have hr : q ≠ r := fun e => by rw [e, h₀] at hq; cases hq
      exact ⟨p, by simp [hr, hq], fun h _ => h, fun _ h => h⟩
    · by_cases hr : q = r
      · subst hr; simp at hq; subst hq; cases hm
      · exact ⟨p', by simpa [hr] using hq, hm⟩
  | requestSpawn r k p s h₀ _ _ _ _ => exact h.congr (SameFins.set rfl rfl rfl h₀ (fun h _ => h) (by simp))
  | addCleanup r p h₀ _ _ => exact h.congr (SameFins.set rfl rfl rfl h₀ (fun h _ => h) (by simp))
  | destroyPool r p h₀ _ _ => exact h.congr (SameFins.set rfl rfl rfl h₀ (fun _ _ => by simp) (by simp))
  | cleanupTask r k handed p cs rest c s _ _ h₀ hcs _ _ _ _ =>
    exact h.congr (SameFins.set rfl rfl rfl h₀ (fun h _ => h) (by simp [hcs]))
  | cleanupTaken r k p cs rest c _ _ h₀ hcs _ _ =>
    exact h.congr (SameFins.set rfl rfl rfl h₀ (fun h _ => h) (by simp [hcs]))
  | cleanupOther r p cs rest _ _ h₀ hcs =>
    exact h.congr (SameFins.set rfl rfl rfl h₀ (fun h _ => h) (by simp [hcs]))
  | freePool r p rest _ _ h₀ hcs =>
    exact h.congr (SameFins.set rfl rfl rfl h₀ (fun _ ⟨f, hm⟩ => by rw [hcs] at hm; cases hm) (by simp))
  | cleanupFin r f p cs rest x _ _ h₀ hcs hx =>
    refine postedOk_unlink h hx rfl ?_ (fun g q p' hg hq hl hm => ?_) (fun g q p' hq hm => ?_)
    · cases hpo : x.posted with
      | true => simp
      | false =>
        have hn : f ∉ w.posted := fun hm => by
          rw [h.posted_of_mem hm hx] at hpo
          cases hpo
        simp [List.erase_of_not_mem hn]
    · by_cases hr : q = r
      · subst hr
        rw [h₀] at hq
        cases hq
        exact ⟨_, Function.update_self _ _ _, hl, by simpa [hcs, hg] using hm⟩
      · exact ⟨p', by simp [hr, hq], hl, hm⟩
    · by_cases hr : q = r
      · subst hr
        simp at hq
        subst hq
        exact ⟨p, h₀, by rw [hcs]; exact List.mem_cons_of_mem _ hm⟩
      · exact ⟨p', by simpa [hr] using hq, hm⟩
  | finalize f r rc p h₀ _ hl hf => exact postedOk_finalize h h₀ hl hf
  | popPosted f rest x hpo hx _ _ _ =>
    refine postedOk_unlink h hx rfl ?_ (fun g q p' _ hq hl hm => ⟨p', hq, hl, hm⟩) (fun g q p' hq hm => ⟨p', hq, hm⟩)
    simp [hpo]
  | _ => exact h.congr (SameFins.refl rfl rfl rfl)

theorem postedOk_invariant : (machine A P).Invariant PostedOk := by
  constructor
  · intro w hw
    obtain ⟨s, -, rfl⟩ := hw
    exact ⟨List.nodup_nil, fun f => by simp [St.start], fun f x hx => (nomatch hx), fun r p f hp => (nomatch hp)⟩
  · intro w a w' h hst
    exact postedOk_step h (step_inv hst)

/-! ## A Finalization keeps what it was made with -/

theorem fin_step {w w' : St A P} {a : Act P} {f : FinId} {x : Finalization} (h : Step w a w') (hx : w.fins f = some x) :
    ∃ x', w'.fins f = some x' ∧ x'.request = x.request ∧ x'.rc = x.rc := by
  have same : w'.fins f = w.fins f → ∃ x', w'.fins f = some x' ∧ x'.request = x.request ∧ x'.rc = x.rc :=
    fun h => ⟨x, h.trans hx, rfl, rfl⟩
  have set : ∀ {g : FinId} {y y' : Finalization}, w'.fins = Function.update w.fins g (some y') → w.fins g = some y →
      y'.request = y.request → y'.rc = y.rc → ∃ x', w'.fins f = some x' ∧ x'.request = x.request ∧ x'.rc = x.rc := by
    intro g y y' hw hy h1 h2
    by_cases hg : f = g
    · subst hg
      rw [hx] at hy
      cases hy
      exact ⟨y', by rw [hw, Function.update_self], h1, h2⟩
    · exact same (by rw [hw, Function.update_of_ne hg])
  cases h with
  | cleanupFin r g p cs rest y _ _ _ _ hy => exact set rfl hy rfl rfl
  | finalize g r rc p _ _ _ hy =>
    have hg : f ≠ g := fun e => by rw [e, hy] at hx; cases hx
    exact same (by simp [hg])
  | popPosted g rest y _ hy _ _ _ => exact set rfl hy rfl rfl
  | _ => exact same rfl

theorem fin_born {w w' : St A P} {a : Act P} {f : FinId} {x : Finalization} (h : Step w a w') (h₀ : w.fins f = none)
    (hx : w'.fins f = some x) : a = .finalize f x.request x.rc := by
  have same : w'.fins f = w.fins f → a = .finalize f x.request x.rc := by
    intro h
    rw [h, h₀] at hx
    cases hx
  have other : ∀ {g : FinId} {y y' : Finalization}, w'.fins = Function.update w.fins g (some y') → w.fins g = some y →
      a = .finalize f x.request x.rc := by
    intro g y y' hw hy
    have hg : f ≠ g := fun e => by rw [e, hy] at h₀; cases h₀
    exact same (by rw [hw, Function.update_of_ne hg])
  cases h with
  | cleanupFin r g p cs rest y _ _ _ _ hy => exact other rfl hy
  | finalize g r rc p _ _ _ hy =>
    by_cases hg : f = g
    · subst hg; simp at hx; subst hx; rfl
    · exact same (by simp [hg])
  | popPosted g rest y _ hy _ _ _ => exact other rfl hy
  | _ => exact same rfl

/-- A Finalization holds the request and the rc of the call that made it. -/
theorem fin_run {tr : List (Act P)} {w : St A P} (h : (machine A P).Run tr w) :
    ∀ f x, w.fins f = some x → .finalize f x.request x.rc ∈ tr := by
  refine Lib.Machine.run_induction (J := fun tr w => ∀ f x, w.fins f = some x → .finalize f x.request x.rc ∈ tr) ?_ ?_ h
  · intro w hw f x hx
    obtain ⟨s, -, rfl⟩ := hw
    cases hx
  · intro tr w a w' _ ih hst f x hx
    rw [List.mem_append]
    cases hf : w.fins f with
    | none => exact Or.inr (by simp [fin_born (step_inv hst) hf hx])
    | some y =>
      obtain ⟨x', hx', h1, h2⟩ := fin_step (step_inv hst) hf
      rw [hx] at hx'
      cases hx'
      rw [h1, h2]
      exact Or.inl (ih f y hf)

end NgxTickle.Worker
