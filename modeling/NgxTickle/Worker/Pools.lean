/-
  NgxTickle.Worker.Pools — the life of a request's pool: made live, destroyed once by
  one `ngx_destroy_pool`, and freed when that returns. A pool is being destroyed exactly
  while the frame of its destruction is on the main thread's stack (`dying_invariant`).
-/

import NgxTickle.Worker.Stack

namespace NgxTickle.Worker

open NgxTickle.Task
open NgxTickle.Sched (Thread Pc Handler)

variable {A : AsyncTask} {P : Type}

/-- `ngx_destroy_pool` is at work on `r`. -/
def St.dying (w : St A P) (r : ReqId) : Bool :=
  match w.pools r with
  | some p => p.life == .destroying
  | none => false

/-- The calls of `ngx_destroy_pool` on `r` that have not returned. -/
def St.destroys (w : St A P) (r : ReqId) : Nat := (w.cont .main).count (.destroy r)

/-- A pool is being destroyed by one call, and no call is at work on another. -/
def Dying (w : St A P) : Prop := ∀ r, w.destroys r = if w.dying r then 1 else 0

theorem St.destroys_pos {w : St A P} {r : ReqId} : 0 < w.destroys r ↔ .destroy r ∈ w.cont .main := List.count_pos_iff

variable [DecidableEq P]

/-! ## One step -/

omit [DecidableEq P] in
theorem pool_set {w : St A P} {r r' : ReqId} {p p₀ p' : Pool} (h₀ : w.pools r' = some p₀)
    (hc : p'.connection = p₀.connection) (hl : p'.life = p₀.life) (hp : w.pools r = some p) :
    ∃ q, Function.update w.pools r' (some p') r = some q ∧ q.connection = p.connection ∧ q.life = p.life := by
  by_cases hr : r = r'
  · subst hr
    rw [hp] at h₀
    cases h₀
    exact ⟨p', Function.update_self _ _ _, hc, hl⟩
  · exact ⟨p, by rw [Function.update_of_ne hr, hp], rfl, rfl⟩

/-- A pool stays itself; it is destroyed by `ngx_destroy_pool` only. -/
theorem pool_step {w w' : St A P} {a : Act P} {r : ReqId} {p : Pool} (h : Step w a w') (hp : w.pools r = some p) :
    ∃ p', w'.pools r = some p' ∧ p'.connection = p.connection ∧
      (p'.life = p.life ∨ a = .destroyPool r ∧ p.life = .live ∧ p'.life = .destroying ∨
        a = .freePool r ∧ .destroy r ∈ w.cont .main ∧ p'.life = .freed) := by
  have same : w'.pools r = w.pools r → ∃ p', w'.pools r = some p' ∧ p'.connection = p.connection ∧
      (p'.life = p.life ∨ a = .destroyPool r ∧ p.life = .live ∧ p'.life = .destroying ∨
        a = .freePool r ∧ .destroy r ∈ w.cont .main ∧ p'.life = .freed) :=
    fun h => ⟨p, h.trans hp, rfl, Or.inl rfl⟩
  have set : ∀ {r' : ReqId} {p₀ p' : Pool}, w'.pools = Function.update w.pools r' (some p') → w.pools r' = some p₀ →
      p'.connection = p₀.connection → p'.life = p₀.life → ∃ p', w'.pools r = some p' ∧ p'.connection = p.connection ∧
      (p'.life = p.life ∨ a = .destroyPool r ∧ p.life = .live ∧ p'.life = .destroying ∨
        a = .freePool r ∧ .destroy r ∈ w.cont .main ∧ p'.life = .freed) := by
    intro r' p₀ p' hw h₀ hc hl
    obtain ⟨q, hq, hqc, hql⟩ := pool_set h₀ hc hl hp
    exact ⟨q, by rw [hw]; exact hq, hqc, Or.inl hql⟩
  cases h with
  | newRequest r' c _ h₀ =>
    have hr : r ≠ r' := fun h => by rw [h, h₀] at hp; cases hp
    exact same (by simp [hr])
  | requestSpawn r' k p₀ s h₀ _ _ _ _ => exact set rfl h₀ rfl rfl
  | addCleanup r' p₀ h₀ _ _ => exact set rfl h₀ rfl rfl
  | destroyPool r' p₀ h₀ _ hl =>
    by_cases hr : r = r'
    · subst hr
      rw [hp] at h₀
      cases h₀
      exact ⟨_, Function.update_self _ _ _, rfl, Or.inr (Or.inl ⟨rfl, hl, rfl⟩)⟩
    · exact same (by simp [hr])
  | cleanupTask r' k handed p₀ cs rest c s _ _ h₀ _ _ _ _ _ => exact set rfl h₀ rfl rfl
  | cleanupTaken r' k p₀ cs rest c _ _ h₀ _ _ _ => exact set rfl h₀ rfl rfl
  | cleanupFin r' f p₀ cs rest x _ _ h₀ _ _ => exact set rfl h₀ rfl rfl
  | cleanupOther r' p₀ cs rest _ _ h₀ _ => exact set rfl h₀ rfl rfl
  | freePool r' p₀ rest hf _ h₀ _ =>
    by_cases hr : r = r'
    · subst hr
      rw [hp] at h₀
      cases h₀
      exact ⟨_, Function.update_self _ _ _, rfl, Or.inr (Or.inr ⟨rfl, by rw [hf]; exact List.mem_cons_self, rfl⟩)⟩
    · exact same (by simp [hr])
  | finalize f r' rc p₀ h₀ _ _ _ => exact set rfl h₀ rfl rfl
  | _ => exact same rfl

/-- A pool is made live and empty, with its request. -/
theorem pool_born {w w' : St A P} {a : Act P} {r : ReqId} {p : Pool} (h : Step w a w') (h₀ : w.pools r = none)
    (hp : w'.pools r = some p) : (∃ c, a = .newRequest r c) ∧ p.life = .live ∧ p.cleanups = [] := by
  have same : w'.pools r = w.pools r → (∃ c, a = .newRequest r c) ∧ p.life = .live ∧ p.cleanups = [] := by
    intro h
    rw [h, h₀] at hp
    cases hp
  have other : ∀ {r' : ReqId} {q q' : Pool}, w'.pools = Function.update w.pools r' (some q') → w.pools r' = some q →
      (∃ c, a = .newRequest r c) ∧ p.life = .live ∧ p.cleanups = [] := by
    intro r' q q' hw hq
    have hr : r ≠ r' := fun h => by rw [h, hq] at h₀; cases h₀
    exact same (by rw [hw, Function.update_of_ne hr])
  cases h with
  | newRequest r' c _ _ =>
    by_cases hr : r = r'
    · subst hr; simp at hp; subst hp; exact ⟨⟨c, rfl⟩, rfl, rfl⟩
    · exact same (by simp [hr])
  | requestSpawn r' k p₀ s hq _ _ _ _ => exact other rfl hq
  | addCleanup r' p₀ hq _ _ => exact other rfl hq
  | destroyPool r' p₀ hq _ _ => exact other rfl hq
  | cleanupTask r' k handed p₀ cs rest c s _ _ hq _ _ _ _ _ => exact other rfl hq
  | cleanupTaken r' k p₀ cs rest c _ _ hq _ _ _ => exact other rfl hq
  | cleanupFin r' f p₀ cs rest x _ _ hq _ _ => exact other rfl hq
  | cleanupOther r' p₀ cs rest _ _ hq _ => exact other rfl hq
  | freePool r' p₀ rest _ _ hq _ => exact other rfl hq
  | finalize f r' rc p₀ hq _ _ _ => exact other rfl hq
  | _ => exact same rfl

/-- `ngx_destroy_pool` is called and returns; every other act leaves the calls. -/
theorem destroys_step {w w' : St A P} {a : Act P} (h : Step w a w') (r : ReqId) :
    (a = .destroyPool r → w'.destroys r = w.destroys r + 1) ∧ (a = .freePool r → w'.destroys r + 1 = w.destroys r) ∧
      (a ≠ .destroyPool r → a ≠ .freePool r → w'.destroys r = w.destroys r) := by
  -- an act on no pool, or on another
  have same : w'.destroys r = w.destroys r → a ≠ .destroyPool r → a ≠ .freePool r →
      (a = .destroyPool r → w'.destroys r = w.destroys r + 1) ∧
      (a = .freePool r → w'.destroys r + 1 = w.destroys r) ∧
      (a ≠ .destroyPool r → a ≠ .freePool r → w'.destroys r = w.destroys r) :=
    fun h h1 h2 => ⟨fun h => absurd h h1, fun h => absurd h h2, fun _ _ => h⟩
  cases h with
  | core e s _ _ _ => exact same rfl (by simp) (by simp)
  | runPoll k c s _ _ _ => exact same (by simp [St.destroys]) (by simp) (by simp)
  | runDrop k c s _ _ _ => exact same (by simp [St.destroys]) (by simp) (by simp)
  | pending k again c rest s _ hf _ _ _ _ => exact same (by simp [St.destroys, hf]) (by simp) (by simp)
  | pendingClosed k c rest _ hf _ _ => exact same (by simp [St.destroys, hf]) (by simp) (by simp)
  | ready k rest hf _ => exact same (by simp [St.destroys, hf]) (by simp) (by simp)
  | dropDone k why c rest _ hf _ => exact same (by simp [St.destroys, hf]) (by simp) (by simp)
  | glueDone t rest hf _ =>
    cases t with
    | main => exact same (by simp [St.destroys, hf]) (by simp) (by simp)
    | other p => exact same (by simp [St.destroys]) (by simp) (by simp)
  | op t k o handed c h s _ _ _ _ _ _ =>
    cases t with
    | main => exact same (by simp [St.destroys]) (by simp) (by simp)
    | other p => exact same (by simp [St.destroys]) (by simp) (by simp)
  | requestRefused r' k p s _ _ _ _ _ => exact same (by simp [St.destroys]) (by simp) (by simp)
  | destroyPool r' p _ _ _ =>
    by_cases hr : r' = r
    · subst hr
      refine ⟨fun _ => by simp [St.destroys], fun h => by simp at h, fun h => absurd rfl h⟩
    · exact same (by simp [St.destroys, hr]) (by simpa using hr) (by simp)
  | cleanupTask r' k handed p cs rest c s _ _ _ _ _ _ _ _ => exact same (by simp [St.destroys]) (by simp) (by simp)
  | cleanupOther r' p cs rest _ _ _ _ => exact same (by simp [St.destroys]) (by simp) (by simp)
  | freePool r' p rest hf _ _ _ =>
    by_cases hr : r' = r
    · subst hr
      refine ⟨fun h => by simp at h, fun _ => by simp [St.destroys, hf], fun _ h => absurd rfl h⟩
    · exact same (by simp [St.destroys, hf, hr]) (by simp) (by simpa using hr)
  | popPosted f rest x _ _ hc _ _ => exact same (by simp [St.destroys, hc]) (by simp) (by simp)
  | fini f b b' rest hf _ _ => exact same (by simp [St.destroys, hf]) (by simp) (by simp)
  | finiDone f c rest hf _ => exact same (by simp [St.destroys, hf]) (by simp) (by simp)
  | _ => exact same rfl (by simp) (by simp)

/-! ## Every run -/

omit [DecidableEq P] in
theorem Dying.of_frame {w : St A P} {r : ReqId} (h : Dying w) (hf : .destroy r ∈ w.cont .main) : w.dying r = true := by
  have hpos : 0 < w.destroys r := St.destroys_pos.mpr hf
  have hr := h r
  by_cases hd : w.dying r = true
  · exact hd
  · rw [if_neg hd] at hr; omega

theorem dying_step {w w' : St A P} {a : Act P} (h : Dying w) (hst : Step w a w') : Dying w' := by
  intro r
  obtain ⟨h1, h2, h3⟩ := destroys_step hst r
  have hr := h r
  cases hp : w.pools r with
  | none =>
    -- there is no pool to destroy or free, only one to make
    have hd : w.dying r = false := by simp [St.dying, hp]
    have hd' : w'.dying r = false := by
      cases hp' : w'.pools r with
      | none => simp [St.dying, hp']
      | some p' => simp [St.dying, hp', (pool_born hst hp hp').2.1]
    rw [hd] at hr
    have hne : a ≠ .destroyPool r ∧ a ≠ .freePool r := by
      refine ⟨fun ha => ?_, fun ha => ?_⟩
      · subst ha
        cases hst with
        | destroyPool _ p h₀ _ _ => rw [hp] at h₀; cases h₀
      · subst ha
        cases hst with
        | freePool _ p rest _ _ h₀ _ => rw [hp] at h₀; cases h₀
    rw [h3 hne.1 hne.2, hr, hd']
  | some p =>
    obtain ⟨p', hp', -, hl | ⟨rfl, hl, hl'⟩ | ⟨rfl, hf, hl'⟩⟩ := pool_step hst hp
    · have hd : w'.dying r = w.dying r := by simp [St.dying, hp, hp', hl]
      have hne : a ≠ .destroyPool r ∧ a ≠ .freePool r := by
        refine ⟨fun ha => ?_, fun ha => ?_⟩
        · subst ha
          cases hst with
          | destroyPool _ q h₀ _ hq =>
            rw [hp] at h₀
            cases h₀
            simp at hp'
            subst hp'
            rw [hq] at hl
            cases hl
        · subst ha
          cases hst with
          | freePool _ q rest hf _ h₀ _ =>
            rw [hp] at h₀
            cases h₀
            simp at hp'
            subst hp'
            -- a pool whose destruction is on the stack is not freed yet
            have hdy := h.of_frame (r := r) (by rw [hf]; exact List.mem_cons_self)
            simp [St.dying, hp] at hdy
            rw [hdy] at hl
            cases hl
      rw [h3 hne.1 hne.2, hr, hd]
    · rw [h1 rfl, hr]
      simp [St.dying, hp, hp', hl, hl']
    · have hdy := h.of_frame hf
      have := h2 rfl
      rw [hdy] at hr
      simp [St.dying, hp', hl'] at hr ⊢
      omega

theorem dying_invariant : (machine A P).Invariant Dying := by
  constructor
  · intro w hw r
    obtain ⟨s, -, rfl⟩ := hw
    rfl
  · intro w a w' h hst
    exact dying_step h (step_inv hst)

end NgxTickle.Worker
