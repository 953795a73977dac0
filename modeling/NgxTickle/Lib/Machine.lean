/-
  Lib.Machine — machines given by a partial step function: `step s a` is what event
  `a` does in state `s`, `none` where it is not enabled. Every choice of the
  environment (which thread moves, what it asks for) is in the event, so a run is its
  list of events.

  `Steps` is a run between two states and `Run` one from an initial state, both
  extended at the end, which is the induction every invariant uses. `Meets` says of a
  run that each of its steps was taken where a condition holds. `Invariant.run` and
  `run_induction` prove a property of states, or of states with the events that led
  there, for every run; `InvariantIf.run` does so for the runs whose steps meet a
  condition. `Sim.run` carries runs along a projection that takes each event to a
  list of events, and `Follows.reach` finds a reachable state of the finer machine for
  each one of the coarser.
-/

import Mathlib.Data.List.Infix

namespace Lib

universe u v w x

structure Machine (σ : Type u) (α : Type v) where
  init : σ → Prop
  step : σ → α → Option σ

namespace Machine

variable {σ : Type u} {α : Type v} (M : Machine σ α)

inductive Steps : σ → List α → σ → Prop
  | nil (s : σ) : Steps s [] s
  | snoc {s t t' : σ} {tr : List α} {a : α} : Steps s tr t → M.step t a = some t' → Steps s (tr ++ [a]) t'

/-- The events `tr` lead from an initial state to `s`. -/
def Run (tr : List α) (s : σ) : Prop := ∃ s₀, M.init s₀ ∧ M.Steps s₀ tr s

def Reach (s : σ) : Prop := ∃ tr, M.Run tr s

/-- Every step of the run `tr` from `s₀` is taken where `C` holds of the state and the event. -/
def Meets (C : σ → α → Prop) (s₀ : σ) (tr : List α) : Prop :=
  ∀ pre a post s, tr = pre ++ a :: post → M.Steps s₀ pre s → C s a

/-- A run whose steps all meet `C`. -/
def RunIf (C : σ → α → Prop) (tr : List α) (s : σ) : Prop :=
  ∃ s₀, M.init s₀ ∧ M.Steps s₀ tr s ∧ M.Meets C s₀ tr

/-- The state the events lead to, if each is enabled in turn. -/
def exec : σ → List α → Option σ
  | s, [] => some s
  | s, a :: as => (M.step s a).bind fun t => exec t as

variable {M}

/-! ## Runs -/

theorem Steps.append {s t t' : σ} {tr tr' : List α} (h : M.Steps s tr t) (h' : M.Steps t tr' t') :
    M.Steps s (tr ++ tr') t' := by
  induction h' with
  | nil => simpa using h
  | snoc _ hs ih => rw [← List.append_assoc]; exact .snoc ih hs

theorem Steps.single {s t : σ} {a : α} (h : M.step s a = some t) : M.Steps s [a] t := by
  have := Steps.snoc (.nil s) h
  simpa using this

theorem Steps.cons {s t t' : σ} {a : α} {tr : List α} (h : M.step s a = some t) (h' : M.Steps t tr t') :
    M.Steps s (a :: tr) t' :=
  (Steps.single h).append h'

theorem steps_nil {s t : σ} : M.Steps s [] t ↔ t = s := by
  constructor
  · intro h
    generalize htr : ([] : List α) = tr at h
    cases h with
    | nil => rfl
    | snoc => simp at htr
  · rintro rfl; exact .nil _

theorem steps_snoc {s t : σ} {a : α} {tr : List α} :
    M.Steps s (tr ++ [a]) t ↔ ∃ m, M.Steps s tr m ∧ M.step m a = some t := by
  constructor
  · intro h
    generalize htr : tr ++ [a] = tr' at h
    cases h with
    | nil => simp at htr
    | snoc h hs =>
      obtain ⟨rfl, h1⟩ := List.append_inj' htr rfl
      cases h1
      exact ⟨_, h, hs⟩
  · rintro ⟨m, h, hs⟩; exact .snoc h hs

theorem steps_append {s t : σ} {tr tr' : List α} :
    M.Steps s (tr ++ tr') t ↔ ∃ m, M.Steps s tr m ∧ M.Steps m tr' t := by
  constructor
  · intro h
    induction tr' using List.reverseRecOn generalizing t with
    | nil => exact ⟨t, by simpa using h, .nil t⟩
    | append_singleton tr' a ih =>
      rw [← List.append_assoc, steps_snoc] at h
      obtain ⟨m, h, hs⟩ := h
      obtain ⟨k, h1, h2⟩ := ih h
      exact ⟨k, h1, .snoc h2 hs⟩
  · rintro ⟨m, h, h'⟩; exact h.append h'

theorem steps_cons {s t : σ} {a : α} {tr : List α} :
    M.Steps s (a :: tr) t ↔ ∃ m, M.step s a = some m ∧ M.Steps m tr t := by
  constructor
  · intro h
    obtain ⟨m, h1, h2⟩ := steps_append.mp (show M.Steps s ([a] ++ tr) t from h)
    obtain ⟨k, hk, hs⟩ := steps_snoc.mp (show M.Steps s ([] ++ [a]) m from h1)
    rw [steps_nil] at hk
    subst hk
    exact ⟨m, hs, h2⟩
  · rintro ⟨m, h, h'⟩; exact .cons h h'

/-- A run's events determine where it leads. -/
theorem Steps.det {s t t' : σ} {tr : List α} (h : M.Steps s tr t) (h' : M.Steps s tr t') : t = t' := by
  induction h generalizing t' with
  | nil => exact (steps_nil.mp h').symm
  | snoc _ hs ih =>
    obtain ⟨m, h1, h2⟩ := steps_snoc.mp h'
    rw [ih h1, h2] at hs
    exact (Option.some.inj hs).symm

theorem steps_of_exec {s t : σ} {tr : List α} (h : M.exec s tr = some t) : M.Steps s tr t := by
  induction tr generalizing s with
  | nil => cases h; exact .nil _
  | cons a tr ih =>
    obtain ⟨m, hm, hr⟩ := Option.bind_eq_some_iff.mp h
    exact .cons hm (ih hr)

theorem Run.snoc {tr : List α} {s s' : σ} {a : α} (h : M.Run tr s) (hs : M.step s a = some s') :
    M.Run (tr ++ [a]) s' := by
  obtain ⟨s₀, h0, h⟩ := h
  exact ⟨s₀, h0, .snoc h hs⟩

theorem Run.append {tr tr' : List α} {s s' : σ} (h : M.Run tr s) (h' : M.Steps s tr' s') : M.Run (tr ++ tr') s' := by
  obtain ⟨s₀, h0, h⟩ := h
  exact ⟨s₀, h0, h.append h'⟩

theorem Run.split {tr tr' : List α} {s : σ} (h : M.Run (tr ++ tr') s) : ∃ m, M.Run tr m ∧ M.Steps m tr' s := by
  obtain ⟨s₀, h0, h⟩ := h
  obtain ⟨m, h1, h2⟩ := steps_append.mp h
  exact ⟨m, ⟨s₀, h0, h1⟩, h2⟩

theorem Run.reach {tr : List α} {s : σ} (h : M.Run tr s) : M.Reach s := ⟨tr, h⟩

theorem RunIf.run {C : σ → α → Prop} {tr : List α} {s : σ} (h : M.RunIf C tr s) : M.Run tr s := by
  obtain ⟨s₀, h0, h, -⟩ := h
  exact ⟨s₀, h0, h⟩

/-- What holds initially and is kept by every step of a run holds at its end; `J` may
    speak of the events so far. -/
theorem run_induction {J : List α → σ → Prop} (h0 : ∀ s, M.init s → J [] s)
    (hs : ∀ tr s a s', M.Run tr s → J tr s → M.step s a = some s' → J (tr ++ [a]) s')
    {tr : List α} {s : σ} (h : M.Run tr s) : J tr s := by
  obtain ⟨s₀, hi, h⟩ := h
  induction h with
  | nil => exact h0 _ hi
  | snoc h hst ih => exact hs _ _ _ _ ⟨s₀, hi, h⟩ ih hst

/-- The same for a run that goes on from `s`. -/
theorem steps_induction {J : List α → σ → Prop} {s : σ} (h0 : J [] s)
    (hs : ∀ tr t a t', M.Steps s tr t → J tr t → M.step t a = some t' → J (tr ++ [a]) t')
    {tr : List α} {t : σ} (h : M.Steps s tr t) : J tr t := by
  induction h with
  | nil => exact h0
  | snoc h hst ih => exact hs _ _ _ _ h ih hst

/-! ## Conditions on the steps of a run -/

theorem Meets.init {C : σ → α → Prop} {s₀ : σ} {tr : List α} {a : α} (h : M.Meets C s₀ (tr ++ [a])) :
    M.Meets C s₀ tr := by
  rintro pre b post s rfl hp
  exact h pre b (post ++ [a]) s (by simp) hp

theorem Meets.last {C : σ → α → Prop} {s₀ s : σ} {tr : List α} {a : α} (h : M.Meets C s₀ (tr ++ [a]))
    (hs : M.Steps s₀ tr s) : C s a :=
  h tr a [] s rfl hs

/-- A condition that holds of each of the events wherever it is taken. -/
theorem meets_of_events {C : σ → α → Prop} {s₀ : σ} {tr : List α} (h : ∀ a ∈ tr, ∀ s, C s a) : M.Meets C s₀ tr := by
  rintro pre a post s rfl _
  exact h a (by simp) s

theorem meets_single {C : σ → α → Prop} {s : σ} {a : α} (h : C s a) : M.Meets C s [a] := by
  intro pre b post t ht hs
  cases pre with
  | nil => cases ht; rw [steps_nil.mp hs]; exact h
  | cons c pre => simp at ht

theorem Meets.append {C : σ → α → Prop} {s₀ m : σ} {tr tr' : List α} (h : M.Meets C s₀ tr) (hs : M.Steps s₀ tr m)
    (h' : M.Meets C m tr') : M.Meets C s₀ (tr ++ tr') := by
  intro pre a post s ht hp
  rcases List.append_eq_append_iff.mp ht with ⟨x, rfl, hx⟩ | ⟨y, rfl, hy⟩
  · obtain ⟨k, h1, h2⟩ := steps_append.mp hp
    rw [h1.det hs] at h2
    exact h' x a post s hx h2
  · cases y with
    | nil =>
      rw [List.append_nil] at hs
      rw [hp.det hs]
      exact h' [] a post m hy.symm (.nil m)
    | cons b y =>
      cases hy
      exact h pre a y s rfl hp

theorem meets_nil {C : σ → α → Prop} {s : σ} : M.Meets C s [] := by
  intro pre a post t ht _
  simp at ht

theorem Meets.cons {C : σ → α → Prop} {s t : σ} {a : α} {tr : List α} (hc : C s a) (hs : M.step s a = some t)
    (h : M.Meets C t tr) : M.Meets C s (a :: tr) :=
  (meets_single hc).append (.single hs) h

theorem RunIf.nil {C : σ → α → Prop} {s : σ} (h : M.init s) : M.RunIf C [] s := ⟨s, h, .nil s, meets_nil⟩

theorem RunIf.snoc {C : σ → α → Prop} {tr : List α} {s t : σ} {a : α} (h : M.RunIf C tr s) (hc : C s a)
    (hs : M.step s a = some t) : M.RunIf C (tr ++ [a]) t := by
  obtain ⟨s₀, hi, h, hm⟩ := h
  exact ⟨s₀, hi, h.snoc hs, hm.append h (meets_single hc)⟩

theorem RunIf.split {C : σ → α → Prop} {tr tr' : List α} {s : σ} (h : M.RunIf C (tr ++ tr') s) :
    ∃ t, M.RunIf C tr t ∧ M.Steps t tr' s ∧ M.Meets C t tr' := by
  obtain ⟨s₀, hi, h, hm⟩ := h
  obtain ⟨t, ht, hs⟩ := steps_append.mp h
  refine ⟨t, ⟨s₀, hi, ht, ?_⟩, hs, ?_⟩
  · rintro pre a post u rfl hu
    exact hm pre a (post ++ tr') u (by simp) hu
  · rintro pre a post u rfl hu
    exact hm (tr ++ pre) a post u (by simp) (ht.append hu)

theorem runIf_induction {C : σ → α → Prop} {J : List α → σ → Prop} (h0 : ∀ s, M.init s → J [] s)
    (hs : ∀ tr s a s', M.RunIf C tr s → J tr s → C s a → M.step s a = some s' → J (tr ++ [a]) s')
    {tr : List α} {s : σ} (h : M.RunIf C tr s) : J tr s := by
  obtain ⟨s₀, hi, h, hm⟩ := h
  induction h with
  | nil => exact h0 _ hi
  | snoc h hst ih => exact hs _ _ _ _ ⟨s₀, hi, h, hm.init⟩ (ih hm.init) (hm.last h) hst

/-- Some step of the run meets `B`, and no event since undoes it. -/
def Since (M : Machine σ α) (B : σ → α → Prop) (U : α → Prop) (s₀ : σ) (tr : List α) : Prop :=
  ∃ pre a post s, tr = pre ++ a :: post ∧ M.Steps s₀ pre s ∧ B s a ∧ ∀ b ∈ post, ¬ U b

theorem since_nil {B : σ → α → Prop} {U : α → Prop} {s₀ : σ} : ¬ M.Since B U s₀ [] := by
  rintro ⟨pre, a, post, s, h, -⟩
  simp at h

theorem since_snoc {B : σ → α → Prop} {U : α → Prop} {s₀ s : σ} {tr : List α} {a : α} (h : M.Steps s₀ tr s) :
    M.Since B U s₀ (tr ++ [a]) ↔ B s a ∨ M.Since B U s₀ tr ∧ ¬ U a := by
  constructor
  · rintro ⟨pre, b, post, t, he, hp, hb, hu⟩
    rcases List.eq_nil_or_concat post with rfl | ⟨post, c, rfl⟩
    · obtain ⟨rfl, h1⟩ := List.append_inj' he rfl
      cases h1
      rw [h.det hp]
      exact Or.inl hb
    · rw [List.concat_eq_append, ← List.cons_append, ← List.append_assoc] at he
      obtain ⟨rfl, h1⟩ := List.append_inj' he rfl
      cases h1
      exact Or.inr ⟨⟨pre, b, post, t, rfl, hp, hb, fun d hd => hu d (by simp [hd])⟩, hu _ (by simp)⟩
  · rintro (hb | ⟨⟨pre, b, post, t, rfl, hp, hb, hu⟩, hna⟩)
    · exact ⟨tr, a, [], s, rfl, h, hb, by simp⟩
    · refine ⟨pre, b, post ++ [a], t, by simp, hp, hb, fun d hd => ?_⟩
      rcases List.mem_append.mp hd with hd | hd
      · exact hu d hd
      · rw [List.mem_singleton.mp hd]; exact hna

/-- What each step either makes true, or keeps true and does not undo, holds at the end
    of a run just when a step made it so since it was last undone. -/
theorem since_iff {B : σ → α → Prop} {U : α → Prop} {Q : σ → Prop} {s₀ s : σ} {tr : List α} (h0 : ¬ Q s₀)
    (hs : ∀ t a t', M.step t a = some t' → (Q t' ↔ B t a ∨ Q t ∧ ¬ U a)) (h : M.Steps s₀ tr s) :
    Q s ↔ M.Since B U s₀ tr := by
  induction h with
  | nil => exact ⟨fun h => absurd h h0, fun h => absurd h since_nil⟩
  | snoc h hst ih => rw [since_snoc h, hs _ _ _ hst, ih]

theorem Meets.not_since {B : σ → α → Prop} {U : α → Prop} {s₀ : σ} {tr : List α}
    (h : M.Meets (fun s a => ¬ B s a) s₀ tr) : ¬ M.Since B U s₀ tr := by
  rintro ⟨pre, a, post, s, rfl, hp, hb, -⟩
  exact h pre a post s rfl hp hb

/-! ## Invariants -/

/-- An inductive invariant under the step condition `C`. -/
structure InvariantIf (M : Machine σ α) (C : σ → α → Prop) (I : σ → Prop) : Prop where
  init : ∀ s, M.init s → I s
  step : ∀ s a s', I s → C s a → M.step s a = some s' → I s'

/-- An inductive invariant. -/
structure Invariant (M : Machine σ α) (I : σ → Prop) : Prop where
  init : ∀ s, M.init s → I s
  step : ∀ s a s', I s → M.step s a = some s' → I s'

theorem Invariant.steps {I : σ → Prop} (hI : M.Invariant I) {s t : σ} {tr : List α} (h0 : I s)
    (h : M.Steps s tr t) : I t := by
  induction h with
  | nil => exact h0
  | snoc _ hst ih => exact hI.step _ _ _ ih hst

theorem Invariant.run {I : σ → Prop} (hI : M.Invariant I) {tr : List α} {s : σ} (h : M.Run tr s) : I s := by
  obtain ⟨s₀, hi, h⟩ := h
  exact hI.steps (hI.init _ hi) h

theorem Invariant.reach {I : σ → Prop} (hI : M.Invariant I) {s : σ} (h : M.Reach s) : I s := by
  obtain ⟨_, h⟩ := h
  exact hI.run h

theorem InvariantIf.run {C : σ → α → Prop} {I : σ → Prop} (hI : M.InvariantIf C I) {tr : List α} {s : σ}
    (h : M.RunIf C tr s) : I s :=
  runIf_induction (J := fun _ s => I s) hI.init (fun _ _ _ _ _ hs hc hst => hI.step _ _ _ hs hc hst) h

/-- What holds along a run until an event undoes it. -/
theorem InvariantIf.stays {C : σ → α → Prop} {I J : σ → Prop} {U : α → Prop} (hI : M.InvariantIf C I)
    (hk : ∀ s a t, I s → J s → C s a → ¬ U a → M.step s a = some t → J t) {s t : σ} {tr : List α} (hi : I s)
    (hj : J s) (h : M.Steps s tr t) (hm : M.Meets C s tr) (hu : ∀ a ∈ tr, ¬ U a) : J t := by
  suffices I t ∧ J t from this.2
  induction h with
  | nil => exact ⟨hi, hj⟩
  | snoc h hs ih =>
    obtain ⟨hi, hj⟩ := ih hm.init fun a ha => hu a (List.mem_append_left _ ha)
    have hc := hm.last h
    exact ⟨hI.step _ _ _ hi hc hs, hk _ _ _ hi hj hc (hu _ (by simp)) hs⟩

/-- What a step brings about holds until an event undoes it. -/
theorem InvariantIf.lasts {C : σ → α → Prop} {I J : σ → Prop} {U : α → Prop} {a : α} (hI : M.InvariantIf C I)
    (hb : ∀ s t, I s → C s a → M.step s a = some t → J t)
    (hk : ∀ s b t, I s → J s → C s b → ¬ U b → M.step s b = some t → J t)
    {pre post : List α} {s : σ} (h : M.RunIf C (pre ++ a :: post) s) (hu : ∀ b ∈ post, ¬ U b) : J s := by
  rw [← List.singleton_append, ← List.append_assoc] at h
  obtain ⟨u, hu', hpost, hm⟩ := h.split
  obtain ⟨t, ht, hs, hc⟩ := hu'.split
  obtain ⟨v, hv, hn⟩ := steps_cons.mp hs
  rw [steps_nil.mp hn] at hpost hm
  have hc := hc [] a [] t rfl (.nil t)
  exact hI.stays hk (hI.step t a v (hI.run ht) hc hv) (hb t v (hI.run ht) hc hv) hpost hm hu

/-! ## Projections -/

/-- `f` takes the states of `M` to states of `N` and `g` each event to the events it
    is there: a step of `M` is a run of `N`. -/
structure Sim {τ : Type w} {β : Type x} (M : Machine σ α) (N : Machine τ β) (f : σ → τ) (g : α → List β) : Prop where
  init : ∀ s, M.init s → N.init (f s)
  step : ∀ s a s', M.step s a = some s' → N.Steps (f s) (g a) (f s')

theorem Sim.steps {τ : Type w} {β : Type x} {N : Machine τ β} {f : σ → τ} {g : α → List β} (hS : Sim M N f g)
    {s t : σ} {tr : List α} (h : M.Steps s tr t) : N.Steps (f s) (tr.flatMap g) (f t) := by
  induction h with
  | nil => exact .nil _
  | snoc _ hst ih => simpa using ih.append (hS.step _ _ _ hst)

theorem Sim.run {τ : Type w} {β : Type x} {N : Machine τ β} {f : σ → τ} {g : α → List β} (hS : Sim M N f g)
    {tr : List α} {s : σ} (h : M.Run tr s) : N.Run (tr.flatMap g) (f s) := by
  obtain ⟨s₀, hi, h⟩ := h
  exact ⟨f s₀, hS.init _ hi, hS.steps h⟩

/-- `M` follows `N` along `R`: each step of `N` is some run of `M`. -/
structure Follows {τ : Type w} {β : Type x} (M : Machine σ α) (N : Machine τ β) (R : σ → τ → Prop) : Prop where
  init : ∀ t, N.init t → ∃ s, M.init s ∧ R s t
  step : ∀ s t b t', R s t → N.step t b = some t' → ∃ tr s', M.Steps s tr s' ∧ R s' t'

theorem Follows.reach {τ : Type w} {β : Type x} {N : Machine τ β} {R : σ → τ → Prop} (hF : Follows M N R) {t : τ}
    (h : N.Reach t) : ∃ s, M.Reach s ∧ R s t := by
  obtain ⟨tr, t₀, h0, h⟩ := h
  induction h with
  | nil =>
    obtain ⟨s, hs, hR⟩ := hF.init _ h0
    exact ⟨s, ⟨[], s, hs, .nil s⟩, hR⟩
  | snoc _ hst ih =>
    obtain ⟨s, ⟨tr, hrun⟩, hR⟩ := ih
    obtain ⟨tr', s', hs, hR'⟩ := hF.step _ _ _ _ hR hst
    exact ⟨s', ⟨tr ++ tr', hrun.append hs⟩, hR'⟩

end Machine

end Lib
