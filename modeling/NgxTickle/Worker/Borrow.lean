/-
  NgxTickle.Worker.Borrow — what the future of a request-bound task may borrow
  (`RequestSpawn::spawn` in `src/spawn.rs`): `F: AsyncFnOnce(&mut Self) -> T` has no
  `'static` bound, unlike `spawn`'s, and the handle returned borrows the request only.

  `Scoped` adds to the worker the scopes that main enters and leaves, the scopes each
  future borrows from, and the borrows the compiler knows of while a handle is held. A
  scope may be left once none of these is of it. A refused spawn drops its future before
  it returns, within every scope its caller is in, and is left out.

  - `borrows_live_iff`: the closures whose borrows are live in every run wherever the
    future is polled or dropped are exactly those that borrow nothing.
  - `borrows_live_if_outlasted`: what is left to the caller: to leave no scope before the
    futures that borrow from it are dropped.
-/

import NgxTickle.Worker.Teardown

namespace NgxTickle.Worker

open NgxTickle.Task
open NgxTickle.Sched (Thread Pc Handler)

abbrev ScopeId := Nat

/-- What a borrow is of. -/
inductive Loan where
  | request (r : ReqId)
  | scope (x : ScopeId)
  deriving DecidableEq, Repr

structure Scoped (A : AsyncTask) (P : Type) where
  worker : St A P
  /-- Entered or not; live, or left. -/
  scopes : ScopeId → Option Bool
  /-- The handles held, and what each is a borrow of. -/
  loans : List (TaskId × Loan)
  captured : TaskId → List ScopeId

inductive ScopedAct (P : Type) where
  | enter (x : ScopeId)
  | leave (x : ScopeId)
  /-- `RequestSpawn::spawn` of a closure that borrows from the scopes `xs`; it returns Ok. -/
  | spawn (r : ReqId) (k : TaskId) (xs : List ScopeId)
  | dropHandle (k : TaskId)
  | act (a : Act P)
  deriving DecidableEq, Repr

/-- The lifetime of the `&mut RequestTask<T>` is that of `&mut self`. -/
def handleLoan (r : ReqId) : Loan := .request r

def Act.spawned {P : Type} : Act P → Bool
  | .requestSpawn _ _ ok => ok
  | _ => false

variable {A : AsyncTask} {P : Type}

def Scoped.start (w : St A P) : Scoped A P := ⟨w, fun _ => none, [], fun _ => []⟩

def Scoped.live (s : Scoped A P) (x : ScopeId) : Bool := s.scopes x == some true

/-- Where code of the future of `k` runs, every scope it borrows from is live. -/
def Scoped.Covers (s : Scoped A P) (k : TaskId) : Prop :=
  ∀ t, ∀ f ∈ s.worker.cont t, f.code = some k → ∀ x ∈ s.captured k, s.live x = true

variable [DecidableEq P]

def Scoped.step (s : Scoped A P) : ScopedAct P → Option (Scoped A P)
  | .enter x =>
    if s.worker.free .main = true ∧ s.scopes x = none then
      some { s with scopes := Function.update s.scopes x (some true) }
    else none
  | .leave x =>
    if s.worker.free .main = true ∧ s.live x = true ∧ ∀ l ∈ s.loans, l.2 ≠ .scope x then
      some { s with scopes := Function.update s.scopes x (some false) }
    else none
  | .spawn r k xs =>
    if ∀ x ∈ xs, s.live x = true then
      (Worker.step s.worker (.requestSpawn r k true)).map fun w =>
        { s with worker := w, loans := (k, handleLoan r) :: s.loans, captured := Function.update s.captured k xs }
    else none
  | .dropHandle k =>
    if s.worker.free .main = true ∧ ∃ l ∈ s.loans, l.1 = k then
      some { s with loans := s.loans.filter fun l => l.1 != k }
    else none
  | .act a => if a.spawned = false then (Worker.step s.worker a).map fun w => { s with worker := w } else none

def withScopes (A : AsyncTask) (P : Type) [DecidableEq P] : Lib.Machine (Scoped A P) (ScopedAct P) :=
  ⟨fun s => ∃ w, Init w ∧ s = .start w, Scoped.step⟩

inductive ScopedStep : Scoped A P → ScopedAct P → Scoped A P → Prop
  | enter (s : Scoped A P) (x : ScopeId) : s.worker.free .main = true → s.scopes x = none →
      ScopedStep s (.enter x) { s with scopes := Function.update s.scopes x (some true) }
  | leave (s : Scoped A P) (x : ScopeId) : s.worker.free .main = true → s.live x = true →
      (∀ l ∈ s.loans, l.2 ≠ .scope x) →
      ScopedStep s (.leave x) { s with scopes := Function.update s.scopes x (some false) }
  | spawn (s : Scoped A P) (r : ReqId) (k : TaskId) (xs : List ScopeId) (w : St A P) : (∀ x ∈ xs, s.live x = true) →
      Worker.step s.worker (.requestSpawn r k true) = some w →
      ScopedStep s (.spawn r k xs)
        { s with worker := w, loans := (k, handleLoan r) :: s.loans, captured := Function.update s.captured k xs }
  | dropHandle (s : Scoped A P) (k : TaskId) : s.worker.free .main = true → (∃ l ∈ s.loans, l.1 = k) →
      ScopedStep s (.dropHandle k) { s with loans := s.loans.filter fun l => l.1 != k }
  | act (s : Scoped A P) (a : Act P) (w : St A P) : a.spawned = false → Worker.step s.worker a = some w →
      ScopedStep s (.act a) { s with worker := w }

theorem scopedStep_inv {s s' : Scoped A P} {a : ScopedAct P} (h : s.step a = some s') : ScopedStep s a s' := by
  cases a with
  | enter x =>
    simp only [Scoped.step, Option.ite_none_right_eq_some, Option.some.injEq] at h
    obtain ⟨⟨h1, h2⟩, rfl⟩ := h
    exact .enter s x h1 h2
  | leave x =>
    simp only [Scoped.step, Option.ite_none_right_eq_some, Option.some.injEq] at h
    obtain ⟨⟨h1, h2, h3⟩, rfl⟩ := h
    exact .leave s x h1 h2 h3
  | spawn r k xs =>
    simp only [Scoped.step, Option.ite_none_right_eq_some, Option.map_eq_some_iff] at h
    obtain ⟨h1, w, hw, rfl⟩ := h
    exact .spawn s r k xs w h1 hw
  | dropHandle k =>
    simp only [Scoped.step, Option.ite_none_right_eq_some, Option.some.injEq] at h
    obtain ⟨⟨h1, h2⟩, rfl⟩ := h
    exact .dropHandle s k h1 h2
  | act a =>
    simp only [Scoped.step, Option.ite_none_right_eq_some, Option.map_eq_some_iff] at h
    obtain ⟨h1, w, hw, rfl⟩ := h
    exact .act s a w h1 hw

theorem ScopedStep.eq {s s' : Scoped A P} {a : ScopedAct P} (h : ScopedStep s a s') : s.step a = some s' := by
  cases h with
  | enter x h1 h2 => simp [Scoped.step, h1, h2]
  | leave x h1 h2 h3 => exact if_pos ⟨h1, h2, h3⟩
  | spawn r k xs w h1 hw => rw [Scoped.step, if_pos h1, hw]; rfl
  | dropHandle k h1 h2 => exact if_pos ⟨h1, h2⟩
  | act a w h1 hw => rw [Scoped.step, if_pos h1, hw]; rfl

/-! ## The worker underneath -/

/-- What the worker does. -/
def ScopedAct.worker : ScopedAct P → List (Act P)
  | .spawn r k _ => [.requestSpawn r k true]
  | .act a => [a]
  | _ => []

theorem scoped_sim : Lib.Machine.Sim (withScopes A P) (machine A P) Scoped.worker ScopedAct.worker where
  init := by
    intro s hs
    obtain ⟨w, hw, rfl⟩ := hs
    exact hw
  step := by
    intro s a s' h
    cases scopedStep_inv h with
    | enter x _ _ => exact .nil _
    | leave x _ _ _ => exact .nil _
    | spawn r k xs w _ hw => exact .single hw
    | dropHandle k _ _ => exact .nil _
    | act a w _ hw => exact .single hw

/-- The worker's own acts leave the scopes alone. -/
theorem scoped_acts {s : Scoped A P} {w' : St A P} {tr : List (Act P)} (h : (machine A P).Steps s.worker tr w')
    (ha : ∀ a ∈ tr, a.spawned = false) :
    (withScopes A P).Steps s (tr.map .act) { s with worker := w' } := by
  have key : (∀ a ∈ tr, a.spawned = false) → (withScopes A P).Steps s (tr.map .act) { s with worker := w' } := by
    refine Lib.Machine.steps_induction
      (J := fun tr w' => (∀ a ∈ tr, a.spawned = false) → (withScopes A P).Steps s (tr.map .act) { s with worker := w' })
      (fun _ => .nil s) ?_ h
    intro tr w a w' _ ih hst hall
    rw [List.map_append]
    exact .snoc (ih fun b hb => hall b (List.mem_append_left _ hb))
      (ScopedStep.eq (.act { s with worker := w } a w' (hall a (by simp)) hst))
  exact key ha

/-! ## A closure keeps what it captured -/

theorem captured_run {tr : List (ScopedAct P)} {s : Scoped A P} (h : (withScopes A P).Run tr s) :
    ∀ r k xs, .spawn r k xs ∈ tr → s.captured k = xs ∧ ∃ c, s.worker.cells k = some c := by
  refine Lib.Machine.run_induction
    (J := fun tr s => ∀ r k xs, .spawn r k xs ∈ tr → s.captured k = xs ∧ ∃ c, s.worker.cells k = some c) ?_ ?_ h
  · intro s _ r k xs hm
    cases hm
  · intro tr s a s' _ ih hst r k xs hm
    rcases List.mem_append.mp hm with hm | hm
    · obtain ⟨hcap, c, hc⟩ := ih r k xs hm
      cases scopedStep_inv hst with
      | enter x _ _ => exact ⟨hcap, c, hc⟩
      | leave x _ _ _ => exact ⟨hcap, c, hc⟩
      | spawn r' k' xs' w _ hw =>
        obtain ⟨c', hc', -⟩ := cell_step (step_inv hw) hc
        have hk : k ≠ k' := by
          intro hk
          subst hk
          cases step_inv hw with
          | requestSpawn _ _ p s _ _ _ h₀ _ => rw [hc] at h₀; cases h₀
        exact ⟨(Function.update_of_ne hk _ _).trans hcap, c', hc'⟩
      | dropHandle k' _ _ => exact ⟨hcap, c, hc⟩
      | act a w _ hw =>
        obtain ⟨c', hc', -⟩ := cell_step (step_inv hw) hc
        exact ⟨hcap, c', hc'⟩
    · obtain rfl := List.mem_singleton.mp hm
      have hst : s.step (.spawn r k xs) = some s' := hst
      cases scopedStep_inv hst with
      | spawn _ _ _ w _ hw =>
        refine ⟨Function.update_self _ _ _, ?_⟩
        cases step_inv hw with
        | requestSpawn _ _ p s _ _ _ _ _ => exact ⟨_, Function.update_self _ _ _⟩

/-! ## Borrows that outlast the future -/

/-- No scope is left before the futures that borrow from it are dropped. -/
def Outlasts (s : Scoped A P) : ScopedAct P → Prop
  | .leave x => ∀ k c, x ∈ s.captured k → s.worker.cells k = some c → c.live = false
  | _ => True

/-- A future that is there has its scopes; one that is not spawned borrows nothing. -/
def Lent (s : Scoped A P) : Prop :=
  ∀ k, ∀ x ∈ s.captured k, ∃ c, s.worker.cells k = some c ∧ (c.live = true → s.live x = true)

theorem lent_worker {s s' : Scoped A P} {a : Act P} (h : Lent s) (hc : s'.captured = s.captured)
    (hl : s'.scopes = s.scopes) (hst : Step s.worker a s'.worker) : Lent s' := by
  intro k x hx
  rw [hc] at hx
  obtain ⟨c, hck, hlive⟩ := h k x hx
  obtain ⟨c', hc', -, hv⟩ := cell_step hst hck
  refine ⟨c', hc', fun hl' => ?_⟩
  rw [Scoped.live, hl]
  rcases hv with hv | ⟨_, _, _, _, hv⟩
  · exact hlive (hv ▸ hl')
  · rw [hv] at hl'; cases hl'

theorem lent_step {s s' : Scoped A P} {a : ScopedAct P} (h : Lent s) (ho : Outlasts s a) (hst : ScopedStep s a s') :
    Lent s' := by
  cases hst with
  | enter x _ h₀ =>
    intro k y hy
    obtain ⟨c, hc, hlive⟩ := h k y hy
    refine ⟨c, hc, fun hl => ?_⟩
    by_cases hxy : y = x
    · subst hxy; simp [Scoped.live]
    · simpa [Scoped.live, hxy] using hlive hl
  | leave x _ _ _ =>
    intro k y hy
    obtain ⟨c, hc, hlive⟩ := h k y hy
    refine ⟨c, hc, fun hl => ?_⟩
    by_cases hxy : y = x
    · subst hxy
      rw [ho k c hy hc] at hl
      cases hl
    · simpa [Scoped.live, hxy] using hlive hl
  | spawn r k xs w hxs hw =>
    intro j y hy
    by_cases hj : j = k
    · subst hj
      simp only [Function.update_self] at hy
      cases step_inv hw with
      | requestSpawn _ _ p s' _ _ _ _ _ => exact ⟨_, Function.update_self _ _ _, fun _ => hxs y hy⟩
    · simp only [Function.update_of_ne hj] at hy
      have h' : Lent { s with worker := w } := lent_worker h rfl rfl (step_inv hw)
      exact h' j y hy
  | dropHandle k _ _ => exact h
  | act a w _ hw => exact lent_worker h rfl rfl (step_inv hw)

/-- If no scope is left before the futures that borrow from it are dropped, their borrows
    are live wherever they are polled or dropped. -/
theorem borrows_live_if_outlasted {tr : List (ScopedAct P)} {s : Scoped A P} (h : (withScopes A P).RunIf Outlasts tr s)
    (k : TaskId) : s.Covers k := by
  have hl : Lent s := by
    refine Lib.Machine.runIf_induction (J := fun _ s => Lent s) ?_ ?_ h
    · intro s hs k x hx
      obtain ⟨w, -, rfl⟩ := hs
      cases hx
    · intro tr s a s' _ ih ho hst
      exact lent_step ih ho (scopedStep_inv hst)
  intro t f hf hk x hx
  obtain ⟨c, hc, hlive⟩ := hl k x hx
  refine hlive ?_
  have hrun := scoped_sim.run h.run
  cases t with
  | other p =>
    rw [(stacked_invariant.run hrun).other p f hf] at hk
    cases hk
  | main =>
    obtain ⟨φ, hφ⟩ := fits_run hrun k
    exact hφ.live_of_frame hc hf hk

/-! ## Borrows that do not -/

/-- Main is in scopes that hold all of `xs`. -/
theorem enter_all (xs : List ScopeId) (s : Scoped A P) (hf : s.worker.free .main = true)
    (hn : ∀ x, s.scopes x ≠ some false) : ∃ tr s', (withScopes A P).Steps s tr s' ∧ s'.worker = s.worker ∧
      s'.loans = s.loans ∧ ∀ x ∈ xs, s'.live x = true := by
  -- the scopes entered later leave those before them live
  suffices ∃ tr s', (withScopes A P).Steps s tr s' ∧ s'.worker = s.worker ∧ s'.loans = s.loans ∧
      (∀ x, s'.scopes x ≠ some false) ∧ ∀ x ∈ xs, s'.live x = true by
    obtain ⟨tr, s', h, hw, hl, -, hx⟩ := this
    exact ⟨tr, s', h, hw, hl, hx⟩
  induction xs with
  | nil => exact ⟨[], s, .nil s, rfl, rfl, hn, fun x hx => (nomatch hx)⟩
  | cons x xs ih =>
    obtain ⟨tr, m, h, hw, hl, hm, hx⟩ := ih
    cases hs : m.scopes x with
    | none =>
      refine ⟨tr ++ [.enter x], { m with scopes := Function.update m.scopes x (some true) },
        h.snoc (ScopedStep.enter m x (hw ▸ hf) hs).eq, hw, hl, fun y => ?_, fun y hy => ?_⟩
      · by_cases hyx : y = x
        · subst hyx; simp
        · simpa [hyx] using hm y
      · by_cases hyx : y = x
        · subst hyx; simp [Scoped.live]
        · have hy : y ∈ xs := by simpa [hyx] using hy
          simpa [Scoped.live, hyx] using hx y hy
    | some b =>
      refine ⟨tr, m, h, hw, hl, hm, fun y hy => ?_⟩
      rcases List.mem_cons.mp hy with rfl | hy
      · cases b with
        | true => simp [Scoped.live, hs]
        | false => exact absurd hs (hm y)
      · exact hx y hy

/-- Main sends the Runnable of task 7. -/
def sent (P : Type) : List (Act P) := [.core (.send .main 7), .core (.cas .main true), .core (.write .main)]

/-- The handler takes it. -/
def taken (P : Type) : List (Act P) :=
  [.core .enter, .core .drain, .core .clear, .core (.load 8), .core (.isEmpty false), .core (.tryRecv (some 7))]

/-- Task 7 is spawned on request 1, and its first run begins. -/
theorem polled (A : AsyncTask) (P : Type) [DecidableEq P] : ∃ w₀ w₁ w₂ w₃ w₄ w₅ : St A P, Init w₀ ∧
    step w₀ (.newRequest 1 0) = some w₁ ∧ w₁.free .main = true ∧ step w₁ (.requestSpawn 1 7 true) = some w₂ ∧
    (machine A P).Steps w₂ (sent P) w₃ ∧ w₃.free .main = true ∧ (machine A P).Steps w₃ (taken P) w₄ ∧
    step w₄ (.run 7 true) = some w₅ ∧ .poll 7 ∈ w₅.cont .main := by
  obtain ⟨w₀, w₁, w₂, w₃, w₄, h0, h1, hf1, h2, h3, hf3, h4, hc, hh⟩ : ∃ w₀ w₁ w₂ w₃ w₄ : St A P, Init w₀ ∧
      step w₀ (.newRequest 1 0) = some w₁ ∧ w₁.free .main = true ∧ step w₁ (.requestSpawn 1 7 true) = some w₂ ∧
      (machine A P).exec w₂ (sent P) = some w₃ ∧ w₃.free .main = true ∧ (machine A P).exec w₃ (taken P) = some w₄ ∧
      w₄.cells 7 = some ⟨A.spawn, true, some 1, true, .slot⟩ ∧ w₄.core.handler = .took 8 0 7 :=
    ⟨.start (Sched.start [] false 8 (Notify.Fd.new 8 (by decide))), _, _, _, _, ⟨_, ⟨8, by decide, rfl⟩, rfl⟩, rfl, rfl,
      rfl, rfl, rfl, rfl, rfl, rfl⟩
  have hb : (A.begin A.spawn).2 = true := by
    have := congrArg Prod.snd (A.begin_bits A.spawn)
    rw [A.spawn_bits] at this
    exact this
  have h5 : step w₄ (.run 7 true) =
      some (({ w₄ with core := { w₄.core with handler := .running 8 0 7 } }.setCell 7
        ⟨(A.begin A.spawn).1, true, some 1, true, .slot⟩).push .main (.poll 7)) := by
    simp [step, hc, hb, Sched.step, hh]
  exact ⟨w₀, w₁, w₂, w₃, w₄, _, h0, h1, hf1, h2, Lib.Machine.steps_of_exec h3, hf3, Lib.Machine.steps_of_exec h4, h5,
    by simp⟩

/-- A closure's borrows are live in every run, wherever its future is polled or dropped,
    exactly if it borrows nothing: a future spawned from a scope that is left while the
    handle lies dropped is polled later. -/
theorem borrows_live_iff (A : AsyncTask) (P : Type) [DecidableEq P] (xs : List ScopeId) :
    (∀ tr s, (withScopes A P).Run tr s → ∀ r k, .spawn r k xs ∈ tr → s.Covers k) ↔ xs = [] := by
  constructor
  · intro h
    by_contra hne
    obtain ⟨x, hx⟩ := List.exists_mem_of_ne_nil xs hne
    obtain ⟨w₀, w₁, w₂, w₃, w₄, w₅, h0, h1, hf1, h2, h3, hf3, h4, h5, hp⟩ := polled A P
    have g1 : (withScopes A P).Steps (.start w₀) [.act (.newRequest 1 0)] { Scoped.start w₀ with worker := w₁ } :=
      .single (ScopedStep.eq (.act (.start w₀) _ w₁ rfl h1))
    obtain ⟨tr, m, g2, hw, hl, hxs⟩ := enter_all xs { Scoped.start w₀ with worker := w₁ } hf1 (by simp [Scoped.start])
    let m₁ : Scoped A P := ⟨w₂, m.scopes, (7, handleLoan 1) :: m.loans, Function.update m.captured 7 xs⟩
    have g3 : (withScopes A P).step m (.spawn 1 7 xs) = some m₁ :=
      (ScopedStep.spawn m 1 7 xs w₂ hxs (by rw [hw]; exact h2)).eq
    have g4 := scoped_acts (s := m₁) h3 (by simp [sent, Act.spawned])
    have g5 : (withScopes A P).step { m₁ with worker := w₃ } (.dropHandle 7) = some ⟨w₃, m.scopes, [], m₁.captured⟩ := by
      refine (ScopedStep.dropHandle _ 7 hf3 ⟨_, List.mem_cons_self, rfl⟩).eq.trans ?_
      simp [m₁, hl, Scoped.start]
    let m₂ : Scoped A P := ⟨w₃, Function.update m.scopes x (some false), [], m₁.captured⟩
    have g6 : (withScopes A P).step ⟨w₃, m.scopes, [], m₁.captured⟩ (.leave x) = some m₂ :=
      (ScopedStep.leave ⟨w₃, m.scopes, [], m₁.captured⟩ x hf3 (hxs x hx) (by simp)).eq
    have g7 := scoped_acts (s := m₂) h4 (by simp [taken, Act.spawned])
    have g8 : (withScopes A P).step { m₂ with worker := w₄ } (.act (.run 7 true)) = some { m₂ with worker := w₅ } :=
      (ScopedStep.act { m₂ with worker := w₄ } _ w₅ rfl h5).eq
    have hrun := ((((((g1.append g2).snoc g3).append g4).snoc g5).snoc g6).append g7).snoc g8
    have := h _ _ ⟨.start w₀, ⟨w₀, h0, rfl⟩, hrun⟩ 1 7 (by simp) .main (.poll 7) hp rfl x (by simpa [m₂, m₁] using hx)
    simp [Scoped.live, m₂] at this
  · intro hxs tr s hrun r k hm t f _ _ x hx
    subst hxs
    rw [(captured_run hrun r k [] hm).1] at hx
    cases hx

/-- In scope 5, a future that borrows from it is spawned on request 1; the handle is
    dropped, the scope left, and the handler dispatched. -/
def dangling : List (ScopedAct Nat) :=
  [.act (.newRequest 1 0), .enter 5, .spawn 1 7 [5]] ++ (sent Nat).map .act ++ [.dropHandle 7, .leave 5] ++
    (taken Nat).map .act ++ [.act (.run 7 true)]

theorem a_borrow_dangles :
    ∃ s, (withScopes .plain Nat).Run dangling s ∧ .spawn 1 7 [5] ∈ dangling ∧ .poll 7 ∈ s.worker.cont .main ∧
      5 ∈ s.captured 7 ∧ s.scopes 5 = some false := by
  exact ⟨_, ⟨.start fresh, ⟨fresh, fresh_init, rfl⟩, Lib.Machine.steps_of_exec rfl⟩, by simp [dangling],
    List.mem_cons_self, List.mem_cons_self, rfl⟩

end NgxTickle.Worker
