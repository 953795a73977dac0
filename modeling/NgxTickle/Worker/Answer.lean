/-
  NgxTickle.Worker.Answer — the examples' request handlers (`examples/benchmark.rs`:
  `handler`, `tickle_request_handler!`; `examples/yielding.rs`: `yielding_handler`;
  `examples/sidecar.rs`: `sidecar_handler`), over the worker. A handler spawns one task
  on its request, ignores the RequestTask and returns NGX_AGAIN: from then on only that
  task answers. The task calls `finalize_request` as the last thing it does, with no
  `.await` after it.

  - `tickle_request_handler!` turns an error of the body into a status first, and
    `yielding_handler` has none: their tasks always make the call (`Serves true`). In
    `sidecar_handler` the `?` of an error returns before it (`Serves false`).
  - `answered_once`: in every run nginx is asked to finalize a request at most once,
    with the status its task gave; and at rest a request that is still open was
    answered, unless its task waits for a Waker, or its body failed and `?` took it past
    the call. Then nobody answers it (`failed_body_hangs`).

  From the call to the answer: `finalize_request` posts, the event loop dispatches
  `fini`, `fini` calls `ngx_http_finalize_request` (`dispatched_run`, `finalizes_run`).
-/

import NgxTickle.Worker.Settle
import NgxTickle.Worker.Teardown

namespace NgxTickle.Worker

open NgxTickle.Task
open NgxTickle.Sched (Thread Pc Handler)

variable {A : AsyncTask} {P : Type}

/-- A call of `ngx_http_finalize_request` by the `fini` of `f`. -/
def Act.finalizes (f : FinId) : Act P → Bool
  | .fini g (.finalizing ..) => g == f
  | _ => false

/-- A call of `ngx_http_finalize_request` on `r`. -/
def Act.answers (r : ReqId) : Act P → Bool
  | .fini _ (.finalizing q _ _) => q == r
  | _ => false

/-- `fini` has not called `ngx_http_finalize_request` yet. -/
def FiniAt.before : FiniAt → Bool
  | .entered | .read .. => true
  | _ => false

def Frame.toFinalize (f : FinId) : Frame → Bool
  | .fini g b => g == f && b.before
  | _ => false

/-- `finalize_request` was called for `r`. -/
def St.ended (w : St A P) (r : ReqId) : Prop := ∃ f x, w.fins f = some x ∧ x.request = r

/-- What the handler and its task do, and what nobody else does for them. `all`: an
    error of the body is turned into a status first. -/
def Serves (all : Bool) (w : St A P) : Act P → Prop
  -- one task for a request, spawned while nginx is handling it
  | .requestSpawn r _ true => (∀ p, w.pools r = some p → p.life = .live) ∧ ∀ k c, w.cells k = some c → ¬ c.On r
  -- the RequestTask is ignored: the task's Wakers are all that is left of it
  | .op _ k o _ => ∀ c r, w.cells k = some c → c.On r → o.onWaker = true
  -- called by the task in a poll, and with no `.await` after it
  | .finalize _ r _ => ¬ w.ended r ∧ ∃ k c, w.cont .main = [.poll k] ∧ w.cells k = some c ∧ c.On r
  | .pollPending k _ _ => ∀ c r, w.cells k = some c → c.On r → ¬ w.ended r
  | .pollReady k => all = true → ∀ c r, w.cells k = some c → c.On r → w.ended r
  | _ => True

/-- Where a task is that has called `finalize_request`. -/
def Phase.ending : Phase P → Bool
  | .polling | .dropping .ready | .finished => true
  | _ => false

variable [DecidableEq P]

/-- What every served request keeps. -/
structure Served (all : Bool) (attached : A.State → Prop) (w : St A P) : Prop where
  once : ∀ r k c k' c', w.cells k = some c → w.cells k' = some c' → c.On r → c'.On r → k = k'
  one : ∀ f x f' x', w.fins f = some x → w.fins f' = some x' → x.request = x'.request → f = f'
  /-- Its task made the call, and only returns after it. -/
  made : ∀ f x, w.fins f = some x → ∃ k c φ, w.cells k = some c ∧ c.On x.request ∧ Fits w k φ ∧ φ.ending = true
  /-- Until the teardown nothing closes its task. -/
  held : ∀ k c r, w.cells k = some c → c.On r → ∃ p, w.pools r = some p ∧
    (p.life = .live → c.handle = .slot ∧ attached c.st ∧ (A.bits c.st).closed = false)
  /-- Where errors are answered, a task that has returned has made the call. -/
  called : all = true → ∀ k c r p, w.cells k = some c → c.On r → w.pools r = some p → p.life = .live →
    c.live = false ∨ .drop k .ready ∈ w.cont .main → w.ended r

/-! ## From the call to the answer -/

/-- The `fini` of `f` is dispatched, and calls `ngx_http_finalize_request`. -/
theorem finalizes_step {w w' : St A P} {a : Act P} (h : Step w a w') (f : FinId) :
    (w'.cont .main).countP (Frame.toFinalize f) + [a].countP (Act.finalizes f) =
      (w.cont .main).countP (Frame.toFinalize f) + [a].count (.popPosted f) := by
  -- an act that neither dispatches `fini` nor is one
  have same : (w'.cont .main).countP (Frame.toFinalize f) = (w.cont .main).countP (Frame.toFinalize f) →
      a.finalizes f = false → a ≠ .popPosted f →
      (w'.cont .main).countP (Frame.toFinalize f) + [a].countP (Act.finalizes f) =
        (w.cont .main).countP (Frame.toFinalize f) + [a].count (.popPosted f) := by
    intro h1 h2 h3
    simp [h1, h2, h3]
  cases h with
  | core e s _ _ _ => exact same rfl rfl (by simp)
  | runPoll k c s _ _ _ => exact same (by simp [Frame.toFinalize]) rfl (by simp)
  | runDrop k c s _ _ _ => exact same (by simp [Frame.toFinalize]) rfl (by simp)
  | pending k again c rest s _ hf _ _ _ _ => exact same (by simp [hf, Frame.toFinalize]) rfl (by simp)
  | pendingClosed k c rest _ hf _ _ => exact same (by simp [hf, Frame.toFinalize]) rfl (by simp)
  | ready k rest hf _ => exact same (by simp [hf, Frame.toFinalize]) rfl (by simp)
  | dropDone k why c rest _ hf _ => exact same (by simp [hf, Frame.toFinalize]) rfl (by simp)
  | glueDone t rest hf _ =>
    cases t with
    | main => exact same (by simp [hf, Frame.toFinalize]) rfl (by simp)
    | other p => exact same (by simp) rfl (by simp)
  | op t k o handed c h s _ _ _ _ _ _ =>
    cases t with
    | main => exact same (by simp [Frame.toFinalize]) rfl (by simp)
    | other p => exact same (by simp) rfl (by simp)
  | requestRefused r k p s _ _ _ _ _ => exact same (by simp [Frame.toFinalize]) rfl (by simp)
  | destroyPool r p _ _ _ => exact same (by simp [Frame.toFinalize]) rfl (by simp)
  | cleanupTask r k handed p cs rest c s _ _ _ _ _ _ _ _ => exact same (by simp [Frame.toFinalize]) rfl (by simp)
  | cleanupOther r p cs rest _ _ _ _ => exact same (by simp [Frame.toFinalize]) rfl (by simp)
  | freePool r p rest hf _ _ _ => exact same (by simp [hf, Frame.toFinalize]) rfl (by simp)
  | popPosted g rest x _ _ hc _ _ =>
    by_cases hg : g = f
    · subst hg; simp [hc, Frame.toFinalize, FiniAt.before, Act.finalizes]
    · exact same (by simp [hc, Frame.toFinalize, hg]) rfl (by simpa using hg)
  | fini g b b' rest hf _ hn =>
    cases b with
    | entered =>
      simp only [St.finiNext] at hn
      split at hn
      · split at hn
        · cases hn; exact same (by simp [hf, List.countP_cons, Frame.toFinalize, FiniAt.before]) rfl (by simp)
        · cases hn
      · cases hn
    | read r rc c =>
      cases hn
      by_cases hg : g = f
      · simp [hf, hg, Frame.toFinalize, FiniAt.before, Act.finalizes]
      · exact same (by simp [hf, Frame.toFinalize, FiniAt.before, hg]) (by simp [Act.finalizes, hg]) (by simp)
    | finalizing r rc c => cases hn; exact same (by simp [hf, Frame.toFinalize, FiniAt.before]) rfl (by simp)
    | returned c => cases hn; exact same (by simp [hf, Frame.toFinalize, FiniAt.before]) rfl (by simp)
    | draining c => cases hn
  | finiDone g c rest hf _ => exact same (by simp [hf, Frame.toFinalize, FiniAt.before]) rfl (by simp)
  | _ => exact same rfl rfl (by simp)

theorem finalizes_run {tr : List (Act P)} {w : St A P} (h : (machine A P).Run tr w) (f : FinId) :
    (w.cont .main).countP (Frame.toFinalize f) + tr.countP (Act.finalizes f) = tr.count (.popPosted f) := by
  refine Lib.Machine.run_induction (J := fun tr w =>
    (w.cont .main).countP (Frame.toFinalize f) + tr.countP (Act.finalizes f) = tr.count (.popPosted f)) ?_ ?_ h
  · intro w hw
    obtain ⟨s, -, rfl⟩ := hw
    rfl
  · intro tr w a w' _ ih hst
    have := finalizes_step (step_inv hst) f
    rw [List.countP_append, List.count_append]
    omega

/-- An event is unlinked by the event loop, or by the pool that has it cleaned up. -/
theorem posted_step {w w' : St A P} {a : Act P} {f : FinId} {x x' : Finalization} (h : Step w a w')
    (hx : w.fins f = some x) (hx' : w'.fins f = some x') (hp : x.posted = true) :
    x'.posted = true ∨ a = .popPosted f ∨
      ∃ r p rest, w.cont .main = .destroy r :: rest ∧ w.pools r = some p ∧ .fin f ∈ p.cleanups := by
  have same : w'.fins f = w.fins f → x'.posted = true := by
    intro h
    rw [h, hx] at hx'
    cases hx'
    exact hp
  cases h with
  | cleanupFin r g p cs rest y hc _ hpool hcs hy =>
    by_cases hg : f = g
    · subst hg
      exact Or.inr (Or.inr ⟨r, p, rest, hc, hpool, by rw [hcs]; exact List.mem_cons_self⟩)
    · exact Or.inl (same (by simp [hg]))
  | finalize g r rc p _ _ _ hy =>
    have hg : f ≠ g := fun e => by rw [e, hy] at hx; cases hx
    exact Or.inl (same (by simp [hg]))
  | popPosted g rest y _ hy _ _ _ =>
    by_cases hg : f = g
    · subst hg; exact Or.inr (Or.inl rfl)
    · exact Or.inl (same (by simp [hg]))
  | _ => exact Or.inl (same rfl)

/-- What is no longer posted was dispatched, unless its request is torn down. -/
theorem dispatched_run {tr : List (Act P)} {w : St A P} (h : (machine A P).Run tr w) (f : FinId) :
    ∀ x, w.fins f = some x → ∃ p, w.pools x.request = some p ∧
      (p.life = .live → x.posted = true ∨ .popPosted f ∈ tr) := by
  refine Lib.Machine.run_induction (J := fun tr w => ∀ x, w.fins f = some x → ∃ p, w.pools x.request = some p ∧
    (p.life = .live → x.posted = true ∨ .popPosted f ∈ tr)) ?_ ?_ h
  · intro w hw x hx
    obtain ⟨s, -, rfl⟩ := hw
    cases hx
  · intro tr w a w' hrun ih hst x' hx'
    have hs := step_inv hst
    cases hx : w.fins f with
    | none =>
      obtain rfl := fin_born hs hx hx'
      have hst : step w (.finalize f x'.request x'.rc) = some w' := hst
      cases step_inv hst with
      | finalize _ _ _ p hp _ _ _ =>
        have hpo := congrArg (Option.map Finalization.posted) hx'
        exact ⟨_, Function.update_self _ _ _, fun _ => Or.inl (by simpa using hpo.symm)⟩
    | some x =>
      obtain ⟨y, hy, hreq, -⟩ := fin_step hs hx
      rw [hx'] at hy
      cases hy
      obtain ⟨p, hp, hpo⟩ := ih x hx
      obtain ⟨p', hp', -, hlife⟩ := pool_step hs hp
      rw [hreq]
      refine ⟨p', hp', fun hl => ?_⟩
      have hl₀ : p.life = .live := by
        rcases hlife with h | ⟨-, -, h⟩ | ⟨-, -, h⟩
        · rw [← h]; exact hl
        · rw [hl] at h; cases h
        · rw [hl] at h; cases h
      rcases hpo hl₀ with h | h
      · rcases posted_step hs hx hx' h with h | rfl | ⟨r, q, rest, hc, hq, hm⟩
        · exact Or.inl h
        · exact Or.inr (by simp)
        · -- the pool that cleans it up is its request's, and that one is live
          obtain ⟨z, hz, rfl⟩ := (postedOk_invariant.run hrun).owned r q f hq hm
          rw [hx] at hz
          cases hz
          have hd := (dying_invariant.run hrun).of_frame (by rw [hc]; exact List.mem_cons_self)
          simp [St.dying, hp, hl₀] at hd
      · exact Or.inr (List.mem_append_left _ h)

/-- What `fini` gives to `ngx_http_finalize_request` is the call's. -/
theorem answers_run {tr : List (Act P)} {w : St A P} (h : (machine A P).Run tr w) :
    ∀ f r rc c, .fini f (.finalizing r rc c) ∈ tr → ∃ x, w.fins f = some x ∧ x.request = r ∧ x.rc = rc := by
  refine Lib.Machine.run_induction (J := fun tr w => ∀ f r rc c, .fini f (.finalizing r rc c) ∈ tr →
    ∃ x, w.fins f = some x ∧ x.request = r ∧ x.rc = rc) ?_ ?_ h
  · intro w _ f r rc c hm
    cases hm
  · intro tr w a w' hrun ih hst f r rc c hm
    have hs := step_inv hst
    rcases List.mem_append.mp hm with hm | hm
    · obtain ⟨x, hx, h1, h2⟩ := ih f r rc c hm
      obtain ⟨x', hx', h3, h4⟩ := fin_step hs hx
      exact ⟨x', hx', h3.trans h1, h4.trans h2⟩
    · obtain rfl := List.mem_singleton.mp hm
      obtain ⟨x, p, hx, -, -, he⟩ := fini_live (finiOk_run hrun) hs (Or.inr ⟨r, rc, c, rfl⟩)
      obtain ⟨h1, h2, -⟩ := he r rc c rfl
      obtain ⟨x', hx', h3, h4⟩ := fin_step hs hx
      exact ⟨x', hx', h3.trans h1.symm, h4.trans h2.symm⟩

/-! ## One step of a served request -/

theorem ended_step {w w' : St A P} {a : Act P} {r : ReqId} (h : Step w a w') (he : w.ended r) : w'.ended r := by
  obtain ⟨f, x, hx, rfl⟩ := he
  obtain ⟨x', hx', hr, -⟩ := fin_step h hx
  exact ⟨f, x', hx', hr⟩

theorem ended_born {w w' : St A P} {a : Act P} {f : FinId} {x' : Finalization} (h : Step w a w')
    (hx' : w'.fins f = some x') :
    (∃ x, w.fins f = some x ∧ x.request = x'.request) ∨ a = .finalize f x'.request x'.rc := by
  cases hx : w.fins f with
  | none => exact Or.inr (fin_born h hx hx')
  | some x =>
    obtain ⟨y, hy, hr, -⟩ := fin_step h hx
    rw [hx'] at hy
    cases hy
    exact Or.inl ⟨x, rfl, hr.symm⟩

omit [DecidableEq P] in
theorem Cell.Later.on {c c' : Cell A} {r : ReqId} (h : c.Later c') : c'.On r ↔ c.On r := by
  rw [Cell.On, Cell.On, h.ok, h.req]

/-- A task with a handle on `r` was there, or is being spawned. -/
theorem on_born {w w' : St A P} {a : Act P} {k : TaskId} {c' : Cell A} {r : ReqId} (h : Step w a w')
    (hc' : w'.cells k = some c') (hon : c'.On r) :
    (∃ c, w.cells k = some c ∧ c.On r) ∨ w.cells k = none ∧ a = .requestSpawn r k true := by
  cases hc : w.cells k with
  | none =>
    refine Or.inr ⟨rfl, ?_⟩
    obtain ⟨-, ⟨-, hr⟩ | ⟨⟨q, rfl, hr⟩, -⟩ | ho⟩ := cell_born h hc hc'
    · rw [hon.2] at hr; cases hr
    · rw [hon.2] at hr; cases hr; rfl
    · rw [hon.1] at ho; cases ho
  | some c =>
    obtain ⟨d, hd, hl, -⟩ := cell_step h hc
    rw [hc'] at hd
    cases hd
    exact Or.inl ⟨c, rfl, hl.on.mp hon⟩

section

variable {all : Bool} {attached : A.State → Prop} {w w' : St A P} {a : Act P}

theorem once_step (hS : Served all attached w) (hC : Serves all w a) (hst : Step w a w') :
    ∀ r k c k' c', w'.cells k = some c → w'.cells k' = some c' → c.On r → c'.On r → k = k' := by
  intro r k c k' c' hc hc' hon hon'
  rcases on_born hst hc hon with ⟨d, hd, hdon⟩ | ⟨-, rfl⟩
  · rcases on_born hst hc' hon' with ⟨d', hd', hdon'⟩ | ⟨-, rfl⟩
    · exact hS.once r k d k' d' hd hd' hdon hdon'
    · exact absurd hdon (hC.2 k d hd)
  · rcases on_born hst hc' hon' with ⟨d', hd', hdon'⟩ | ⟨-, h⟩
    · exact absurd hdon' (hC.2 k' d' hd')
    · cases h; rfl

theorem one_step (hS : Served all attached w) (hC : Serves all w a) (hst : Step w a w') :
    ∀ f x f' x', w'.fins f = some x → w'.fins f' = some x' → x.request = x'.request → f = f' := by
  intro f x f' x' hx hx' hr
  rcases ended_born hst hx with ⟨y, hy, hyr⟩ | rfl
  · rcases ended_born hst hx' with ⟨y', hy', hyr'⟩ | rfl
    · exact hS.one f y f' y' hy hy' (hyr.trans (hr.trans hyr'.symm))
    · exact absurd ⟨f, y, hy, hyr.trans hr⟩ hC.1
  · rcases ended_born hst hx' with ⟨y', hy', hyr'⟩ | h
    · exact absurd ⟨f', y', hy', hyr'.trans hr.symm⟩ hC.1
    · exact (Act.finalize.inj h).1

omit [DecidableEq P] in
/-- After the call a task only returns. -/
theorem ending_step {k : TaskId} {φ φ' : Phase P} {c : Cell A} {r : ReqId} (hC : Serves all w a)
    (hc : w.cells k = some c) (hon : c.On r) (he : w.ended r) (hφ : φ.ending = true) (hm : Moves k a φ φ') :
    φ'.ending = true := by
  cases hm with
  | again => exact absurd he (hC c r hc hon)
  | sleep => exact absurd he (hC c r hc hon)
  | pending => exact absurd he (hC c r hc hon)
  | ready => rfl
  | dropDone why => rfl
  | _ => cases hφ

theorem made_step (hS : Served all attached w) (hC : Serves all w a) (hf : ∀ k, ∃ φ, Fits w k φ) (hst : Step w a w') :
    ∀ f x, w'.fins f = some x → ∃ k c φ, w'.cells k = some c ∧ c.On x.request ∧ Fits w' k φ ∧ φ.ending = true := by
  intro f x' hx'
  rcases ended_born hst hx' with ⟨x, hx, hr⟩ | rfl
  · obtain ⟨k, c, φ, hc, hon, hφ, he⟩ := hS.made f x hx
    obtain ⟨c', hc', hl, -⟩ := cell_step hst hc
    obtain ⟨φ', hφ', hm⟩ := fits_step hφ hst
    refine ⟨k, c', φ', hc', hr ▸ hl.on.mpr hon, hφ', ?_⟩
    rcases hm with hm | ⟨-, rfl⟩
    · exact ending_step hC hc hon ⟨f, x, hx, rfl⟩ he hm
    · exact he
  · obtain ⟨-, k, c, hk, hc, hon⟩ := hC
    obtain ⟨φ, hφ⟩ := hf k
    obtain ⟨rfl, -⟩ := hφ.polling hk
    obtain ⟨c', hc', hl, -⟩ := cell_step hst hc
    obtain ⟨φ', hφ', hm | ⟨-, rfl⟩⟩ := fits_step hφ hst
    · cases hm
    · exact ⟨k, c', _, hc', hl.on.mpr hon, hφ', rfl⟩

/-- A pool that is live was live before the step, or is new. -/
theorem live_step {r : ReqId} {p p' : Pool} (hst : Step w a w') (hp : w.pools r = some p) (hp' : w'.pools r = some p')
    (hl : p'.life = .live) : p.life = .live := by
  obtain ⟨q, hq, -, h | ⟨-, -, h⟩ | ⟨-, -, h⟩⟩ := pool_step hst hp
  · rw [hp'] at hq
    cases hq
    rw [← h]
    exact hl
  · rw [hp'] at hq
    cases hq
    rw [hl] at h
    cases h
  · rw [hp'] at hq
    cases hq
    rw [hl] at h
    cases h

/-- A live request's task is cleaned up by no pool. -/
theorem live_no_cleanup {k : TaskId} {c : Cell A} {r q : ReqId} {p : Pool} {handed : Bool} (hd : Dying w)
    (hreg : Registered w) (hst : Step w (.cleanup q (.task k) handed) w') (hc : w.cells k = some c) (hon : c.On r)
    (hp : w.pools r = some p) (hl : p.life = .live) : False := by
  have key : ∀ p₀ cs rest, w.cont .main = .destroy q :: rest → w.pools q = some p₀ → p₀.cleanups = .task k :: cs →
      False := by
    intro p₀ cs rest hcont hp₀ hcs
    obtain ⟨d, hd', hreq⟩ := hreg q p₀ k hp₀ (by rw [hcs]; exact List.mem_cons_self)
    rw [hc] at hd'
    cases hd'
    rw [hon.2] at hreq
    cases hreq
    have := hd.of_frame (by rw [hcont]; exact List.mem_cons_self)
    simp [St.dying, hp, hl] at this
  cases hst with
  | cleanupTask _ _ _ p₀ cs rest _ _ h1 _ h2 h3 _ _ _ _ => exact key p₀ cs rest h1 h2 h3
  | cleanupTaken _ _ p₀ cs rest _ h1 _ h2 h3 _ _ => exact key p₀ cs rest h1 h2 h3

theorem held_step (hA : A.Handled attached) (hS : Served all attached w) (hC : Serves all w a) (hd : Dying w)
    (hreg : Registered w) (hst : Step w a w') :
    ∀ k c r, w'.cells k = some c → c.On r → ∃ p, w'.pools r = some p ∧
      (p.life = .live → c.handle = .slot ∧ attached c.st ∧ (A.bits c.st).closed = false) := by
  intro k c' r hc' hon'
  rcases on_born hst hc' hon' with ⟨c, hc, hon⟩ | ⟨-, rfl⟩
  · obtain ⟨p, hp, hheld⟩ := hS.held k c r hc hon
    obtain ⟨p', hp', -⟩ := pool_step hst hp
    refine ⟨p', hp', fun hl => ?_⟩
    have hl₀ := live_step hst hp hp' hl
    obtain ⟨hslot, hatt, hcl⟩ := hheld hl₀
    obtain ⟨d, hd', hs⟩ := cell_inv hst hc
    rw [hc'] at hd'
    cases hd'
    cases hs with
    | keep => exact ⟨hslot, hatt, hcl⟩
    | begin polls => exact ⟨hslot, hA.begin _ hatt, by rw [(A.begin_keeps c.st).1]; exact hcl⟩
    | pending again h => exact ⟨hslot, hA.pending _ hatt, by rw [(A.pending_keeps h).1]; exact hcl⟩
    | dropped why => exact ⟨hslot, hA.dropped _ _ hatt, by rw [hA.dropped_closed_eq hatt]; exact hcl⟩
    | op t o handed h ho =>
      have hw := hC c r hc hon
      refine ⟨?_, hA.op _ _ hatt ?_ ?_, by rw [hA.waker_closed hatt hw]; exact hcl⟩
      · rw [after_waker hw, hslot] at ho
        exact (Option.some.inj ho).symm
      · rintro rfl; cases hw
      · rintro rfl; cases hw
    | cleanup q handed _ => exact (live_no_cleanup hd hreg hst hc hon hp hl₀).elim
  · cases hst with
    | requestSpawn _ _ p s hp _ _ _ _ =>
      obtain rfl : ⟨A.spawn, true, some r, true, .slot⟩ = c' := by simpa using hc'
      exact ⟨_, Function.update_self _ _ _, fun _ => ⟨rfl, hA.spawn, by rw [A.spawn_bits]; rfl⟩⟩

/-- A live request's task is dropped only once it has returned Ready. -/
theorem Served.ready_drop (hS : Served all attached w) {k : TaskId} {c : Cell A} {r : ReqId} {p : Pool} {why : Why}
    (hc : w.cells k = some c) (hon : c.On r) (hp : w.pools r = some p) (hl : p.life = .live)
    (hφ : Fits w k (.dropping why)) : why = .ready := by
  obtain ⟨q, hq, hheld⟩ := hS.held k c r hc hon
  rw [hp] at hq
  cases hq
  have hcl := (hheld hl).2.2
  have hok := (hφ.ok c hc).1
  cases why with
  | ready => rfl
  | _ => simp [Phase.Ok, hcl] at hok

theorem Fits.returned_iff {k : TaskId} {φ : Phase P} {c : Cell A} (h : Fits w k φ) (hc : w.cells k = some c) :
    c.live = false ∨ .drop k .ready ∈ w.cont .main ↔ φ = .finished ∨ φ = .dropping .ready := by
  have hm : .drop k .ready ∈ w.cont .main ↔ .drop k .ready ∈ φ.frames k := by
    rw [← h.frames]
    simp [framesOf, Frame.code]
  rw [(h.ok c hc).2, hm]
  cases φ with
  | dropping why => cases why <;> simp [Phase.live, Phase.frames]
  | _ => simp [Phase.live, Phase.frames]

theorem called_step (hS : Served all attached w) (hC : Serves all w a) (hf : ∀ k, ∃ φ, Fits w k φ) (hst : Step w a w') :
    all = true → ∀ k c r p, w'.cells k = some c → c.On r → w'.pools r = some p → p.life = .live →
      c.live = false ∨ .drop k .ready ∈ w'.cont .main → w'.ended r := by
  intro hall k c' r p' hc' hon' hp' hl hret
  obtain ⟨φ, hφ⟩ := hf k
  obtain ⟨φ', hφ', hm⟩ := fits_step hφ hst
  rw [hφ'.returned_iff hc'] at hret
  rcases on_born hst hc' hon' with ⟨c, hc, hon⟩ | ⟨hnone, rfl⟩
  · obtain ⟨p, hp, -⟩ := hS.held k c r hc hon
    have hl₀ := live_step hst hp hp' hl
    have called := hS.called hall k c r p hc hon hp hl₀
    rw [hφ.returned_iff hc] at called
    refine ended_step hst ?_
    rcases hm with hm | ⟨-, rfl⟩
    · cases hm with
      | ready => exact hC hall c r hc hon
      | dropDone why =>
        obtain rfl := hS.ready_drop hc hon hp hl₀ hφ
        exact called (Or.inr rfl)
      | _ => simp at hret
    · exact called hret
  · rw [hφ.unborn.mpr hnone] at hm
    rcases hm with hm | ⟨hm, -⟩
    · cases hm with
      | requestSpawn => simp at hret
    · simp [Act.moves] at hm

theorem served_step (hA : A.Handled attached) (hS : Served all attached w) (hC : Serves all w a) (hd : Dying w)
    (hreg : Registered w) (hf : ∀ k, ∃ φ, Fits w k φ) (hst : Step w a w') : Served all attached w' where
  once := once_step hS hC hst
  one := one_step hS hC hst
  made := made_step hS hC hf hst
  held := held_step hA hS hC hd hreg hst
  called := called_step hS hC hf hst

end

/-! ## Every run -/

theorem served_run {all : Bool} {attached : A.State → Prop} (hA : A.Handled attached) {tr : List (Act P)} {w : St A P}
    (h : (machine A P).RunIf (Serves all) tr w) : Served all attached w := by
  refine Lib.Machine.runIf_induction (J := fun _ w => Served all attached w) ?_ ?_ h
  · intro w hw
    obtain ⟨s, -, rfl⟩ := hw
    exact ⟨fun r k c k' c' hc => (nomatch hc), fun f x f' x' hx => (nomatch hx), fun f x hx => (nomatch hx),
      fun k c r hc => (nomatch hc), fun _ k c r p hc => (nomatch hc)⟩
  · intro tr w a w' hrun hS hC hst
    have hr := hrun.run
    exact served_step hA hS hC (dying_invariant.run hr) (registered_invariant.run hr) (fits_run hr) (step_inv hst)

/-- All answers of a request are those of its one call. -/
theorem answers_of_call {all : Bool} {attached : A.State → Prop} {tr : List (Act P)} {w : St A P}
    (hS : Served all attached w) (hr : (machine A P).Run tr w) {f : FinId} {x : Finalization} (hx : w.fins f = some x) :
    tr.countP (Act.answers x.request) = tr.countP (Act.finalizes f) := by
  refine List.countP_congr fun a ha => ?_
  cases a with
  | fini g b =>
    cases b with
    | finalizing r rc c =>
      obtain ⟨y, hy, rfl, -⟩ := answers_run hr g r rc c ha
      simp only [Act.answers, Act.finalizes, beq_iff_eq]
      constructor
      · intro he
        exact hS.one g y f x hy hx he
      · rintro rfl
        rw [hx] at hy
        cases hy
        rfl
    | _ => exact Iff.rfl
  | _ => exact Iff.rfl

theorem no_answer {tr : List (Act P)} {w : St A P} (hr : (machine A P).Run tr w) {r : ReqId} (h : ¬ w.ended r) :
    tr.countP (Act.answers r) = 0 := by
  refine List.countP_eq_zero.mpr fun a ha hans => h ?_
  cases a with
  | fini g b =>
    cases b with
    | finalizing q rc c =>
      obtain ⟨x, hx, hq, -⟩ := answers_run hr g q rc c ha
      exact ⟨g, x, hx, hq.trans (by simpa [Act.answers] using hans)⟩
    | _ => cases hans
  | _ => cases hans

/-- At rest a call on an open request has been answered. -/
theorem call_answered {tr : List (Act P)} {w : St A P} (hr : (machine A P).Run tr w) (hrest : AtRest w) {f : FinId}
    {x : Finalization} {p : Pool} (hx : w.fins f = some x) (hp : w.pools x.request = some p) (hl : p.life = .live) :
    tr.countP (Act.finalizes f) = 1 := by
  have hpo : x.posted = false := by
    cases h : x.posted with
    | false => rfl
    | true =>
      have := ((postedOk_invariant.run hr).linked f).mpr ⟨x, hx, h⟩
      rw [hrest.posted] at this
      cases this
  obtain ⟨q, hq, hd⟩ := dispatched_run hr f x hx
  rw [hp] at hq
  cases hq
  rcases hd hl with h | h
  · rw [hpo] at h; cases h
  · have h1 := finalizes_run hr f
    have h2 := (pops_run hr f).2
    have h3 : 0 < tr.count (.popPosted f) := List.count_pos_iff.mpr h
    rw [hrest.returned .main, List.countP_nil] at h1
    omega

/-- Every served request is finalized at most once, with the status its task gave. At
    rest, one that is open is finalized, unless its task waits, or has failed and its
    errors are not answered. -/
theorem answered_once {all : Bool} {attached : A.State → Prop} (hA : A.Handled attached) {tr : List (Act P)} {w : St A P}
    (h : (machine A P).RunIf (Serves all) tr w) :
    (∀ r, tr.countP (Act.answers r) ≤ 1) ∧
    (∀ f r rc g rc' c, .finalize f r rc ∈ tr → .fini g (.finalizing r rc' c) ∈ tr → g = f ∧ rc' = rc) ∧
    (AtRest w → ∀ r p k c, w.pools r = some p → p.life = .live → w.cells k = some c → c.On r →
      (c.live = true → (A.bits c.st).Idle ∧ tr.countP (Act.answers r) = 0) ∧
      (c.live = false → all = true → tr.countP (Act.answers r) = 1) ∧
      (tr.countP (Act.answers r) = 1 ↔ ∃ f rc, .finalize f r rc ∈ tr)) := by
  have hS := served_run hA h
  have hr := h.run
  refine ⟨fun r => ?_, fun f r rc g rc' c hf hg => ?_, fun hrest r p k c hp hl hc hon => ?_⟩
  · by_cases he : w.ended r
    · obtain ⟨f, x, hx, rfl⟩ := he
      rw [answers_of_call hS hr hx]
      have h1 := finalizes_run hr f
      have h2 := (pops_run hr f).2
      omega
    · rw [no_answer hr he]
      exact Nat.zero_le 1
  · obtain ⟨x, hx, rfl, rfl⟩ := finalize_run hr f r rc hf
    obtain ⟨y, hy, hyr, rfl⟩ := answers_run hr g x.request rc' c hg
    obtain rfl := hS.one g y f x hy hx hyr
    rw [hx] at hy
    cases hy
    exact ⟨rfl, rfl⟩
  · have one_of_ended : w.ended r → tr.countP (Act.answers r) = 1 := by
      rintro ⟨f, x, hx, rfl⟩
      rw [answers_of_call hS hr hx]
      exact call_answered hr hrest hx hp hl
    refine ⟨fun hlive => ⟨hrest.waiting k c hc hlive, no_answer hr fun he => ?_⟩, fun hlive hall => ?_, ?_, ?_⟩
    · -- a task that made the call has returned
      obtain ⟨f, x, hx, rfl⟩ := he
      obtain ⟨j, d, φ, hd, hdon, hφ, hend⟩ := hS.made f x hx
      obtain rfl := hS.once x.request j d k c hd hc hdon hon
      rw [hc] at hd
      cases hd
      have hnil := hφ.frames_nil (hrest.returned .main)
      rw [(hφ.ok c hc).2] at hlive
      cases φ with
      | polling => cases hnil
      | dropping why => cases hnil
      | finished => cases hlive
      | _ => cases hend
    · exact one_of_ended (hS.called hall k c r p hc hon hp hl (Or.inl hlive))
    · intro h1
      by_contra hne
      have : ¬ w.ended r := by
        rintro ⟨f, x, hx, rfl⟩
        exact hne ⟨f, x.rc, fin_run hr f x hx⟩
      rw [no_answer hr this] at h1
      cases h1
    · rintro ⟨f, rc, hf⟩
      obtain ⟨x, hx, hxr, -⟩ := finalize_run hr f r rc hf
      exact one_of_ended ⟨f, x, hx, hxr⟩

/-! ## An answered request, and one whose body failed -/

/-- The act is none of the handler's and of its task's. -/
def Act.free : Act P → Bool
  | .requestSpawn _ _ true | .op .. | .finalize .. | .pollPending .. | .pollReady _ => false
  | _ => true

omit [DecidableEq P] in
theorem serves_of_free {all : Bool} {w : St A P} {a : Act P} (h : a.free = true) : Serves all w a := by
  unfold Serves
  split
  case h_6 => trivial
  all_goals cases h

/-- Task 7 of request 1 is spawned by its handler, and polled. -/
def handled : List (Act Nat) :=
  [.newRequest 1 0, .requestSpawn 1 7 true, .core (.send .main 7), .core (.cas .main true), .core (.write .main),
   .core .enter, .core .drain, .core .clear, .core (.load 8), .core (.isEmpty false), .core (.tryRecv (some 7)),
   .run 7 true]

/-- It returns; the handler finds nothing more to run. -/
def returns : List (Act Nat) :=
  [.pollReady 7, .dropDone 7 .ready, .glueDone .main, .core (.ret 7 false), .core (.tryRecv none)]

/-- The event loop calls `fini`. -/
def answered : List (Act Nat) :=
  [.popPosted 3, .fini 3 (.read 1 204 0), .fini 3 (.finalizing 1 204 0), .fini 3 (.returned 0), .fini 3 (.draining 0),
   .finiDone 3]

theorem handled_serves (all : Bool) :
    ∃ m, (machine .plain Nat).exec fresh handled = some m ∧ (machine .plain Nat).Meets (Serves all) fresh handled ∧
      m.cont .main = [.poll 7] ∧ (∀ f, m.fins f = none) ∧ ∃ c, m.cells 7 = some c ∧ c.On 1 := by
  obtain ⟨m₁, h1, hpool, hcells⟩ : ∃ m₁, (machine .plain Nat).step fresh (.newRequest 1 0) = some m₁ ∧
      (∀ p, m₁.pools 1 = some p → p.life = .live) ∧ ∀ k, m₁.cells k = none := by
    refine ⟨_, rfl, fun p hp => ?_, fun k => rfl⟩
    cases hp
    rfl
  obtain ⟨m₂, h2⟩ : ∃ m₂, (machine .plain Nat).step m₁ (.requestSpawn 1 7 true) = some m₂ := by
    cases h1
    exact ⟨_, rfl⟩
  refine ⟨_, rfl, .cons (serves_of_free rfl) h1 (.cons ⟨hpool, fun k c hc => ?_⟩ h2 ?_), rfl, fun f => rfl, _, rfl, rfl,
    rfl⟩
  · rw [hcells k] at hc
    cases hc
  · have free : ∀ a ∈ handled.tail.tail, a.free = true := by decide
    exact Lib.Machine.meets_of_events fun a ha _ => serves_of_free (free a ha)

theorem answered_once_handled :
    ∃ w, (machine .plain Nat).RunIf (Serves true) (handled ++ .finalize 3 1 204 :: (returns ++ answered)) w ∧ AtRest w ∧
      (handled ++ .finalize 3 1 204 :: (returns ++ answered)).countP (Act.answers 1) = 1 := by
  obtain ⟨m, hm, hmeets, hcont, hfins, c, hc, hon⟩ := handled_serves true
  obtain ⟨n, hn, hend, hreq⟩ : ∃ n, (machine .plain Nat).step m (.finalize 3 1 204) = some n ∧ n.ended 1 ∧
      ∀ d, n.cells 7 = some d → d.req = some 1 := by
    cases hm
    refine ⟨_, rfl, ⟨3, _, rfl, rfl⟩, fun d hd => ?_⟩
    cases hd
    rfl
  obtain ⟨v, hv⟩ : ∃ v, (machine .plain Nat).step n (.pollReady 7) = some v := by
    cases hm
    cases hn
    exact ⟨_, rfl⟩
  obtain ⟨w, hw, hs, hret, hq, p, hp, hl, d, hd, hdon, hdl⟩ : ∃ w,
      (machine .plain Nat).exec v (returns.tail ++ answered) = some w ∧ Sleeps w ∧ (∀ t, w.cont t = []) ∧ w.posted = [] ∧
        ∃ p, w.pools 1 = some p ∧ p.life = .live ∧ ∃ d, w.cells 7 = some d ∧ d.On 1 ∧ d.live = false := by
    cases hm
    cases hn
    cases hv
    refine ⟨_, rfl, ⟨rfl, rfl, fun t => ?_, rfl⟩, fun t => ?_, rfl, _, rfl, rfl, _, rfl, ⟨rfl, rfl⟩, rfl⟩
    · cases t <;> rfl
    · cases t <;> rfl
  have h1 := Lib.Machine.steps_of_exec hm
  have free : ∀ a ∈ returns.tail ++ answered, a.free = true := by decide
  have hfin : Serves true m (.finalize 3 1 204) := by
    refine ⟨fun he => ?_, 7, c, hcont, hc, hon⟩
    obtain ⟨f, x, hx, -⟩ := he
    rw [hfins f] at hx
    cases hx
  have hready : Serves true n (.pollReady 7) := by
    intro _ e r he her
    have := (hreq e he).symm.trans her.2
    cases this
    exact hend
  have hrun : (machine .plain Nat).RunIf (Serves true) (handled ++ .finalize 3 1 204 :: (returns ++ answered)) w :=
    ⟨fresh, fresh_init, h1.append (.cons hn (.cons hv (Lib.Machine.steps_of_exec hw))), hmeets.append h1 (.cons hfin hn
      (.cons hready hv (Lib.Machine.meets_of_events fun a ha _ => serves_of_free (free a ha))))⟩
  have hrest := hs.rest hrun.run hret hq
  exact ⟨w, hrun, hrest, ((answered_once Task.AsyncTask.plain_handled hrun).2.2 hrest 1 p 7 d hp hl hd hdon).2.1 hdl rfl⟩

/-- The body fails and its `?` returns: the request stays open at rest, and nobody
    finalizes it. -/
theorem failed_body_hangs :
    ∃ w, (machine .plain Nat).RunIf (Serves false) (handled ++ returns) w ∧ AtRest w ∧
      (∃ p, w.pools 1 = some p ∧ p.life = .live) ∧ (∃ c, w.cells 7 = some c ∧ c.On 1 ∧ c.live = false) ∧
      (handled ++ returns).countP (Act.answers 1) = 0 := by
  obtain ⟨m, hm, hmeets, -⟩ := handled_serves false
  obtain ⟨w, hw, hs, hret, hq, hpool, hcell⟩ : ∃ w, (machine .plain Nat).exec m returns = some w ∧ Sleeps w ∧
      (∀ t, w.cont t = []) ∧ w.posted = [] ∧ (∃ p, w.pools 1 = some p ∧ p.life = .live) ∧
        ∃ c, w.cells 7 = some c ∧ c.On 1 ∧ c.live = false := by
    cases hm
    refine ⟨_, rfl, ⟨rfl, rfl, fun t => ?_, rfl⟩, fun t => ?_, rfl, ⟨_, rfl, rfl⟩, _, rfl, ⟨rfl, rfl⟩, rfl⟩
    · cases t <;> rfl
    · cases t <;> rfl
  have h1 := Lib.Machine.steps_of_exec hm
  have h2 := Lib.Machine.steps_of_exec hw
  have served : ∀ a ∈ returns, ∀ v : St .plain Nat, Serves false v a := by
    intro a ha v
    simp only [returns, List.mem_cons, List.not_mem_nil, or_false] at ha
    rcases ha with rfl | rfl | rfl | rfl | rfl
    · intro h
      cases h
    · trivial
    · trivial
    · trivial
    · trivial
  have hrun : (machine .plain Nat).RunIf (Serves false) (handled ++ returns) w :=
    ⟨fresh, fresh_init, h1.append h2, hmeets.append h1 (Lib.Machine.meets_of_events served)⟩
  exact ⟨w, hrun, hs.rest hrun.run hret hq, hpool, hcell, rfl⟩

end NgxTickle.Worker
