/-
  NgxTickle.Worker.Finalize — what posting a finalization, in place of finalizing, is
  for (`src/finalize.rs`).

  (1) `fini` never runs under a poll (`fini_polls`): it is dispatched from the event
  loop, so while it, or anything it calls, is on the stack no future is being polled;
  and a task that finalizes its request and returns Ready in that poll has been dropped
  before `fini` for that call starts.

  (2) A posted finalization does not outlive its request (`posted_finalizations`): a
  linked event's pool is not freed; `fini` runs at most once for each call, with the
  call's request and rc, on a live request; no access is to freed memory
  (`St.touches`); and once `ngx_http_finalize_request` has returned, what `fini` does is
  a function of the connection alone.
-/

import NgxTickle.Worker.Phase
import NgxTickle.Worker.Posted

namespace NgxTickle.Worker

open NgxTickle.Task
open NgxTickle.Sched (Thread Pc Handler)

variable {A : AsyncTask} {P : Type}

/-! ## Polls and `fini` -/

/-- The poll of `k` on the stack returns. -/
def Act.endsPoll (k : TaskId) : Act P → Bool
  | .pollReady j | .pollPending j _ _ => j == k
  | _ => false

/-- Over `fini` there is no poll: `fini` lies on the event loop, a poll on a run. -/
theorem Stacked.fini_alone {w : St A P} (hw : Stacked w) {f : FinId} {a : FiniAt} (hf : .fini f a ∈ w.cont .main) :
    w.core.handler = .idle ∧ ∀ k, .poll k ∉ w.cont .main := by
  obtain ⟨pre, post, he⟩ := List.append_of_mem hf
  have hb := hw.based
  rw [he] at hb
  have hidle : w.core.handler = .idle := hb.on.2
  refine ⟨hidle, fun k hk => ?_⟩
  obtain ⟨pre', post', he'⟩ := List.append_of_mem hk
  rcases hw.code pre' post' he' rfl with ⟨-, hi⟩ | h
  · rw [hidle] at hi; cases hi
  · cases h

variable [DecidableEq P]

theorem Fits.polling_of_mem {w : St A P} {k : TaskId} {φ : Phase P} (h : Fits w k φ) (hk : .poll k ∈ w.cont .main) :
    φ = .polling := by
  have hm : .poll k ∈ framesOf k (w.cont .main) := List.mem_filter.mpr ⟨hk, by simp [Frame.code]⟩
  rw [h.frames] at hm
  cases φ with
  | polling => rfl
  | dropping why => simp [Phase.frames] at hm
  | _ => cases hm

/-- A poll goes on until it returns. -/
theorem polling_step {w w' : St A P} {a : Act P} {k : TaskId} (h : Fits w k .polling) (hst : Step w a w')
    (ha : Act.endsPoll k a = false) : Fits w' k .polling := by
  obtain ⟨φ', h', hm | ⟨-, rfl⟩⟩ := fits_step h hst
  · cases hm <;> simp [Act.endsPoll] at ha
  · exact h'

/-- The future of `k` returned Ready: it is being dropped, or its task has completed. -/
def Ready (w : St A P) (k : TaskId) : Prop :=
  Fits w k (.dropping .ready) ∨ Fits w k .finished ∧ ∃ c, w.cells k = some c ∧ (A.bits c.st).completed = true

theorem ready_step {w w' : St A P} {a : Act P} {k : TaskId} (h : Ready w k) (hst : Step w a w') : Ready w' k := by
  rcases h with h | ⟨h, c, hc, hcom⟩
  · obtain ⟨φ', h', hm | ⟨-, rfl⟩⟩ := fits_step h hst
    · cases hm with
      | dropDone =>
        right
        refine ⟨h', ?_⟩
        cases hst with
        | dropDone _ _ c rest hc _ _ => exact ⟨_, Function.update_self _ _ _, A.dropped_ready c.st⟩
    · exact Or.inl h'
  · obtain ⟨c', hc', hl, -⟩ := cell_step hst hc
    obtain ⟨φ', h', hm | ⟨-, rfl⟩⟩ := fits_step h hst
    · cases hm
    · exact Or.inr ⟨h', c', hc', hl.completed hcom⟩

theorem Fits.frames_nil {w : St A P} {k : TaskId} {φ : Phase P} (h : Fits w k φ) (hc : w.cont .main = []) :
    φ.frames k = [] := by
  have hf := h.frames
  rw [hc] at hf
  exact hf.symm

/-- A poll has returned by the time the stack is empty. -/
theorem polling_ends {m w : St A P} {post : List (Act P)} {k : TaskId} (h : Fits m k .polling)
    (hs : (machine A P).Steps m post w) (hc : w.cont .main = []) : ∃ e ∈ post, Act.endsPoll k e = true := by
  by_contra hne
  have key : (∀ e ∈ post, Act.endsPoll k e = false) → Fits w k .polling := by
    refine Lib.Machine.steps_induction
      (J := fun post w => (∀ e ∈ post, Act.endsPoll k e = false) → Fits w k .polling) (fun _ => h) ?_ hs
    intro tr v a v' _ ih hst hall
    exact polling_step (ih fun e he => hall e (List.mem_append_left _ he)) (step_inv hst) (hall a (by simp))
  have hfit := key fun e he => by
    by_cases he' : Act.endsPoll k e = true
    · exact absurd ⟨e, he, he'⟩ hne
    · simpa using he'
  cases hfit.frames_nil hc

/-- What is Ready has been dropped by the time the stack is empty. -/
theorem ready_ends {m w : St A P} {rest : List (Act P)} {k : TaskId} (h : Ready m k)
    (hs : (machine A P).Steps m rest w) (hc : w.cont .main = []) :
    ∃ c, w.cells k = some c ∧ c.live = false ∧ (A.bits c.st).completed = true := by
  have hw : Ready w k :=
    Lib.Machine.steps_induction (J := fun _ w => Ready w k) h (fun _ _ _ _ _ h hst => ready_step h (step_inv hst)) hs
  rcases hw with hf | ⟨hf, c, hck, hcom⟩
  · cases hf.frames_nil hc
  · exact ⟨c, hck, (hf.ok c hck).2, hcom⟩

/-- While `fini` is on the stack no future is being polled. And if a task's poll calls
    `finalize_request`, that poll has returned before `fini` for the call starts; if it
    returned Ready, the task has completed and its future has been dropped. -/
theorem fini_polls :
    (∀ w : St A P, (machine A P).Reach w → ∀ t f a, .fini f a ∈ w.cont t → ∀ u k, .poll k ∉ w.cont u) ∧
    ∀ (pre post : List (Act P)) (m w w' : St A P) k f r rc, (machine A P).Run pre m → .poll k ∈ m.cont .main →
      (machine A P).Steps m (.finalize f r rc :: post) w → step w (.popPosted f) = some w' →
      ∃ mid e rest, post = mid ++ e :: rest ∧ (∀ b ∈ mid, Act.endsPoll k b = false) ∧ Act.endsPoll k e = true ∧
        (e = .pollReady k → ∃ c, w.cells k = some c ∧ c.live = false ∧ (A.bits c.st).completed = true) := by
  constructor
  · intro w h t f a hf u k hk
    have hw := stacked_invariant.reach h
    have main : ∀ (v : Thread P) (g : Frame), g ∈ w.cont v → g ≠ .glue → v = .main := by
      intro v g hg hne
      cases v with
      | main => rfl
      | other p => exact absurd (hw.other p g hg) hne
    obtain rfl := main t _ hf (by simp)
    obtain rfl := main u _ hk (by simp)
    exact (hw.fini_alone hf).2 k hk
  · intro pre post m w w' k f r rc hpre hk hs hpop
    obtain ⟨m₁, hm₁, hpost⟩ := Lib.Machine.steps_cons.mp hs
    obtain ⟨φ, hφ⟩ := fits_run hpre k
    obtain rfl := hφ.polling_of_mem hk
    have h1 : step m (.finalize f r rc) = some m₁ := hm₁
    have hcont : w.cont .main = [] := by
      cases step_inv hpop with
      | popPosted _ rest x _ _ hc _ _ => exact hc
    have hend := polling_ends (polling_step hφ (step_inv h1) rfl) hpost hcont
    obtain ⟨e, hfind⟩ := Option.isSome_iff_exists.mp (List.find?_isSome.mpr hend)
    obtain ⟨he, mid, rest, hsplit, hmid⟩ := List.find?_eq_some_iff_append.mp hfind
    refine ⟨mid, e, rest, hsplit, fun b hb => by simpa using hmid b hb, he, fun hready => ?_⟩
    subst hready
    rw [hsplit] at hpost
    obtain ⟨m₂, hm₂, hrest⟩ := Lib.Machine.steps_append.mp hpost
    obtain ⟨m₃, h3, hrest⟩ := Lib.Machine.steps_cons.mp hrest
    have h3 : step m₂ (.pollReady k) = some m₃ := h3
    have hr : Ready m₃ k := by
      obtain ⟨ψ, hψ⟩ := fits_run ((hpre.snoc hm₁).append hm₂) k
      obtain ⟨ψ', h', hm | ⟨hm, -⟩⟩ := fits_step hψ (step_inv h3)
      · cases hm
        exact Or.inl h'
      · simp [Act.moves] at hm
    exact ready_ends hr hrest hcont

/-- Task 7 of request 1 finalizes it and returns Ready in its first poll. -/
def finalized : List (Act Nat) :=
  [.pollReady 7, .dropDone 7 .ready, .glueDone .main, .core (.ret 7 false), .core (.tryRecv none)]

theorem fini_polls_finalized :
    ∃ m w, (machine .plain Nat).Run (.newRequest 1 0 :: .requestSpawn 1 7 true :: firstPoll.tail) m ∧
      (machine .plain Nat).Steps m (.finalize 3 1 404 :: finalized) w ∧
      ∃ c, w.cells 7 = some c ∧ c.live = false ∧ (Task.AsyncTask.plain.bits c.st).completed = true := by
  obtain ⟨m, hm, hk⟩ : ∃ m, (machine .plain Nat).exec fresh
      (.newRequest 1 0 :: .requestSpawn 1 7 true :: firstPoll.tail) = some m ∧ .poll 7 ∈ m.cont .main :=
    ⟨_, rfl, List.mem_cons_self⟩
  obtain ⟨w, hw, w', hpop⟩ : ∃ w, (machine .plain Nat).exec m (.finalize 3 1 404 :: finalized) = some w ∧
      ∃ w', step w (.popPosted 3) = some w' := by
    cases hm
    exact ⟨_, rfl, _, rfl⟩
  have h1 : (machine .plain Nat).Run _ m := ⟨fresh, fresh_init, Lib.Machine.steps_of_exec hm⟩
  have h2 := Lib.Machine.steps_of_exec hw
  obtain ⟨mid, e, rest, hs, hmid, he, hr⟩ := fini_polls.2 _ finalized m w w' 7 3 1 404 h1 hk h2 hpop
  refine ⟨m, w, h1, h2, hr ?_⟩
  cases mid with
  | nil => cases hs; rfl
  | cons b mid =>
    obtain ⟨rfl, -⟩ := List.cons.inj hs
    exact absurd (hmid _ List.mem_cons_self) (by simp [Act.endsPoll])

/-! ## Posted finalizations -/

/-- What `fini` of the Finalization `x` knows of its request, whose pool is `p`. -/
def FiniAt.Of (x : Finalization) (p : Pool) : FiniAt → Prop
  | .entered => p.life = .live
  | .read r rc c => p.life = .live ∧ r = x.request ∧ rc = x.rc ∧ c = p.connection
  | .finalizing r rc c => r = x.request ∧ rc = x.rc ∧ c = p.connection
  | .returned c | .draining c => c = p.connection

/-- Until it calls `ngx_http_finalize_request`, `fini`'s request is live; what it read is
    the Finalization's. -/
def FiniOk (w : St A P) : Prop :=
  ∀ f b, .fini f b ∈ w.cont .main → ∃ x p, w.fins f = some x ∧ w.pools x.request = some p ∧ b.Of x p

/-- `fini` is dispatched by the event loop, and goes from one place to the next. -/
theorem fini_step {w w' : St A P} {a : Act P} {f : FinId} {b : FiniAt} (h : Step w a w')
    (hm : .fini f b ∈ w'.cont .main) : .fini f b ∈ w.cont .main ∨ a = .popPosted f ∧ b = .entered ∨
      ∃ b', a = .fini f b ∧ .fini f b' ∈ w.cont .main ∧ w.finiNext f b' = some b := by
  cases h with
  | core e s _ _ _ => exact Or.inl hm
  | runPoll k c s _ _ _ => exact Or.inl (by simpa using hm)
  | runDrop k c s _ _ _ => exact Or.inl (by simpa using hm)
  | pending k again c rest s _ hf _ _ _ _ => exact Or.inl (by rw [hf]; simpa using hm)
  | pendingClosed k c rest _ hf _ _ => exact Or.inl (by rw [hf]; simpa using hm)
  | ready k rest hf _ => exact Or.inl (by rw [hf]; simpa using hm)
  | dropDone k why c rest _ hf _ => exact Or.inl (by rw [hf]; simpa using hm)
  | glueDone t rest hf _ =>
    cases t with
    | main => exact Or.inl (by rw [hf]; simpa using hm)
    | other p => exact Or.inl (by simpa using hm)
  | op t k o handed c h s _ _ _ _ _ _ =>
    cases t with
    | main => exact Or.inl (by simpa using hm)
    | other p => exact Or.inl (by simpa using hm)
  | requestRefused r k p s _ _ _ _ _ => exact Or.inl (by simpa using hm)
  | destroyPool r p _ _ _ => exact Or.inl (by simpa using hm)
  | cleanupTask r k handed p cs rest c s _ _ _ _ _ _ _ _ => exact Or.inl (by simpa using hm)
  | cleanupOther r p cs rest _ _ _ _ => exact Or.inl (by simpa using hm)
  | freePool r p rest hf _ _ _ => exact Or.inl (by rw [hf]; simpa using hm)
  | popPosted g rest x _ _ _ _ _ =>
    obtain ⟨rfl, rfl⟩ : f = g ∧ b = .entered := by simpa using hm
    exact Or.inr (Or.inl ⟨rfl, rfl⟩)
  | fini g c c' rest hf _ hn =>
    have hm : (f = g ∧ b = c') ∨ .fini f b ∈ rest := by simpa using hm
    rcases hm with ⟨rfl, rfl⟩ | hm
    · exact Or.inr (Or.inr ⟨c, rfl, by rw [hf]; exact List.mem_cons_self, hn⟩)
    · exact Or.inl (by rw [hf]; exact List.mem_cons_of_mem _ hm)
  | finiDone g c rest hf _ => exact Or.inl (by rw [hf]; exact List.mem_cons_of_mem _ (by simpa using hm))
  | _ => exact Or.inl hm

omit [DecidableEq P] in
/-- Until it calls `ngx_http_finalize_request`, `fini` is alone on the stack. -/
theorem Stacked.fini_top {w : St A P} (hw : Stacked w) {f : FinId} {b : FiniAt} (hm : .fini f b ∈ w.cont .main)
    (hb : (Frame.fini f b).user = false) : w.cont .main = [.fini f b] := by
  obtain ⟨pre, post, he⟩ := List.append_of_mem hm
  have hbase := hw.based
  rw [he] at hbase
  obtain rfl : post = [] := hbase.on.1
  rw [he]
  rcases List.eq_nil_or_concat pre with rfl | ⟨pre, g, rfl⟩
  · rfl
  · -- the frame above `fini` would lie on one that carries none
    have hg : Based w.core.handler (pre ++ g :: [.fini f b]) := by simpa using hbase
    have hcar := hg.suffix.2.1 _ rfl
    have : (Frame.fini f b).carries = (Frame.fini f b).user := rfl
    rw [this, hb] at hcar
    cases hcar

omit [DecidableEq P] in
/-- A linked event's request is live whenever main is in no handler: it is not freed, and
    no `ngx_destroy_pool` is at work. -/
theorem PostedOk.live {w : St A P} (h : PostedOk w) (hd : Dying w) {f : FinId} (hf : f ∈ w.posted)
    (hc : w.cont .main = []) : ∃ x p, w.fins f = some x ∧ w.pools x.request = some p ∧ p.life = .live := by
  obtain ⟨x, hx, hpo⟩ := (h.linked f).mp hf
  obtain ⟨p, hp, hl, -⟩ := h.pooled f x hx hpo
  refine ⟨x, p, hx, hp, ?_⟩
  cases hlife : p.life with
  | live => rfl
  | freed => exact absurd hlife hl
  | destroying =>
    have hr := hd x.request
    simp [St.destroys, hc, St.dying, hp, hlife] at hr

/-- No pool is destroyed under `fini` before its call. -/
theorem fini_keeps_live {w w' : St A P} {a : Act P} (hw : Stacked w) (hst : Step w a w') {f : FinId} {b : FiniAt}
    (hm : .fini f b ∈ w.cont .main) (hb : (Frame.fini f b).user = false) {r : ReqId} {p p' : Pool}
    (hp : w.pools r = some p) (hp' : w'.pools r = some p') : p'.life = p.life := by
  have hc := hw.fini_top hm hb
  obtain ⟨q, hq, -, hl | ⟨rfl, -⟩ | ⟨-, hf, -⟩⟩ := pool_step hst hp
  · rw [hp'] at hq
    cases hq
    exact hl
  · cases hst with
    | destroyPool _ _ _ hfree _ =>
      rcases (free_main hfree).2 with ⟨h, -⟩ | ⟨g, rest, h, hu⟩
      · rw [hc] at h; cases h
      · rw [hc] at h; cases h; rw [hb] at hu; cases hu
  · rw [hc] at hf
    simp at hf

theorem finiOk_step {w w' : St A P} {a : Act P} (h : FiniOk w) (hw : Stacked w) (hp : PostedOk w) (hd : Dying w)
    (hst : Step w a w') : FiniOk w' := by
  intro f b hm
  rcases fini_step hst hm with hm₀ | ⟨rfl, rfl⟩ | ⟨b', rfl, hm₀, hn⟩
  · obtain ⟨x, p, hx, hpl, hb⟩ := h f b hm₀
    obtain ⟨x', hx', h1, h2⟩ := fin_step hst hx
    obtain ⟨p', hp', h3, -⟩ := pool_step hst hpl
    refine ⟨x', p', hx', by rw [h1]; exact hp', ?_⟩
    cases b with
    | entered => exact (fini_keeps_live hw hst hm₀ rfl hpl hp').trans hb
    | read r rc c =>
      have hlife := fini_keeps_live hw hst hm₀ rfl hpl hp'
      simp only [FiniAt.Of, h1, h2, h3, hlife]
      exact hb
    | finalizing r rc c => simp only [FiniAt.Of, h1, h2, h3]; exact hb
    | returned c => exact Eq.trans hb h3.symm
    | draining c => exact Eq.trans hb h3.symm
  · cases hst with
    | popPosted _ rest y hpo hy hc _ _ =>
      obtain ⟨x, p, hx, hpl, hl⟩ := hp.live hd (f := f) (by rw [hpo]; exact List.mem_cons_self) hc
      rw [hy] at hx
      cases hx
      exact ⟨_, p, Function.update_self _ _ _, hpl, hl⟩
  · obtain ⟨x, p, hx, hpl, hb⟩ := h f b' hm₀
    cases hst with
    | fini _ _ _ rest _ _ _ =>
      refine ⟨x, p, hx, hpl, ?_⟩
      cases b' with
      | entered =>
        simp only [St.finiNext, hx, hpl, Option.some.injEq] at hn
        subst hn
        exact ⟨hb, rfl, rfl, rfl⟩
      | read r rc c => cases hn; exact hb.2
      | finalizing r rc c => cases hn; exact hb.2.2
      | returned c => cases hn; exact hb
      | draining c => cases hn

theorem finiOk_run {tr : List (Act P)} {w : St A P} (h : (machine A P).Run tr w) : FiniOk w := by
  refine Lib.Machine.run_induction (J := fun _ w => FiniOk w) ?_ ?_ h
  · intro w hw f b hm
    obtain ⟨s, -, rfl⟩ := hw
    cases hm
  · intro tr w a w' hrun ih hst
    exact finiOk_step ih (stacked_invariant.run hrun) (postedOk_invariant.run hrun) (dying_invariant.run hrun)
      (step_inv hst)

/-! ### Once for each call -/

/-- An event is linked once, by its call, and unlinked when its `fini` is dispatched. -/
theorem pops_run {tr : List (Act P)} {w : St A P} (h : (machine A P).Run tr w) (f : FinId) :
    (w.fins f = none → tr.count (.popPosted f) = 0) ∧ tr.count (.popPosted f) + w.posted.count f ≤ 1 := by
  refine Lib.Machine.run_induction
    (J := fun tr w => (w.fins f = none → tr.count (.popPosted f) = 0) ∧ tr.count (.popPosted f) + w.posted.count f ≤ 1)
    ?_ ?_ h
  · intro w hw
    obtain ⟨s, -, rfl⟩ := hw
    exact ⟨fun _ => rfl, by simp [St.start]⟩
  · intro tr w a w' hrun hi hst
    obtain ⟨ih₀, ih⟩ := hi
    have hok := postedOk_invariant.run hrun
    have hst := step_inv hst
    rw [List.count_append]
    -- an act that neither links the event nor dispatches it
    have same : (w'.fins f = none → w.fins f = none) → w'.posted.count f ≤ w.posted.count f → a ≠ .popPosted f →
        (w'.fins f = none → tr.count (.popPosted f) + [a].count (.popPosted f) = 0) ∧
          tr.count (.popPosted f) + [a].count (.popPosted f) + w'.posted.count f ≤ 1 := by
      intro h1 h2 h3
      have h0 : [a].count (.popPosted f) = 0 := List.count_eq_zero.mpr (by simpa using Ne.symm h3)
      rw [h0]
      exact ⟨fun h => ih₀ (h1 h), by omega⟩
    cases hst with
    | cleanupFin r g p cs rest x _ _ _ _ hx =>
      refine same (fun h => ?_) ?_ (by simp)
      · by_cases hg : f = g
        · subst hg; simp at h
        · simpa [hg] using h
      · show (if x.posted then w.posted.erase g else w.posted).count f ≤ w.posted.count f
        split
        · exact List.erase_sublist.count_le f
        · exact le_rfl
    | finalize g r rc p _ _ _ hg₀ =>
      by_cases hg : f = g
      · subst hg
        have hz := ih₀ hg₀
        refine ⟨fun h => by simp at h, ?_⟩
        simp [hz, List.count_eq_zero.mpr (hok.fresh hg₀)]
      · exact same (by simp [hg]) (by simp [Ne.symm hg]) (by simp)
    | popPosted g rest x hpo hx _ _ _ =>
      by_cases hg : f = g
      · subst hg
        rw [hpo] at ih
        simp at ih
        refine ⟨fun h => by simp at h, ?_⟩
        simp
        omega
      · exact same (by simp [hg]) (by rw [hpo]; exact List.count_le_count_cons) (by simpa using Ne.symm hg)
    | _ => exact same (fun h => h) le_rfl (by simp)

theorem finalize_run {tr : List (Act P)} {w : St A P} (h : (machine A P).Run tr w) :
    ∀ f r rc, .finalize f r rc ∈ tr → ∃ x, w.fins f = some x ∧ x.request = r ∧ x.rc = rc := by
  refine Lib.Machine.run_induction
    (J := fun tr w => ∀ f r rc, .finalize f r rc ∈ tr → ∃ x, w.fins f = some x ∧ x.request = r ∧ x.rc = rc) ?_ ?_ h
  · intro w _ f r rc hm
    cases hm
  · intro tr w a w' _ ih hst f r rc hm
    rcases List.mem_append.mp hm with hm | hm
    · obtain ⟨x, hx, h1, h2⟩ := ih f r rc hm
      obtain ⟨x', hx', h3, h4⟩ := fin_step (step_inv hst) hx
      exact ⟨x', hx', h3.trans h1, h4.trans h2⟩
    · obtain rfl := List.mem_singleton.mp hm
      have hst : step w (.finalize f r rc) = some w' := hst
      cases step_inv hst with
      | finalize _ _ _ p _ _ _ _ => exact ⟨_, Function.update_self _ _ _, rfl, rfl⟩

/-! ### Accesses -/

/-- A linked event lies in the pool of `q`. -/
def St.linked (w : St A P) (q : ReqId) : Prop := ∃ f ∈ w.posted, ∃ x, w.fins f = some x ∧ x.request = q

/-- The act reads or writes memory of the request `q`. The posted queue runs through its
    events: linking and unlinking one touches its neighbours. -/
def St.touches (w : St A P) : Act P → ReqId → Prop
  | .finalize _ r _, q | .cleanup r (.fin _) _, q => q = r ∨ w.linked q
  | .popPosted _, q => w.linked q
  | .fini f (.read ..), q => ∃ x, w.fins f = some x ∧ x.request = q
  | .fini _ (.finalizing r _ _), q => q = r
  | _, _ => False

omit [DecidableEq P] in
theorem PostedOk.alive {w : St A P} (h : PostedOk w) {q : ReqId} (hq : w.linked q) : w.alive q = true := by
  obtain ⟨f, hf, x, hx, rfl⟩ := hq
  obtain ⟨p, hp, hl, -⟩ := h.pooled f x hx (h.posted_of_mem hf hx)
  simp [St.alive, hp, hl]

/-- The request is live when `fini` reads it and when it is given to `ngx_http_finalize_request`. -/
theorem fini_live {w w' : St A P} {f : FinId} {b : FiniAt} (h : FiniOk w) (hs : Step w (.fini f b) w')
    (hb : (∃ r rc c, b = .read r rc c) ∨ ∃ r rc c, b = .finalizing r rc c) :
    ∃ x p, w.fins f = some x ∧ w.pools x.request = some p ∧ p.life = .live ∧
      ∀ r rc c, b = .finalizing r rc c → r = x.request ∧ rc = x.rc ∧ c = p.connection := by
  cases hs with
  | fini _ a _ rest hf _ hn =>
    obtain ⟨x, p, hx, hp, ha⟩ := h f a (by rw [hf]; exact List.mem_cons_self)
    cases a with
    | entered =>
      simp only [St.finiNext, hx, hp, Option.some.injEq] at hn
      subst hn
      exact ⟨x, p, hx, hp, ha, fun r rc c e => (nomatch e)⟩
    | read r rc c =>
      cases hn
      refine ⟨x, p, hx, hp, ha.1, fun r' rc' c' e => ?_⟩
      cases e
      exact ha.2
    | finalizing r rc c => cases hn; simp at hb
    | returned c => cases hn; simp at hb
    | draining c => cases hn

theorem touches_alive {w w' : St A P} {a : Act P} {q : ReqId} (hp : PostedOk w) (hd : Dying w) (hf : FiniOk w)
    (hs : Step w a w') (ht : w.touches a q) : w.alive q = true := by
  cases hs with
  | finalize f r rc p h₀ _ hl _ =>
    rcases ht with rfl | ht
    · simp [St.alive, h₀, hl]
    · exact hp.alive ht
  | cleanupFin r f p cs rest x hc _ h₀ _ _ =>
    rcases ht with rfl | ht
    · have hdy := hd.of_frame (r := q) (by rw [hc]; exact List.mem_cons_self)
      simp [St.dying, h₀] at hdy
      simp [St.alive, h₀, hdy]
    · exact hp.alive ht
  | popPosted f rest x _ _ _ _ _ => exact hp.alive ht
  | fini f b b' rest hc ho hn =>
    have hst := Step.fini w f b b' rest hc ho hn
    cases b' with
    | read r rc c =>
      obtain ⟨x, p, hx, hpl, hl, -⟩ := fini_live hf hst (Or.inl ⟨r, rc, c, rfl⟩)
      obtain ⟨y, hy, rfl⟩ := ht
      rw [hx] at hy
      cases hy
      simp [St.alive, hpl, hl]
    | finalizing r rc c =>
      obtain ⟨x, p, -, hpl, hl, he⟩ := fini_live hf hst (Or.inr ⟨r, rc, c, rfl⟩)
      obtain ⟨rfl, -⟩ := he _ _ _ rfl
      cases ht
      simp [St.alive, hpl, hl]
    | _ => cases ht
  | _ => cases ht

/-- Along every run: a linked event lies, registered for cleanup, in a pool that is not
    freed; `fini` runs at most once for each call of `finalize_request`, is dispatched
    while the call's request is live, and calls `ngx_http_finalize_request` with the
    call's request and rc while it still is; no act touches a freed request; and from its
    first read on `fini` does the same in any state, with the request's connection. -/
theorem posted_finalizations {tr : List (Act P)} {w : St A P} (h : (machine A P).Run tr w) :
    (∀ f ∈ w.posted, ∃ x p, w.fins f = some x ∧ w.pools x.request = some p ∧ p.life ≠ .freed ∧ .fin f ∈ p.cleanups) ∧
    (∀ f, tr.count (.popPosted f) ≤ 1) ∧
    (∀ f w', step w (.popPosted f) = some w' →
      ∃ r rc p, .finalize f r rc ∈ tr ∧ w.pools r = some p ∧ p.life = .live) ∧
    (∀ f r rc c w', step w (.fini f (.finalizing r rc c)) = some w' →
      (∀ r' rc', .finalize f r' rc' ∈ tr ↔ r' = r ∧ rc' = rc) ∧
        ∃ p, w.pools r = some p ∧ p.life = .live ∧ p.connection = c) ∧
    (∀ a w' q, step w a = some w' → w.touches a q → w.alive q = true) ∧
    (∀ f c, .fini f (.draining c) ∈ w.cont .main →
      ∃ r rc p, .finalize f r rc ∈ tr ∧ w.pools r = some p ∧ p.connection = c) ∧
    ∀ f b, b ≠ .entered → ∀ v : St A P, v.finiNext f b = w.finiNext f b := by
  have hp := postedOk_invariant.run h
  have hd := dying_invariant.run h
  have hf := finiOk_run h
  refine ⟨?_, ?_, ?_, ?_, ?_, ?_, ?_⟩
  · intro f hm
    obtain ⟨x, hx, hpo⟩ := (hp.linked f).mp hm
    obtain ⟨p, hpl, hl, hc⟩ := hp.pooled f x hx hpo
    exact ⟨x, p, hx, hpl, hl, hc⟩
  · intro f
    have := (pops_run h f).2
    omega
  · intro f w' hs
    cases step_inv hs with
    | popPosted _ rest x hpo _ hc _ _ =>
      obtain ⟨x, p, hx, hpl, hl⟩ := hp.live hd (f := f) (by rw [hpo]; exact List.mem_cons_self) hc
      exact ⟨x.request, x.rc, p, fin_run h f x hx, hpl, hl⟩
  · intro f r rc c w' hs
    obtain ⟨x, p, hx, hpl, hl, he⟩ := fini_live hf (step_inv hs) (Or.inr ⟨r, rc, c, rfl⟩)
    obtain ⟨rfl, rfl, rfl⟩ := he _ _ _ rfl
    refine ⟨fun r' rc' => ⟨fun hm => ?_, ?_⟩, p, hpl, hl, rfl⟩
    · obtain ⟨y, hy, h1, h2⟩ := finalize_run h f r' rc' hm
      rw [hx] at hy
      cases hy
      exact ⟨h1.symm, h2.symm⟩
    · rintro ⟨rfl, rfl⟩
      exact fin_run h f x hx
  · intro a w' q hs ht
    exact touches_alive hp hd hf (step_inv hs) ht
  · intro f c hm
    obtain ⟨x, p, hx, hpl, hc⟩ := hf f _ hm
    exact ⟨x.request, x.rc, p, fin_run h f x hx, hpl, hc.symm⟩
  · intro f b hb v
    cases b with
    | entered => exact absurd rfl hb
    | _ => rfl

/-- Request 1 is finalized twice; the first `fini` is about to finalize it. -/
def finalizedTwice : List (Act Nat) :=
  [.newRequest 1 5, .finalize 0 1 200, .finalize 3 1 404, .popPosted 0, .fini 0 (.read 1 200 5)]

/-- `ngx_http_finalize_request` destroys the pool, and with it the second Finalization. -/
def destroyed : List (Act Nat) :=
  [.fini 0 (.finalizing 1 200 5), .destroyPool 1, .cleanup 1 (.fin 3) false, .cleanup 1 (.fin 0) false, .freePool 1,
   .fini 0 (.returned 5), .fini 0 (.draining 5), .finiDone 0]

theorem posted_finalizations_twice :
    (∃ w, (machine .plain Nat).exec fresh finalizedTwice = some w ∧ w.posted = [3] ∧
      ∃ p, w.pools 1 = some p ∧ p.life = .live ∧ p.connection = 5) ∧
    ∃ w, (machine .plain Nat).exec fresh (finalizedTwice ++ destroyed) = some w ∧ w.posted = [] ∧ w.alive 1 = false := by
  constructor
  · obtain ⟨w, hw, hpo, w', hs⟩ : ∃ w, (machine .plain Nat).exec fresh finalizedTwice = some w ∧ w.posted = [3] ∧
        ∃ w', step w (.fini 0 (.finalizing 1 200 5)) = some w' := ⟨_, rfl, rfl, _, rfl⟩
    have h := posted_finalizations ⟨fresh, fresh_init, Lib.Machine.steps_of_exec hw⟩
    exact ⟨w, hw, hpo, (h.2.2.2.1 0 1 200 5 w' hs).2⟩
  · exact ⟨_, rfl, rfl, rfl⟩

end NgxTickle.Worker
