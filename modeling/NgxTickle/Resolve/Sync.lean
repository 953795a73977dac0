/-
  NgxTickle.Resolve.Sync — a request answered from a resolver's callback, with no task
  (`examples/benchmark.rs`: `resolve_sync`, `resolve_sync_done`, `SyncResolve`).

  A call is numbered, and its resolver context and its SyncResolve bear its number: a
  number is an allocation, not an address. What nginx answers is in the event. Its calls:
  `ngx_resolve_start` (with a resolver configured) returns a new context, or null;
  `Pool::allocate` returns a slot with
  a cleanup registered, or drops the value and returns null; `ngx_resolve_name` calls the
  handler at once, or it waits, or it frees the context and fails; `ngx_resolve_name_done`
  frees the context, and its handler is not called after that. `ngx_http_finalize_request`
  may destroy the request; so may nginx at any time, as when the client has gone.

  The context has two owners: the SyncResolve, whose Drop frees it, and `resolve_sync`
  itself until it has stored it there. They agree in every run in which the allocation
  does not fail: no context is freed twice, and none outlives its request
  (`contexts_freed_once`); and a request that is still there is answered once
  (`sync_answered_once`). Where it does fail, the value's Drop has freed the context that
  `resolve_sync` then frees.
-/

import Mathlib.Logic.Function.Basic
import NgxTickle.Lib.Machine

namespace NgxTickle.Resolve

abbrev ReqId := Nat
abbrev CallId := Nat

/-- `ngx_resolver_ctx_t`; a null `data` is a handler not set. -/
structure Ctx where
  data : Option CallId
  deriving DecidableEq, Repr

structure SyncResolve where
  request : ReqId
  ctx : Option CallId
  deriving DecidableEq, Repr

inductive Status where
  | again
  | noContent
  | internalServerError
  deriving DecidableEq, Repr

/-- A request, with the cleanups of its pool, the newest first. -/
inductive Req where
  | fresh
  | live (cleanups : List CallId)
  | gone
  deriving DecidableEq, Repr

structure St where
  reqs : ReqId → Req
  slots : CallId → Option SyncResolve
  ctxs : CallId → Option Ctx
  next : CallId
  /-- Ghost: whose call it was, and what it returned. -/
  calls : CallId → Option (ReqId × Status)
  /-- Ghost: what its callback finalized the request with. -/
  finalized : CallId → List Status

inductive Fault where
  | doubleFree
  | dangling
  deriving DecidableEq, Repr

/-- `ngx_resolve_name`; whether the name was found, and whether `ngx_http_finalize_request`
    destroys the request. -/
inductive Resolved where
  | again
  | now (found destroys : Bool)
  | failed
  deriving DecidableEq, Repr

structure Answers where
  started : Bool
  allocated : Bool
  resolved : Resolved
  deriving DecidableEq, Repr

inductive Ev where
  | accept (r : ReqId)
  | resolve (r : ReqId) (a : Answers)
  | done (c : CallId) (found destroys : Bool)
  | destroy (r : ReqId)
  deriving DecidableEq, Repr

/-- The allocation that fails. -/
def Ev.refused : Ev → Bool
  | .resolve _ a => a.started && !a.allocated
  | _ => false

/-! ## nginx -/

def ngx_resolve_name_done (s : St) (c : CallId) : Except Fault St :=
  match s.ctxs c with
  | some _ => .ok { s with ctxs := Function.update s.ctxs c none }
  | none => .error .doubleFree

def SyncResolve.drop (s : St) (x : SyncResolve) : Except Fault St :=
  match x.ctx with
  | some c => ngx_resolve_name_done s c
  | none => .ok s

def runCleanups : List CallId → St → Except Fault St
  | [], s => .ok s
  | c :: cs, s =>
    match s.slots c with
    | some x => do
      let s ← x.drop s
      runCleanups cs { s with slots := Function.update s.slots c none }
    | none => .error .dangling

def ngx_destroy_pool (s : St) (r : ReqId) : Except Fault St :=
  match s.reqs r with
  | .live cs => do
    let s ← runCleanups cs s
    .ok { s with reqs := Function.update s.reqs r .gone }
  | _ => .error .dangling

/-- `Pool::allocate`: null, or the slot. -/
def allocate (s : St) (c : CallId) (x : SyncResolve) (allocated : Bool) : Except Fault (St × Option CallId) :=
  if allocated then
    match s.reqs x.request with
    | .live cs => .ok ({ s with
        slots := Function.update s.slots c (some x)
        reqs := Function.update s.reqs x.request (.live (c :: cs)) }, some c)
    | _ => .error .dangling
  else do
    let s ← x.drop s
    .ok (s, none)

def ngx_http_finalize_request (s : St) (c : CallId) (r : ReqId) (rc : Status) (destroys : Bool) : Except Fault St :=
  let s := { s with finalized := Function.update s.finalized c (s.finalized c ++ [rc]) }
  if destroys then ngx_destroy_pool s r else .ok s

/-! ## `benchmark.rs` -/

def resolve_sync_done (s : St) (c : CallId) (found destroys : Bool) : Except Fault St :=
  match s.ctxs c with
  | some ⟨some n⟩ =>
    match s.slots n with
    | some x =>
      match s.reqs x.request with
      | .live _ => do
        let status := if found then .noContent else .internalServerError
        let s := { s with slots := Function.update s.slots n (some { x with ctx := none }) }
        let s ← ngx_resolve_name_done s c
        ngx_http_finalize_request s c x.request status destroys
      | _ => .error .dangling
    | none => .error .dangling
  | _ => .error .dangling

def resolve_sync (s : St) (r : ReqId) (a : Answers) : Except Fault (St × Status) :=
  let c := s.next
  let s := { s with next := s.next + 1 }
  if !a.started then .ok (s, .internalServerError)
  else do
    let s := { s with ctxs := Function.update s.ctxs c (some ⟨none⟩) }
    let (s, state) ← allocate s c ⟨r, some c⟩ a.allocated
    match state with
    | none =>
      let s ← ngx_resolve_name_done s c
      .ok (s, .internalServerError)
    | some n =>
      let s := { s with ctxs := Function.update s.ctxs c (some ⟨some n⟩) }
      match a.resolved with
      | .again => .ok (s, .again)
      | .now found destroys =>
        let s ← resolve_sync_done s c found destroys
        .ok (s, .again)
      | .failed =>
        -- the context is freed by then
        let s := { s with ctxs := Function.update s.ctxs c none }
        match s.slots n with
        | some x =>
          .ok ({ s with slots := Function.update s.slots n (some { x with ctx := none }) }, .internalServerError)
        | none => .error .dangling

def returned (c : CallId) (r : ReqId) : St × Status → St
  | (s, rc) => { s with calls := Function.update s.calls c (some (r, rc)) }

/-- A fault ends the run. -/
def step : Except Fault St → Ev → Option (Except Fault St)
  | .ok s, .accept r => if s.reqs r = .fresh then some (.ok { s with reqs := Function.update s.reqs r (.live []) }) else none
  | .ok s, .resolve r a =>
    match s.reqs r with
    | .live _ => some ((resolve_sync s r a).map (returned s.next r))
    | _ => none
  | .ok s, .done c found destroys =>
    match s.ctxs c with
    | some _ => some (resolve_sync_done s c found destroys)
    | none => none
  | .ok s, .destroy r =>
    match s.reqs r with
    | .live _ => some (ngx_destroy_pool s r)
    | _ => none
  | .error _, _ => none

def start : St := ⟨fun _ => .fresh, fun _ => none, fun _ => none, 0, fun _ => none, fun _ => []⟩

def machine : Lib.Machine (Except Fault St) Ev := ⟨fun o => o = .ok start, step⟩

/-! ## The owners -/

/-- Where a call that has returned stands. -/
inductive Told (s : St) (c : CallId) (r : ReqId) : Status → Prop
  | waiting (x : SyncResolve) : s.ctxs c = some ⟨some c⟩ → s.slots c = some x → x.request = r → s.finalized c = [] →
      Told s c r .again
  | answered (rc : Status) : s.ctxs c = none → s.finalized c = [rc] → rc ≠ .again → Told s c r .again
  | abandoned : s.ctxs c = none → s.finalized c = [] → s.reqs r = .gone → Told s c r .again
  | failed : s.ctxs c = none → s.finalized c = [] → Told s c r .internalServerError

structure Inv (s : St) : Prop where
  /-- A context is that of a slot, and has not been answered. -/
  ctx : ∀ c k, s.ctxs c = some k → k = ⟨some c⟩ ∧ s.finalized c = [] ∧ ∃ x, s.slots c = some x ∧ x.ctx = some c
  slot : ∀ c x, s.slots c = some x → (x.ctx = some c ∧ s.ctxs c ≠ none ∨ x.ctx = none ∧ s.ctxs c = none) ∧
    ∃ cs, s.reqs x.request = .live cs ∧ c ∈ cs
  pool : ∀ r cs, s.reqs r = .live cs → cs.Nodup ∧ ∀ c ∈ cs, ∃ x, s.slots c = some x ∧ x.request = r
  fresh : ∀ c, s.next ≤ c → s.slots c = none ∧ s.calls c = none ∧ s.finalized c = []
  told : ∀ c r rc, s.calls c = some (r, rc) → Told s c r rc

theorem Inv.free {s : St} (hi : Inv s) {c : CallId} (h : s.slots c = none) : s.ctxs c = none := by
  cases hc : s.ctxs c with
  | none => rfl
  | some k =>
    obtain ⟨-, -, x, hx, -⟩ := hi.ctx c k hc
    rw [h] at hx
    cases hx

/-! ## A pool that is destroyed -/

/-- What the cleanups leave. -/
def St.without (s : St) (cs : List CallId) : St :=
  { s with
    slots := fun c => if c ∈ cs then none else s.slots c
    ctxs := fun c => if c ∈ cs then none else s.ctxs c }

def St.dropPool (s : St) (r : ReqId) (cs : List CallId) : St :=
  { s.without cs with reqs := Function.update s.reqs r .gone }

theorem runCleanups_eq (cs : List CallId) {s : St} (hn : cs.Nodup)
    (hs : ∀ c ∈ cs, ∃ x, s.slots c = some x ∧ (x.ctx = some c ∧ s.ctxs c ≠ none ∨ x.ctx = none ∧ s.ctxs c = none)) :
    runCleanups cs s = .ok (s.without cs) := by
  induction cs generalizing s with
  | nil => simp [runCleanups, St.without]
  | cons c cs ih =>
    obtain ⟨hnot, hn⟩ := List.nodup_cons.mp hn
    obtain ⟨x, hx, hc⟩ := hs c (by simp)
    have hdrop : x.drop s = .ok { s with ctxs := Function.update s.ctxs c none } := by
      rcases hc with ⟨hxc, hc⟩ | ⟨hxc, hc⟩
      · obtain ⟨k, hk⟩ := Option.ne_none_iff_exists'.mp hc
        simp [SyncResolve.drop, hxc, ngx_resolve_name_done, hk]
      · simp only [SyncResolve.drop, hxc]
        rw [← hc, Function.update_eq_self]
    have hrest : ∀ d ∈ cs, d ≠ c := fun d hd e => hnot (e ▸ hd)
    rw [runCleanups, hx]
    show (x.drop s).bind _ = _
    rw [hdrop]
    show runCleanups cs _ = _
    rw [ih hn]
    · simp only [St.without]
      congr 2 <;> funext d <;> by_cases e : d = c <;> simp [e]
    · intro d hd
      obtain ⟨y, hy, hyc⟩ := hs d (by simp [hd])
      exact ⟨y, by simp [hrest d hd, hy], by simpa [hrest d hd] using hyc⟩

theorem destroy_eq {s : St} (hi : Inv s) {r : ReqId} {cs : List CallId} (hr : s.reqs r = .live cs) :
    ngx_destroy_pool s r = .ok (s.dropPool r cs) := by
  obtain ⟨hn, hs⟩ := hi.pool r cs hr
  have hrun := runCleanups_eq cs hn fun c hc => by
    obtain ⟨x, hx, -⟩ := hs c hc
    exact ⟨x, hx, (hi.slot c x hx).1⟩
  simp only [ngx_destroy_pool, hr, hrun]
  rfl

theorem Inv.dropPool {s : St} (hi : Inv s) {r : ReqId} {cs : List CallId} (hr : s.reqs r = .live cs) :
    Inv (s.dropPool r cs) := by
  have mine : ∀ {c x}, s.slots c = some x → (c ∈ cs ↔ x.request = r) := by
    intro c x hx
    constructor
    · intro hc
      obtain ⟨y, hy, hyr⟩ := (hi.pool r cs hr).2 c hc
      rw [hx] at hy
      cases hy
      exact hyr
    · rintro rfl
      obtain ⟨-, cs', hcs, hc⟩ := hi.slot c x hx
      rw [hr] at hcs
      cases hcs
      exact hc
  refine ⟨?_, ?_, ?_, ?_, ?_⟩
  · intro c k hc
    by_cases e : c ∈ cs
    · simp [St.dropPool, St.without, e] at hc
    · have hc : s.ctxs c = some k := by simpa [St.dropPool, St.without, e] using hc
      simpa [St.dropPool, St.without, e] using hi.ctx c k hc
  · intro c x hx
    by_cases e : c ∈ cs
    · simp [St.dropPool, St.without, e] at hx
    · have hx : s.slots c = some x := by simpa [St.dropPool, St.without, e] using hx
      have hne : x.request ≠ r := fun h => e ((mine hx).mpr h)
      simpa [St.dropPool, St.without, e, hne] using hi.slot c x hx
  · intro q ds hq
    by_cases e : q = r
    · simp [St.dropPool, e] at hq
    · have hq : s.reqs q = .live ds := by simpa [St.dropPool, e] using hq
      refine ⟨(hi.pool q ds hq).1, fun c hc => ?_⟩
      obtain ⟨x, hx, hxq⟩ := (hi.pool q ds hq).2 c hc
      have hnot : c ∉ cs := fun h => e (hxq.symm.trans ((mine hx).mp h))
      exact ⟨x, by simpa [St.dropPool, St.without, hnot] using hx, hxq⟩
  · intro c hc
    obtain ⟨h1, h2, h3⟩ := hi.fresh c hc
    exact ⟨by simp [St.dropPool, St.without, h1], h2, h3⟩
  · intro c q rc hc
    cases hi.told c q rc hc with
    | waiting x h1 h2 h3 h4 =>
      by_cases e : c ∈ cs
      · have hq : q = r := h3.symm.trans ((mine h2).mp e)
        exact .abandoned (by simp [St.dropPool, St.without, e]) h4 (by simp [St.dropPool, hq])
      · exact .waiting x (by simp [St.dropPool, St.without, e, h1]) (by simp [St.dropPool, St.without, e, h2]) h3 h4
    | answered rc h1 h2 h3 => exact .answered rc (by simp [St.dropPool, St.without, h1]) h2 h3
    | abandoned h1 h2 h3 =>
      have e : q ≠ r := by
        rintro rfl
        rw [hr] at h3
        cases h3
      exact .abandoned (by simp [St.dropPool, St.without, h1]) h2 (by simpa [St.dropPool, e] using h3)
    | failed h1 h2 => exact .failed (by simp [St.dropPool, St.without, h1]) h2

/-! ## A call -/

/-- The context is freed, and the slot forgets it; what the request was finalized with. -/
def St.release (s : St) (c : CallId) (x : SyncResolve) (out : List Status) : St :=
  { s with
    slots := Function.update s.slots c (some { x with ctx := none })
    ctxs := Function.update s.ctxs c none
    finalized := Function.update s.finalized c out }

/-- It has a context and a slot that own each other. -/
def St.issue (s : St) (r : ReqId) (cs : List CallId) : St :=
  { s with
    reqs := Function.update s.reqs r (.live (s.next :: cs))
    slots := Function.update s.slots s.next (some ⟨r, some s.next⟩)
    ctxs := Function.update s.ctxs s.next (some ⟨some s.next⟩)
    next := s.next + 1 }

theorem Inv.next {s : St} (hi : Inv s) : Inv { s with next := s.next + 1 } :=
  ⟨hi.ctx, hi.slot, hi.pool, fun c hc => hi.fresh c (Nat.le_of_succ_le hc), fun c r rc hc => by
    cases hi.told c r rc hc with
    | waiting x h1 h2 h3 h4 => exact .waiting x h1 h2 h3 h4
    | answered rc h1 h2 h3 => exact .answered rc h1 h2 h3
    | abandoned h1 h2 h3 => exact .abandoned h1 h2 h3
    | failed h1 h2 => exact .failed h1 h2⟩

/-- Slots and contexts of other calls, and what they were told. -/
theorem Told.frame {s s' : St} {c : CallId} {r : ReqId} {rc : Status} (h : Told s c r rc)
    (hs : s'.slots c = s.slots c) (hc : s'.ctxs c = s.ctxs c) (hf : s'.finalized c = s.finalized c)
    (hr : s.reqs r = .gone → s'.reqs r = .gone) : Told s' c r rc := by
  cases h with
  | waiting x h1 h2 h3 h4 => exact .waiting x (hc.trans h1) (hs.trans h2) h3 (hf.trans h4)
  | answered rc h1 h2 h3 => exact .answered rc (hc.trans h1) (hf.trans h2) h3
  | abandoned h1 h2 h3 => exact .abandoned (hc.trans h1) (hf.trans h2) (hr h3)
  | failed h1 h2 => exact .failed (hc.trans h1) (hf.trans h2)

theorem Inv.issue {s : St} (hi : Inv s) {r : ReqId} {cs : List CallId} (hr : s.reqs r = .live cs) : Inv (s.issue r cs) := by
  obtain ⟨hslot, hcalls, hfin⟩ := hi.fresh s.next le_rfl
  have hnot : s.next ∉ cs := fun h => by
    obtain ⟨x, hx, -⟩ := (hi.pool r cs hr).2 s.next h
    rw [hslot] at hx
    cases hx
  refine ⟨?_, ?_, ?_, ?_, ?_⟩
  · intro c k hc
    by_cases e : c = s.next
    · subst e
      have hk : (⟨some s.next⟩ : Ctx) = k := by simpa [St.issue] using hc
      exact ⟨hk.symm, hfin, ⟨r, some s.next⟩, by simp [St.issue], rfl⟩
    · have hc : s.ctxs c = some k := by simpa [St.issue, e] using hc
      simpa [St.issue, e] using hi.ctx c k hc
  · intro c x hx
    by_cases e : c = s.next
    · subst e
      have hx : (⟨r, some s.next⟩ : SyncResolve) = x := by simpa [St.issue] using hx
      subst hx
      exact ⟨Or.inl ⟨rfl, by simp [St.issue]⟩, s.next :: cs, by simp [St.issue], by simp⟩
    · have hx : s.slots c = some x := by simpa [St.issue, e] using hx
      obtain ⟨h1, ds, h2, h3⟩ := hi.slot c x hx
      refine ⟨by simpa [St.issue, e] using h1, ?_⟩
      by_cases hq : x.request = r
      · rw [hq, hr] at h2
        cases h2
        exact ⟨s.next :: cs, by simp [St.issue, hq], by simp [h3]⟩
      · exact ⟨ds, by simpa [St.issue, hq] using h2, h3⟩
  · intro q ds hq
    have old : ∀ {c}, (∃ x, s.slots c = some x ∧ x.request = q) → ∃ x, (s.issue r cs).slots c = some x ∧ x.request = q := by
      rintro c ⟨x, hx, hxq⟩
      have e : c ≠ s.next := by
        rintro rfl
        rw [hslot] at hx
        cases hx
      exact ⟨x, by simpa [St.issue, e] using hx, hxq⟩
    by_cases e : q = r
    · subst e
      have hq : s.next :: cs = ds := by simpa [St.issue] using hq
      subst hq
      obtain ⟨hn, hcs⟩ := hi.pool q cs hr
      refine ⟨List.nodup_cons.mpr ⟨hnot, hn⟩, fun c hc => ?_⟩
      rcases List.mem_cons.mp hc with rfl | hc
      · exact ⟨⟨q, some s.next⟩, by simp [St.issue], rfl⟩
      · exact old (hcs c hc)
    · have hq : s.reqs q = .live ds := by simpa [St.issue, e] using hq
      exact ⟨(hi.pool q ds hq).1, fun c hc => old ((hi.pool q ds hq).2 c hc)⟩
  · intro c hc
    have hc : s.next + 1 ≤ c := hc
    have e : c ≠ s.next := Nat.ne_of_gt hc
    obtain ⟨h1, h2, h3⟩ := hi.fresh c (Nat.le_of_succ_le hc)
    exact ⟨by simpa [St.issue, e] using h1, h2, h3⟩
  · intro c q rc hc
    have e : c ≠ s.next := by
      rintro rfl
      have hc : s.calls s.next = some (q, rc) := hc
      rw [hcalls] at hc
      cases hc
    refine (hi.told c q rc hc).frame (by simp [St.issue, e]) (by simp [St.issue, e]) rfl fun hg => ?_
    have hq : q ≠ r := by
      rintro rfl
      rw [hr] at hg
      cases hg
    simpa [St.issue, hq] using hg

theorem Inv.release {s : St} (hi : Inv s) {c : CallId} {x : SyncResolve} {out : List Status} (hx : s.slots c = some x)
    (hc : ∀ r rc, s.calls c = some (r, rc) → Told (s.release c x out) c r rc) : Inv (s.release c x out) := by
  refine ⟨?_, ?_, ?_, ?_, ?_⟩
  · intro d k hd
    by_cases e : d = c
    · simp [St.release, e] at hd
    · have hd : s.ctxs d = some k := by simpa [St.release, e] using hd
      simpa [St.release, e] using hi.ctx d k hd
  · intro d y hy
    by_cases e : d = c
    · subst e
      have hy : ({ x with ctx := none } : SyncResolve) = y := by simpa [St.release] using hy
      subst hy
      exact ⟨Or.inr ⟨rfl, by simp [St.release]⟩, (hi.slot d x hx).2⟩
    · have hy : s.slots d = some y := by simpa [St.release, e] using hy
      simpa [St.release, e] using hi.slot d y hy
  · intro r cs hr
    obtain ⟨hn, hcs⟩ := hi.pool r cs hr
    refine ⟨hn, fun d hd => ?_⟩
    obtain ⟨y, hy, hyr⟩ := hcs d hd
    by_cases e : d = c
    · subst e
      rw [hx] at hy
      cases hy
      exact ⟨{ x with ctx := none }, by simp [St.release], hyr⟩
    · exact ⟨y, by simpa [St.release, e] using hy, hyr⟩
  · intro d hd
    obtain ⟨h1, h2, h3⟩ := hi.fresh d hd
    have e : d ≠ c := by
      rintro rfl
      rw [hx] at h1
      cases h1
    exact ⟨by simpa [St.release, e] using h1, h2, by simpa [St.release, e] using h3⟩
  · intro d r rc hd
    by_cases e : d = c
    · subst e
      exact hc r rc hd
    · exact (hi.told d r rc hd).frame (by simp [St.release, e]) (by simp [St.release, e]) (by simp [St.release, e])
        fun h => h

/-- What the callback finalizes with. -/
def outcome (found : Bool) : Status := if found then .noContent else .internalServerError

/-- What it leaves. -/
def St.called (s : St) (c : CallId) (x : SyncResolve) (found destroys : Bool) (cs : List CallId) : St :=
  if destroys then (s.release c x [outcome found]).dropPool x.request cs else s.release c x [outcome found]

theorem called_told (s : St) (c : CallId) (x : SyncResolve) (found destroys : Bool) (cs : List CallId) (r : ReqId) :
    Told (s.called c x found destroys cs) c r .again := by
  have hne : outcome found ≠ .again := by cases found <;> simp [outcome]
  cases destroys with
  | false => exact .answered (outcome found) (by simp [St.called, St.release]) (by simp [St.called, St.release]) hne
  | true =>
    exact .answered (outcome found) (by simp [St.called, St.dropPool, St.without, St.release])
      (by simp [St.called, St.dropPool, St.without, St.release]) hne

/-- The callback finds its slot, and its request. -/
theorem done_eq {s : St} (hi : Inv s) {c : CallId} {k : Ctx} (hc : s.ctxs c = some k) (found destroys : Bool) :
    ∃ x cs, s.slots c = some x ∧ s.reqs x.request = .live cs ∧
      resolve_sync_done s c found destroys = .ok (s.called c x found destroys cs) ∧
      Inv (s.called c x found destroys cs) := by
  obtain ⟨rfl, hfin, x, hx, hxc⟩ := hi.ctx c k hc
  obtain ⟨-, cs, hr, hm⟩ := hi.slot c x hx
  have hrel : Inv (s.release c x [outcome found]) := by
    refine hi.release hx fun r rc h => ?_
    have hnone : s.ctxs c ≠ none := by rw [hc]; simp
    cases hi.told c r rc h with
    | waiting y _ _ _ _ => exact called_told s c x found false cs r
    | answered rc h1 _ _ => exact absurd h1 hnone
    | abandoned h1 _ _ => exact absurd h1 hnone
    | failed h1 _ => exact absurd h1 hnone
  have hrun : resolve_sync_done s c found destroys =
      if destroys then ngx_destroy_pool (s.release c x [outcome found]) x.request
      else .ok (s.release c x [outcome found]) := by
    simp only [resolve_sync_done, hc, hx, hr, ngx_resolve_name_done]
    show ngx_http_finalize_request _ c x.request _ destroys = _
    simp only [ngx_http_finalize_request, hfin, List.nil_append, St.release, outcome]
  refine ⟨x, cs, hx, hr, ?_, ?_⟩
  · rw [hrun]
    cases destroys with
    | false => rfl
    | true => exact destroy_eq hrel hr
  · cases destroys with
    | false => exact hrel
    | true => exact hrel.dropPool hr

/-- A call that returns is noted. -/
theorem Inv.note {s : St} (hi : Inv s) {c : CallId} {r : ReqId} {rc : Status} (hc : c < s.next) (ht : Told s c r rc) :
    Inv { s with calls := Function.update s.calls c (some (r, rc)) } := by
  refine ⟨hi.ctx, hi.slot, hi.pool, fun d hd => ?_, fun d q rc' hd => ?_⟩
  · have hd : s.next ≤ d := hd
    have e : d ≠ c := Nat.ne_of_gt (Nat.lt_of_lt_of_le hc hd)
    simpa [e] using hi.fresh d hd
  · by_cases e : d = c
    · subst e
      have hd : (r, rc) = (q, rc') := by simpa using hd
      cases hd
      exact ht.frame rfl rfl rfl fun h => h
    · have hd : s.calls d = some (q, rc') := by simpa [e] using hd
      exact (hi.told d q rc' hd).frame rfl rfl rfl fun h => h

/-- The value's Drop has freed the context. -/
theorem resolve_sync_refused (s : St) (r : ReqId) (resolved : Resolved) :
    resolve_sync s r ⟨true, false, resolved⟩ = .error .doubleFree := by
  have hdrop : allocate { s with next := s.next + 1, ctxs := Function.update s.ctxs s.next (some ⟨none⟩) } s.next
      ⟨r, some s.next⟩ false = .ok ({ s with next := s.next + 1, ctxs := Function.update s.ctxs s.next none }, none) := by
    simp [allocate, SyncResolve.drop, ngx_resolve_name_done]
    rfl
  show (allocate _ _ _ _).bind _ = _
  rw [hdrop]
  show (ngx_resolve_name_done _ _).bind _ = _
  simp [ngx_resolve_name_done]
  rfl

theorem resolve_sync_issued {s : St} {r : ReqId} {cs : List CallId} (hr : s.reqs r = .live cs)
    (hfin : s.finalized s.next = []) (resolved : Resolved) :
    resolve_sync s r ⟨true, true, resolved⟩ =
      match resolved with
      | .again => .ok (s.issue r cs, .again)
      | .now found destroys => (resolve_sync_done (s.issue r cs) s.next found destroys).map (·, .again)
      | .failed => .ok ((s.issue r cs).release s.next ⟨r, some s.next⟩ [], .internalServerError) := by
  have halloc : allocate { s with next := s.next + 1, ctxs := Function.update s.ctxs s.next (some ⟨none⟩) } s.next
      ⟨r, some s.next⟩ true = .ok ({ s with
        next := s.next + 1
        ctxs := Function.update s.ctxs s.next (some ⟨none⟩)
        slots := Function.update s.slots s.next (some ⟨r, some s.next⟩)
        reqs := Function.update s.reqs r (.live (s.next :: cs)) }, some s.next) := by
    simp [allocate, hr]
  show (allocate _ _ _ _).bind _ = _
  rw [halloc]
  cases resolved with
  | again => simp [Except.bind, St.issue]
  | now found destroys =>
    simp only [Except.bind, St.issue, Function.update_idem]
    generalize resolve_sync_done _ _ _ _ = o
    cases o <;> rfl
  | failed => simp [Except.bind, St.issue, St.release, hfin]

/-- `resolve_sync` returns, unless the allocation fails. -/
theorem resolve_spec {s : St} (hi : Inv s) {r : ReqId} {cs : List CallId} (hr : s.reqs r = .live cs) (a : Answers) :
    ((a.started && !a.allocated) = true ∧ resolve_sync s r a = .error .doubleFree) ∨
    ((a.started && !a.allocated) = false ∧ ∃ t rc, resolve_sync s r a = .ok (t, rc) ∧ Inv t ∧ s.next < t.next ∧
      Told t s.next r rc) := by
  obtain ⟨started, allocated, resolved⟩ := a
  obtain ⟨hslot, hcalls, hfin⟩ := hi.fresh s.next le_rfl
  cases started with
  | false =>
    refine Or.inr ⟨rfl, { s with next := s.next + 1 }, .internalServerError, rfl, hi.next, Nat.lt_succ_self _, ?_⟩
    exact .failed (hi.free hslot) hfin
  | true =>
    cases allocated with
    | false => exact Or.inl ⟨rfl, resolve_sync_refused s r resolved⟩
    | true =>
      have hiss := hi.issue hr
      have hctx : (s.issue r cs).ctxs s.next = some ⟨some s.next⟩ := by simp [St.issue]
      have hsl : (s.issue r cs).slots s.next = some ⟨r, some s.next⟩ := by simp [St.issue]
      refine Or.inr ⟨rfl, ?_⟩
      rw [resolve_sync_issued hr hfin]
      cases resolved with
      | again => exact ⟨_, _, rfl, hiss, Nat.lt_succ_self _, .waiting _ hctx hsl rfl hfin⟩
      | now found destroys =>
        obtain ⟨x, ds, -, -, hdone, hinv⟩ := done_eq hiss hctx found destroys
        refine ⟨_, .again, ?_, hinv, ?_, called_told ..⟩
        · show (resolve_sync_done _ _ _ _).map _ = _
          rw [hdone]
          rfl
        · cases destroys <;> exact Nat.lt_succ_self _
      | failed =>
        refine ⟨_, _, rfl, hiss.release hsl fun q rc h => ?_, Nat.lt_succ_self _, ?_⟩
        · have h : s.calls s.next = some (q, rc) := h
          rw [hcalls] at h
          cases h
        · exact .failed (by simp [St.release]) (by simp [St.release])

/-! ## Every run -/

theorem inv_start : Inv start where
  ctx := fun _ _ h => nomatch h
  slot := fun _ _ h => nomatch h
  pool := fun _ _ h => nomatch h
  fresh := fun _ _ => ⟨rfl, rfl, rfl⟩
  told := fun _ _ _ h => nomatch h

/-- A step from a state that has not faulted: the run ends where the allocation fails. -/
theorem inv_step {s : St} {e : Ev} {o : Except Fault St} (hi : Inv s) (h : step (.ok s) e = some o) :
    e.refused = true ∧ o = .error .doubleFree ∨ e.refused = false ∧ ∃ t, o = .ok t ∧ Inv t := by
  cases e with
  | accept r =>
    simp only [step, Option.ite_none_right_eq_some, Option.some.injEq] at h
    obtain ⟨hr, rfl⟩ := h
    refine Or.inr ⟨rfl, _, rfl, ?_⟩
    have live : ∀ {q cs}, s.reqs q = .live cs → q ≠ r := by
      rintro q cs hq rfl
      rw [hr] at hq
      cases hq
    refine ⟨hi.ctx, fun c x hx => ?_, fun q cs hq => ?_, hi.fresh, fun c q rc hc => ?_⟩
    · obtain ⟨h1, cs, h2, h3⟩ := hi.slot c x hx
      exact ⟨h1, cs, by simpa [live h2] using h2, h3⟩
    · by_cases e : q = r
      · subst e
        have hq : ([] : List CallId) = cs := by simpa using hq
        subst hq
        exact ⟨List.nodup_nil, fun c hc => by cases hc⟩
      · exact hi.pool q cs (by simpa [e] using hq)
    · refine (hi.told c q rc hc).frame rfl rfl rfl fun hg => ?_
      have e : q ≠ r := by
        rintro rfl
        rw [hr] at hg
        cases hg
      simpa [e] using hg
  | resolve r a =>
    simp only [step] at h
    split at h
    · rename_i cs hr
      cases h
      rcases resolve_spec hi hr a with ⟨h1, h2⟩ | ⟨h1, t, rc, h2, h3, h4, h5⟩
      · exact Or.inl ⟨h1, by rw [h2]; rfl⟩
      · exact Or.inr ⟨h1, _, by rw [h2]; rfl, h3.note h4 h5⟩
    · cases h
  | done c found destroys =>
    simp only [step] at h
    split at h
    · rename_i k hc
      cases h
      obtain ⟨x, cs, -, -, h1, h2⟩ := done_eq hi hc found destroys
      exact Or.inr ⟨rfl, _, h1, h2⟩
    · cases h
  | destroy r =>
    simp only [step] at h
    split at h
    · rename_i cs hr
      cases h
      exact Or.inr ⟨rfl, _, destroy_eq hi hr, hi.dropPool hr⟩
    · cases h

theorem inv_run {tr : List Ev} {o : Except Fault St} (h : machine.Run tr o) :
    (∃ e ∈ tr, e.refused = true) ∧ o = .error .doubleFree ∨
      (∀ e ∈ tr, e.refused = false) ∧ ∃ s, o = .ok s ∧ Inv s := by
  refine Lib.Machine.run_induction (J := fun tr o => (∃ e ∈ tr, e.refused = true) ∧ o = .error .doubleFree ∨
    (∀ e ∈ tr, e.refused = false) ∧ ∃ s, o = .ok s ∧ Inv s) ?_ ?_ h
  · rintro o rfl
    exact Or.inr ⟨by simp, start, rfl, inv_start⟩
  · intro tr o e o' _ ih hs
    rcases ih with ⟨-, rfl⟩ | ⟨htr, s, rfl, hi⟩
    · cases e <;> cases hs
    · rcases inv_step hi hs with ⟨he, rfl⟩ | ⟨he, t, rfl, ht⟩
      · exact Or.inl ⟨⟨e, by simp, he⟩, rfl⟩
      · refine Or.inr ⟨fun a ha => ?_, t, rfl, ht⟩
        rcases List.mem_append.mp ha with ha | ha
        · exact htr a ha
        · rw [List.mem_singleton.mp ha]
          exact he

/-- A run faults where the allocation of a SyncResolve fails, and nowhere else. Otherwise a
    context that is not freed is that of a live request's slot, so its handler finds both,
    and the Drop frees it with the request. -/
theorem contexts_freed_once {tr : List Ev} {o : Except Fault St} (h : machine.Run tr o) :
    ((∃ f, o = .error f) ↔ ∃ e ∈ tr, e.refused = true) ∧
    ∀ s, o = .ok s → ∀ c k, s.ctxs c = some k →
      k.data = some c ∧ ∃ x cs, s.slots c = some x ∧ x.ctx = some c ∧ s.reqs x.request = .live cs ∧ c ∈ cs := by
  rcases inv_run h with ⟨he, rfl⟩ | ⟨he, s, rfl, hi⟩
  · exact ⟨⟨fun _ => he, fun _ => ⟨_, rfl⟩⟩, fun s hs => by cases hs⟩
  · refine ⟨⟨?_, ?_⟩, fun t ht c k hc => ?_⟩
    · rintro ⟨f, hf⟩
      cases hf
    · rintro ⟨e, hm, hr⟩
      rw [he e hm] at hr
      cases hr
    · cases ht
      obtain ⟨rfl, -, x, hx, hxc⟩ := hi.ctx c k hc
      obtain ⟨-, cs, hr, hm⟩ := hi.slot c x hx
      exact ⟨rfl, x, cs, hx, hxc, hr, hm⟩

/-- Two requests wait; the first is answered, and the second destroyed. -/
def answers : List Ev :=
  [.accept 0, .resolve 0 ⟨true, true, .again⟩, .accept 1, .resolve 1 ⟨true, true, .again⟩, .done 0 true true, .destroy 1]

theorem answers_run : ∃ s, machine.Run answers (.ok s) ∧ s.calls 0 = some (0, .again) ∧ s.finalized 0 = [.noContent] :=
  ⟨_, ⟨_, rfl, Lib.Machine.steps_of_exec rfl⟩, rfl, rfl⟩

theorem contexts_freed_once_answers : (∃ f, (.error .doubleFree : Except Fault St) = .error f) ∧
    ∃ s, machine.Run answers (.ok s) ∧ ¬ ∃ e ∈ answers, e.refused = true := by
  have hrefused : machine.Run [.accept 0, .resolve 0 ⟨true, false, .again⟩] (.error .doubleFree) :=
    ⟨_, rfl, Lib.Machine.steps_of_exec rfl⟩
  obtain ⟨s, h, -⟩ := answers_run
  refine ⟨(contexts_freed_once hrefused).1.mpr ⟨_, List.mem_cons_of_mem _ (by simp; rfl), rfl⟩, s, h, fun he => ?_⟩
  obtain ⟨f, hf⟩ := (contexts_freed_once h).1.mpr he
  cases hf

/-- What becomes of a call. One that fails is not finalized; one that returns NGX_AGAIN is
    waiting, or its request is gone, or its callback has finalized the request, once. -/
theorem sync_answered_once {tr : List Ev} {s : St} (h : machine.Run tr (.ok s)) {c : CallId} {r : ReqId} {rc : Status}
    (hc : s.calls c = some (r, rc)) :
    rc = .internalServerError ∧ s.ctxs c = none ∧ s.finalized c = [] ∨
    rc = .again ∧ (s.finalized c = [] ∧ (s.ctxs c ≠ none ∨ s.ctxs c = none ∧ s.reqs r = .gone) ∨
      ∃ status, s.finalized c = [status] ∧ status ≠ .again ∧ s.ctxs c = none) := by
  rcases inv_run h with ⟨-, he⟩ | ⟨-, t, ht, hi⟩
  · cases he
  · cases ht
    cases hi.told c r rc hc with
    | waiting x h1 _ _ h4 => exact Or.inr ⟨rfl, Or.inl ⟨h4, Or.inl (by rw [h1]; simp)⟩⟩
    | answered status h1 h2 h3 => exact Or.inr ⟨rfl, Or.inr ⟨status, h2, h3, h1⟩⟩
    | abandoned h1 h2 h3 => exact Or.inr ⟨rfl, Or.inl ⟨h2, Or.inr ⟨h1, h3⟩⟩⟩
    | failed h1 h2 => exact Or.inl ⟨rfl, h1, h2⟩

theorem sync_answered_once_answers : ∃ s, machine.Run answers (.ok s) ∧ s.calls 0 = some (0, .again) ∧
    s.finalized 0 = [.noContent] ∧ s.ctxs 0 = none := by
  obtain ⟨s, h, hc, hf⟩ := answers_run
  refine ⟨s, h, hc, hf, ?_⟩
  rcases sync_answered_once h hc with ⟨he, -⟩ | ⟨-, ⟨he, -⟩ | ⟨-, -, -, hn⟩⟩
  · cases he
  · rw [hf] at he
    cases he
  · exact hn

end NgxTickle.Resolve
