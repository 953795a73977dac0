/-
  NgxTickle.Net.Held — whose connection `pc.connection` is. A `poll_connect` that finds
  its connection timed out closes it and leaves `pc.connection` as it was, so the next
  `poll_shutdown` or drop closes it once more. If nothing happens in between, that only
  logs: in every run in which such a peer is dropped at once (`Prompt`; as
  `get_nginx_io` does, where the error of `connect` leaves the function), a connection is
  only closed by the peer that holds it, none is left behind, and every pool is destroyed
  once (`connections_held`).

  Where something does happen in between, the drop closes whatever connection has taken
  the place, and destroys its pool (`late_drop_closes_anothers`).
-/

import NgxTickle.Net.Model

namespace NgxTickle.Net

/-- `pc.connection` is not the peer's connection any more. -/
def Stale (s : St) (p : PeerId) : Prop :=
  ∃ x c, s.peers p = some x ∧ x.connection = some c ∧ (s.conns c).holder ≠ .peer p

/-- The next thing that happens to a stale peer is its drop. -/
def Prompt (s : St) (e : Ev) : Prop := ∀ p, Stale s p → e = .drop p

structure Held (s : St) : Prop where
  conn : ∀ p x c, s.peers p = some x → x.connection = some c →
    ((s.conns c).holder = .peer p ∨ (s.conns c).holder = .free) ∧ (s.conns c).pool = some (.peer p)
  /-- No connection is left behind. -/
  peer : ∀ c p, (s.conns c).holder = .peer p → ∃ x, s.peers p = some x ∧ x.connection = some c
  pools : ∀ o ∈ s.destroyed, ∃ p, o = .peer p ∧ s.peers p = none
  once : s.destroyed.Nodup

/-! ## Steps that move no connection -/

/-- Only events and wakers differ. -/
structure Same (s s' : St) : Prop where
  conn : ∀ c, (s'.conns c).holder = (s.conns c).holder ∧ (s'.conns c).pool = (s.conns c).pool
  peer : ∀ p, (s'.peers p).map (·.connection) = (s.peers p).map (·.connection)
  destroyed : s'.destroyed = s.destroyed

theorem Same.refl (s : St) : Same s s := ⟨fun _ => ⟨rfl, rfl⟩, fun _ => rfl, rfl⟩

theorem same_setConn (s : St) (c : ConnId) (k : Conn) (h : k.holder = (s.conns c).holder)
    (hp : k.pool = (s.conns c).pool) : Same s (s.setConn c k) := by
  refine ⟨fun d => ?_, fun _ => rfl, rfl⟩
  by_cases e : d = c
  · subst e
    simp [St.setConn, h, hp]
  · simp [St.setConn, e]

theorem same_setRead (s : St) (c : ConnId) (e : Event) : Same s (s.setRead c e) := same_setConn s c _ rfl rfl

theorem same_setWrite (s : St) (c : ConnId) (e : Event) : Same s (s.setWrite c e) := same_setConn s c _ rfl rfl

theorem Same.setPeer {s s' : St} (h : Same s s') {p : PeerId} {x y : PeerConnection} (hp : s.peers p = some x)
    (hy : y.connection = x.connection) : Same s (s'.setPeer p y) := by
  refine ⟨h.conn, fun q => ?_, h.destroyed⟩
  by_cases e : q = p
  · subst e
    simp [St.setPeer, hp, hy]
  · simpa [St.setPeer, e] using h.peer q

theorem same_read_handler {s : St} {p : PeerId} {x : PeerConnection} (hp : s.peers p = some x) (c : ConnId) (e : Event) :
    Same s ((s.setRead c e).setPeer p { x with rev := none }) :=
  (same_setRead s c e).setPeer hp rfl

theorem same_write_handler {s : St} {p : PeerId} {x : PeerConnection} (hp : s.peers p = some x) (c : ConnId) (e : Event) :
    Same s ((s.setWrite c e).setPeer p { x with wev := none }) :=
  (same_setWrite s c e).setPeer hp rfl

theorem Same.some {s s' : St} (h : Same s s') {p : PeerId} {x' : PeerConnection} (hp : s'.peers p = some x') :
    ∃ x, s.peers p = some x ∧ x.connection = x'.connection := by
  have hm := h.peer p
  rw [hp] at hm
  cases hs : s.peers p with
  | none => rw [hs] at hm; cases hm
  | some x =>
    rw [hs] at hm
    exact ⟨x, rfl, (Option.some.inj hm).symm⟩

theorem Same.symm {s s' : St} (h : Same s s') : Same s' s :=
  ⟨fun c => ⟨(h.conn c).1.symm, (h.conn c).2.symm⟩, fun p => (h.peer p).symm, h.destroyed.symm⟩

theorem Held.same {s s' : St} (hi : Held s) (h : Same s s') : Held s' := by
  refine ⟨?_, ?_, ?_, by rw [h.destroyed]; exact hi.once⟩
  · intro p x' c hp hc
    obtain ⟨x, hx, hxc⟩ := h.some hp
    rw [(h.conn c).1, (h.conn c).2]
    exact hi.conn p x c hx (hxc.trans hc)
  · intro c p hk
    rw [(h.conn c).1] at hk
    obtain ⟨x, hx, hxc⟩ := hi.peer c p hk
    obtain ⟨x', hx', hxc'⟩ := h.symm.some hx
    exact ⟨x', hx', hxc'.trans hxc⟩
  · intro o ho
    rw [h.destroyed] at ho
    obtain ⟨p, rfl, hp⟩ := hi.pools o ho
    refine ⟨p, rfl, ?_⟩
    cases hs : s'.peers p with
    | none => rfl
    | some x' =>
      obtain ⟨x, hx, -⟩ := h.some hs
      rw [hp] at hx
      cases hx

theorem Same.stale {s s' : St} (h : Same s s') {p : PeerId} (hs : Stale s' p) : Stale s p := by
  obtain ⟨x', c, hp, hc, hk⟩ := hs
  obtain ⟨x, hx, hxc⟩ := h.some hp
  exact ⟨x, c, hx, hxc.trans hc, fun e => hk ((h.conn c).1.trans e)⟩

theorem reads_same {m : Method} {s t : St} {p : PeerId} {x : PeerConnection} {w : Waker} {r : Ret}
    (hp : s.peers p = some x) (h : Reads m s p x w t r) : Same s t := by
  cases h with
  | none _ => exact .refl s
  | timedOut c _ _ => exact .refl s
  | failed c ready e _ _ => exact same_setRead s c _
  | got c ready n _ _ _ => exact same_setRead s c _
  | again c _ _ _ => exact (same_setRead s c _).setPeer hp rfl

theorem writes_same {s t : St} {p : PeerId} {x : PeerConnection} {w : Waker} {r : Ret} (hp : s.peers p = some x)
    (h : Writes s p x w t r) : Same s t := by
  cases h with
  | failed e => exact .refl s
  | sent c ready n _ _ => exact same_setWrite s c _
  | again c _ _ => exact (same_setWrite s c _).setPeer hp rfl

/-! ## Steps that move one -/

theorem setConn_self (s : St) (c : ConnId) (k : Conn) : (s.setConn c k).conns c = k := by simp [St.setConn]

theorem setConn_ne (s : St) {c d : ConnId} (k : Conn) (h : d ≠ c) : (s.setConn c k).conns d = s.conns d := by
  simp [St.setConn, h]

theorem setPeer_self (s : St) (p : PeerId) (x : PeerConnection) : (s.setPeer p x).peers p = some x := by
  simp [St.setPeer]

theorem setPeer_ne (s : St) {p q : PeerId} (x : PeerConnection) (h : q ≠ p) :
    (s.setPeer p x).peers q = s.peers q := by
  simp [St.setPeer, h]

@[simp] theorem closeConn_peers (s : St) (c : ConnId) : (s.closeConn c).peers = s.peers := by
  unfold St.closeConn
  split <;> rfl

@[simp] theorem closeConn_destroyed (s : St) (c : ConnId) : (s.closeConn c).destroyed = s.destroyed := by
  unfold St.closeConn
  split <;> rfl

theorem closeConn_self (s : St) (c : ConnId) :
    ((s.closeConn c).conns c).holder = .free ∧ ((s.closeConn c).conns c).pool = (s.conns c).pool := by
  unfold St.closeConn
  split
  · rename_i h
    exact ⟨h, rfl⟩
  · rw [setConn_self]
    exact ⟨rfl, rfl⟩

theorem closeConn_ne (s : St) {c d : ConnId} (h : d ≠ c) : (s.closeConn c).conns d = s.conns d := by
  unfold St.closeConn
  split
  · rfl
  · exact setConn_ne s _ h

theorem Held.closeConn {s : St} (hi : Held s) (c : ConnId) : Held (s.closeConn c) := by
  refine ⟨?_, ?_, by simpa using hi.pools, by simpa using hi.once⟩
  · intro q y d hq hd
    rw [closeConn_peers] at hq
    have h := hi.conn q y d hq hd
    by_cases e : d = c
    · subst e
      rw [(closeConn_self s d).1, (closeConn_self s d).2]
      exact ⟨Or.inr rfl, h.2⟩
    · rw [closeConn_ne s e]
      exact h
  · intro d q hk
    by_cases e : d = c
    · subst e
      rw [(closeConn_self s d).1] at hk
      cases hk
    · rw [closeConn_ne s e] at hk
      rw [closeConn_peers]
      exact hi.peer d q hk

/-- A peer that holds nothing forgets its connection. -/
theorem Held.forget {s : St} (hi : Held s) {p : PeerId} {x : PeerConnection} (hp : s.peers p = some x)
    (hnone : ∀ c, (s.conns c).holder ≠ .peer p) : Held (s.setPeer p { x with connection := none }) := by
  refine ⟨?_, ?_, ?_, hi.once⟩
  · intro q y d hq hd
    by_cases e : q = p
    · subst e
      rw [setPeer_self] at hq
      cases hq
      cases hd
    · rw [setPeer_ne s _ e] at hq
      exact hi.conn q y d hq hd
  · intro d q hk
    have e : q ≠ p := by
      rintro rfl
      exact hnone d hk
    rw [setPeer_ne s _ e]
    exact hi.peer d q hk
  · intro o ho
    obtain ⟨q, rfl, hq⟩ := hi.pools o ho
    have e : q ≠ p := by
      rintro rfl
      rw [hp] at hq
      cases hq
    exact ⟨q, rfl, by rw [setPeer_ne s _ e]; exact hq⟩

/-- What `PeerConnection::close` does: the connection is free, and the pool stays. -/
theorem close_some {s : St} (hi : Held s) {p : PeerId} {x : PeerConnection} {c : ConnId} (hp : s.peers p = some x)
    (hc : x.connection = some c) : close s p x = (s.closeConn c).setPeer p { x with connection := none } := by
  have hpool := (hi.conn p x c hp hc).2
  simp only [close, hc, hpool, St.destroyNot, if_true]

theorem closed_holds {s : St} (hi : Held s) {p : PeerId} {x : PeerConnection} {c : ConnId} (hp : s.peers p = some x)
    (hc : x.connection = some c) (d : ConnId) : ((s.closeConn c).conns d).holder ≠ .peer p := by
  intro hk
  by_cases e : d = c
  · subst e
    rw [(closeConn_self s d).1] at hk
    cases hk
  · rw [closeConn_ne s e] at hk
    obtain ⟨y, hy, hyd⟩ := hi.peer d p hk
    rw [hp] at hy
    cases hy
    rw [hc] at hyd
    exact e (Option.some.inj hyd).symm

theorem Held.close {s : St} (hi : Held s) {p : PeerId} {x : PeerConnection} (hp : s.peers p = some x) :
    Held (close s p x) := by
  cases hc : x.connection with
  | none => simpa only [Net.close, hc] using hi
  | some c =>
    rw [close_some hi hp hc]
    exact (hi.closeConn c).forget (by simpa using hp) (closed_holds hi hp hc)

theorem close_peers {s : St} (hi : Held s) {p : PeerId} {x : PeerConnection} (hp : s.peers p = some x) :
    (∃ y, (close s p x).peers p = some y ∧ y.connection = none) ∧
      (∀ q, q ≠ p → (close s p x).peers q = s.peers q) ∧ (close s p x).destroyed = s.destroyed := by
  cases hc : x.connection with
  | none => exact ⟨⟨x, by simpa only [close, hc] using hp, hc⟩, fun q _ => by simp only [close, hc], by simp only [close, hc]⟩
  | some c =>
    rw [close_some hi hp hc]
    refine ⟨⟨_, setPeer_self _ p _, rfl⟩, fun q hq => ?_, ?_⟩
    · rw [setPeer_ne _ _ hq, closeConn_peers]
    · exact closeConn_destroyed s c

theorem Held.drop {s : St} (hi : Held s) {p : PeerId} {x : PeerConnection} (hp : s.peers p = some x) :
    Held (drop s p x) := by
  have hcl := hi.close hp
  obtain ⟨⟨y, hy, hyc⟩, hother, hdes⟩ := close_peers hi hp
  have at_ : ∀ {q : PeerId}, q ≠ p → (Net.drop s p x).peers q = (Net.close s p x).peers q := by
    intro q hq
    simp [Net.drop, hq]
  have none_ : (Net.drop s p x).peers p = none := by simp [Net.drop]
  refine ⟨?_, ?_, ?_, ?_⟩
  · intro q z d hq hd
    by_cases e : q = p
    · subst e
      rw [none_] at hq
      cases hq
    · rw [at_ e] at hq
      exact hcl.conn q z d hq hd
  · intro d q hk
    obtain ⟨z, hz, hzd⟩ := hcl.peer d q hk
    have e : q ≠ p := by
      rintro rfl
      rw [hy] at hz
      cases hz
      rw [hyc] at hzd
      cases hzd
    exact ⟨z, by rw [at_ e]; exact hz, hzd⟩
  · intro o ho
    rcases List.mem_cons.mp ho with rfl | ho
    · exact ⟨p, rfl, none_⟩
    · obtain ⟨q, rfl, hq⟩ := hcl.pools o ho
      by_cases e : q = p
      · subst e
        exact ⟨q, rfl, none_⟩
      · exact ⟨q, rfl, by rw [at_ e]; exact hq⟩
  · refine List.nodup_cons.mpr ⟨fun ho => ?_, hcl.once⟩
    obtain ⟨q, hqp, hq⟩ := hcl.pools _ ho
    cases hqp
    rw [hy] at hq
    cases hq

/-- A free connection is nobody's, unless a peer is stale. -/
theorem unused {s : St} (hn : ∀ p, ¬ Stale s p) {c : ConnId} (hf : ∀ p, (s.conns c).holder ≠ .peer p)
    {q : PeerId} {y : PeerConnection} (hq : s.peers q = some y) : y.connection ≠ some c :=
  fun hc => hn q ⟨y, c, hq, hc, hf q⟩

/-- A connection that is nobody's changes hands. -/
theorem Held.setConn {s : St} (hi : Held s) {c : ConnId} {k : Conn} (hn : ∀ p, ¬ Stale s p)
    (hf : ∀ p, (s.conns c).holder ≠ .peer p) (hk : ∀ p, k.holder ≠ .peer p) : Held (s.setConn c k) := by
  refine ⟨?_, ?_, hi.pools, hi.once⟩
  · intro q y d hq hd
    have e : d ≠ c := by
      rintro rfl
      exact unused hn hf hq hd
    rw [setConn_ne s k e]
    exact hi.conn q y d hq hd
  · intro d q hd
    by_cases e : d = c
    · subst e
      rw [setConn_self] at hd
      exact absurd hd (hk q)
    · rw [setConn_ne s k e] at hd
      exact hi.peer d q hd

theorem Held.connect {m : Method} {s : St} (hi : Held s) {p : PeerId} {x y : PeerConnection} {c : ConnId} (again : Bool)
    (hp : s.peers p = some x) (hx : x.connection = none) (hn : ∀ p, ¬ Stale s p) (hf : (s.conns c).holder = .free)
    (hy : y.connection = some c) : Held ((s.setConn c (.connected m p again)).setPeer p y) := by
  have hf : ∀ q, (s.conns c).holder ≠ .peer q := fun q h => by rw [hf] at h; cases h
  have hconn : ∀ {d : ConnId}, ((s.setConn c (.connected m p again)).setPeer p y).conns d =
      (s.setConn c (.connected m p again)).conns d := rfl
  refine ⟨?_, ?_, ?_, hi.once⟩
  · intro q z d hq hd
    rw [hconn]
    by_cases e : q = p
    · subst e
      rw [setPeer_self] at hq
      cases hq
      rw [hy] at hd
      cases hd
      rw [setConn_self]
      exact ⟨Or.inl rfl, rfl⟩
    · rw [setPeer_ne _ _ e] at hq
      have hq : s.peers q = some z := hq
      have hdc : d ≠ c := by
        rintro rfl
        exact unused hn hf hq hd
      rw [setConn_ne s _ hdc]
      exact hi.conn q z d hq hd
  · intro d q hd
    rw [hconn] at hd
    by_cases e : d = c
    · subst e
      rw [setConn_self] at hd
      cases hd
      exact ⟨y, setPeer_self _ p y, hy⟩
    · rw [setConn_ne s _ e] at hd
      obtain ⟨z, hz, hzd⟩ := hi.peer d q hd
      have hqp : q ≠ p := by
        rintro rfl
        rw [hp] at hz
        cases hz
        rw [hx] at hzd
        cases hzd
      exact ⟨z, by rw [setPeer_ne _ _ hqp]; exact hz, hzd⟩
  · intro o ho
    obtain ⟨q, rfl, hq⟩ := hi.pools o ho
    have e : q ≠ p := by
      rintro rfl
      rw [hp] at hq
      cases hq
    exact ⟨q, rfl, by rw [setPeer_ne _ _ e]; exact hq⟩

/-- With a step that is not a drop, nobody is stale. -/
theorem Prompt.fresh {s : St} {e : Ev} (h : Prompt s e) (he : ∀ p, e ≠ .drop p) (p : PeerId) : ¬ Stale s p :=
  fun hs => he p (h p hs)

theorem held_step {m : Method} {s s' : St} {e : Ev} (hi : Held s) (hc : Prompt s e) (h : Step m s e s') : Held s' := by
  cases h with
  | new p hp hd =>
    refine ⟨?_, ?_, ?_, hi.once⟩
    · intro q y d hq hy
      by_cases e : q = p
      · subst e
        rw [setPeer_self] at hq
        cases hq
        cases hy
      · rw [setPeer_ne s _ e] at hq
        exact hi.conn q y d hq hy
    · intro d q hk
      obtain ⟨y, hy, hyd⟩ := hi.peer d q hk
      have e : q ≠ p := by
        rintro rfl
        rw [hp] at hy
        cases hy
      exact ⟨y, by rw [setPeer_ne s _ e]; exact hy, hyd⟩
    · intro o ho
      obtain ⟨q, rfl, hq⟩ := hi.pools o ho
      have e : q ≠ p := by
        rintro rfl
        exact hd ho
      exact ⟨q, rfl, by rw [setPeer_ne s _ e]; exact hq⟩
  | connect _ p w a r x hp ho =>
    have hn := hc.fresh (by simp)
    cases ho with
    | timedOut c _ _ => exact hi.closeConn c
    | tested c r _ _ _ => exact hi
    | ok c hx hf => exact hi.connect false hp hx hn hf rfl
    | again c hx hf => exact hi.connect true hp hx hn hf rfl
    | refused _ => exact hi
  | read _ p w a r x hp ho => exact hi.same (reads_same hp ho)
  | write _ p w a r x hp ho => exact hi.same (writes_same hp ho)
  | shutdown p x hp => exact hi.close hp
  | drop p x hp => exact hi.drop hp
  | readEvent c p x _ hp => exact hi.same (same_read_handler hp c _)
  | readTimer c p x _ hp => exact hi.same (same_read_handler hp c _)
  | writeEvent c p x handled _ hp _ => exact hi.same (same_write_handler hp c _)
  | get c hf =>
    have hn := hc.fresh (by simp)
    exact hi.setConn hn (fun q h => by rw [hf] at h; cases h) (fun q h => by cases h)
  | put c ho =>
    have hn := hc.fresh (by simp)
    exact hi.setConn hn (fun q h => by rw [ho] at h; cases h) (fun q h => by cases h)

/-! ## Who closes, and who goes stale -/

/-- The peer whose connection the event may close. -/
def Ev.closer : Ev → Option PeerId
  | .pollConnect p _ _ _ | .pollShutdown p | .drop p => some p
  | _ => none

/-- The connection is taken, or goes back by its holder's doing. -/
def Passes (s : St) (e : Ev) (c : ConnId) : Prop :=
  (s.conns c).holder = .free ∨ (s.conns c).holder = .other ∧ e = .put c ∨
    ∃ p, (s.conns c).holder = .peer p ∧ e.closer = some p

theorem closeConn_passes {s : St} (hi : Held s) {p : PeerId} {x : PeerConnection} {c : ConnId} {e : Ev}
    (hp : s.peers p = some x) (hc : x.connection = some c) (he : e.closer = some p) (d : ConnId) :
    ((s.closeConn c).conns d).holder = (s.conns d).holder ∨ Passes s e d := by
  by_cases hd : d = c
  · subst hd
    rcases (hi.conn p x d hp hc).1 with h | h
    · exact Or.inr (Or.inr (Or.inr ⟨p, h, he⟩))
    · exact Or.inr (Or.inl h)
  · rw [closeConn_ne s hd]
    exact Or.inl rfl

theorem close_passes {s : St} (hi : Held s) {p : PeerId} {x : PeerConnection} {e : Ev} (hp : s.peers p = some x)
    (he : e.closer = some p) (d : ConnId) :
    ((close s p x).conns d).holder = (s.conns d).holder ∨ Passes s e d := by
  cases hc : x.connection with
  | none => exact Or.inl (by simp only [close, hc])
  | some c =>
    rw [close_some hi hp hc]
    exact closeConn_passes hi hp hc he d

theorem passes_step {m : Method} {s s' : St} {e : Ev} (hi : Held s) (h : Step m s e s') (c : ConnId) :
    (s'.conns c).holder = (s.conns c).holder ∨ Passes s e c := by
  have moved : ∀ {d : ConnId} (k : Conn), Passes s e d → ((s.setConn d k).conns c).holder = (s.conns c).holder ∨ Passes s e c := by
    intro d k hd
    by_cases e : c = d
    · subst e
      exact Or.inr hd
    · rw [setConn_ne s k e]
      exact Or.inl rfl
  cases h with
  | new p _ _ => exact Or.inl rfl
  | connect _ p w a r x hp ho =>
    cases ho with
    | timedOut d hd _ => exact closeConn_passes hi hp hd rfl c
    | tested d r _ _ _ => exact Or.inl rfl
    | ok d _ hf => exact moved _ (Or.inl hf)
    | again d _ hf => exact moved _ (Or.inl hf)
    | refused _ => exact Or.inl rfl
  | read _ p w a r x hp ho => exact Or.inl ((reads_same hp ho).conn c).1
  | write _ p w a r x hp ho => exact Or.inl ((writes_same hp ho).conn c).1
  | shutdown p x hp => exact close_passes hi hp rfl c
  | drop p x hp => exact close_passes hi hp rfl c
  | readEvent d p x _ hp => exact Or.inl ((same_read_handler hp d _).conn c).1
  | readTimer d p x _ hp => exact Or.inl ((same_read_handler hp d _).conn c).1
  | writeEvent d p x handled _ hp _ => exact Or.inl ((same_write_handler hp d _).conn c).1
  | get d hf => exact moved _ (Or.inl hf)
  | put d ho => exact moved _ (Or.inr (Or.inl ⟨ho, rfl⟩))

/-- Closing one peer's connection leaves the others theirs. -/
theorem closeConn_stale {s : St} (hi : Held s) {p q : PeerId} {x : PeerConnection} {c : ConnId} (hq : s.peers q = some x)
    (hc : x.connection = some c) (hne : p ≠ q) (h : Stale (s.closeConn c) p) : Stale s p := by
  obtain ⟨y, d, hy, hd, hk⟩ := h
  rw [closeConn_peers] at hy
  by_cases e : d = c
  · subst e
    refine ⟨y, d, hy, hd, fun h => ?_⟩
    rcases (hi.conn q x d hq hc).1 with h' | h' <;> rw [h] at h'
    · cases h'
      exact hne rfl
    · cases h'
  · rw [closeConn_ne s e] at hk
    exact ⟨y, d, hy, hd, hk⟩

theorem close_stale {s : St} (hi : Held s) {p q : PeerId} {x : PeerConnection} (hq : s.peers q = some x) (hne : p ≠ q)
    (h : Stale (close s q x) p) : Stale s p := by
  cases hc : x.connection with
  | none => simpa only [close, hc] using h
  | some c =>
    rw [close_some hi hq hc] at h
    obtain ⟨y, d, hy, hd, hk⟩ := h
    rw [setPeer_ne _ _ hne] at hy
    exact closeConn_stale hi hq hc hne ⟨y, d, hy, hd, hk⟩

theorem close_not_stale {s : St} (hi : Held s) {p : PeerId} {x : PeerConnection} (hp : s.peers p = some x) :
    ¬ Stale (close s p x) p := by
  rintro ⟨y, d, hy, hd, -⟩
  obtain ⟨⟨z, hz, hzc⟩, -⟩ := close_peers hi hp
  rw [hz] at hy
  cases hy
  rw [hzc] at hd
  cases hd

/-- The peer that takes a connection holds it, and no other peer had it. -/
theorem connect_stale {m : Method} {s : St} {p q : PeerId} {y : PeerConnection} {c : ConnId} {again : Bool}
    (hn : ∀ p, ¬ Stale s p) (hf : (s.conns c).holder = .free) (hy : y.connection = some c) :
    ¬ Stale ((s.setConn c (.connected m p again)).setPeer p y) q := by
  rintro ⟨z, d, hz, hd, hk⟩
  have hk : ((s.setConn c (.connected m p again)).conns d).holder ≠ .peer q := hk
  by_cases e : q = p
  · subst e
    rw [setPeer_self] at hz
    cases hz
    rw [hy] at hd
    cases hd
    rw [setConn_self] at hk
    exact hk rfl
  · rw [setPeer_ne _ _ e] at hz
    have hz : s.peers q = some z := hz
    have hdc : d ≠ c := by
      rintro rfl
      exact unused hn (fun r h => by rw [hf] at h; cases h) hz hd
    rw [setConn_ne s _ hdc] at hk
    exact hn q ⟨z, d, hz, hd, hk⟩

theorem setConn_stale {s : St} {c : ConnId} {k : Conn} (hn : ∀ p, ¬ Stale s p) (hf : ∀ p, (s.conns c).holder ≠ .peer p)
    (p : PeerId) : ¬ Stale (s.setConn c k) p := by
  rintro ⟨y, d, hy, hd, hk⟩
  have e : d ≠ c := by
    rintro rfl
    exact unused hn hf hy hd
  rw [setConn_ne s k e] at hk
  exact hn p ⟨y, d, hy, hd, hk⟩

/-- A peer is stale just after its `poll_connect` has timed out. -/
theorem stale_step {m : Method} {s s' : St} {e : Ev} (hi : Held s) (hc : Prompt s e) (h : Step m s e s') (p : PeerId) :
    Stale s' p ↔ ∃ w a, e = .pollConnect p w a (.err .timedOut) := by
  have not_ : ¬ Stale s' p → (∀ w a, e ≠ .pollConnect p w a (.err .timedOut)) →
      (Stale s' p ↔ ∃ w a, e = .pollConnect p w a (.err .timedOut)) :=
    fun h1 h2 => ⟨fun h => absurd h h1, fun ⟨w, a, he⟩ => absurd he (h2 w a)⟩
  cases h with
  | new q hq _ =>
    have hn := hc.fresh (by simp)
    refine not_ ?_ (by simp)
    rintro ⟨y, d, hy, hd, hk⟩
    by_cases e : p = q
    · subst e
      rw [setPeer_self] at hy
      cases hy
      cases hd
    · rw [setPeer_ne s _ e] at hy
      exact hn p ⟨y, d, hy, hd, hk⟩
  | connect _ q w a r x hq ho =>
    have hn := hc.fresh (by simp)
    cases ho with
    | timedOut c hx ht =>
      by_cases e : p = q
      · subst e
        refine ⟨fun _ => ⟨w, a, rfl⟩, fun _ => ⟨x, c, by simpa using hq, hx, ?_⟩⟩
        rw [(closeConn_self s c).1]
        simp
      · refine not_ (fun h => hn p (closeConn_stale hi hq hx e h)) (fun w' a' he => ?_)
        cases he
        exact e rfl
    | tested c r _ _ hr =>
      refine not_ (hn p) (fun w' a' he => ?_)
      cases he
      rcases hr with h | h <;> cases h
    | ok c _ hf => exact not_ (connect_stale hn hf rfl) (by simp)
    | again c _ hf => exact not_ (connect_stale hn hf rfl) (by simp)
    | refused _ => exact not_ (hn p) (by simp)
  | read _ q w a r x hq ho => exact not_ (fun h => hc.fresh (by simp) p ((reads_same hq ho).stale h)) (by simp)
  | write _ q w a r x hq ho => exact not_ (fun h => hc.fresh (by simp) p ((writes_same hq ho).stale h)) (by simp)
  | shutdown q x hq =>
    refine not_ (fun h => ?_) (by simp)
    by_cases e : p = q
    · subst e
      exact close_not_stale hi hq h
    · exact hc.fresh (by simp) p (close_stale hi hq e h)
  | drop q x hq =>
    refine not_ ?_ (by simp)
    rintro ⟨y, d, hy, hd, hk⟩
    by_cases e : p = q
    · subst e
      simp [Net.drop] at hy
    · have hy : (close s q x).peers p = some y := by simpa [Net.drop, e] using hy
      have hs := close_stale hi hq e ⟨y, d, hy, hd, hk⟩
      have he := hc p hs
      cases he
      exact e rfl
  | readEvent c q x _ hq =>
    exact not_ (fun h => hc.fresh (by simp) p ((same_read_handler hq c _).stale h)) (by simp)
  | readTimer c q x _ hq =>
    exact not_ (fun h => hc.fresh (by simp) p ((same_read_handler hq c _).stale h)) (by simp)
  | writeEvent c q x handled _ hq _ =>
    exact not_ (fun h => hc.fresh (by simp) p ((same_write_handler hq c _).stale h)) (by simp)
  | get c hf =>
    exact not_ (setConn_stale (hc.fresh (by simp)) (fun q h => by rw [hf] at h; cases h) p) (by simp)
  | put c ho =>
    exact not_ (setConn_stale (hc.fresh (by simp)) (fun q h => by rw [ho] at h; cases h) p) (by simp)

/-! ## Every run -/

theorem held_init {s : St} (h : Init s) : Held s := by
  obtain ⟨hp, hd, hc⟩ := h
  refine ⟨?_, ?_, ?_, by rw [hd]; exact List.nodup_nil⟩
  · intro p x c hx
    rw [hp p] at hx
    cases hx
  · intro c p hk
    rcases hc c with h | h <;> rw [hk] at h <;> cases h
  · intro o ho
    rw [hd] at ho
    cases ho

theorem held_invariant (m : Method) : (machine m).InvariantIf Prompt Held :=
  ⟨fun _ => held_init, fun _ _ _ hi hc hs => held_step hi hc (step_inv hs)⟩

theorem held_run {m : Method} {tr : List Ev} {s : St} (h : (machine m).RunIf Prompt tr s) : Held s :=
  (held_invariant m).run h

theorem init_fresh {s : St} (h : Init s) (p : PeerId) : ¬ Stale s p := by
  rintro ⟨x, c, hx, -⟩
  rw [h.1 p] at hx
  cases hx

/-- A run in which no `poll_connect` times out leaves no peer stale. -/
theorem fresh_run {m : Method} {tr : List Ev} {s : St} (h : (machine m).Run tr s)
    (ht : ∀ p w a, .pollConnect p w a (.err .timedOut) ∉ tr) :
    (machine m).RunIf Prompt tr s ∧ ∀ p, ¬ Stale s p := by
  refine Lib.Machine.run_induction (J := fun tr s => (∀ p w a, .pollConnect p w a (.err .timedOut) ∉ tr) →
    (machine m).RunIf Prompt tr s ∧ ∀ p, ¬ Stale s p) ?_ ?_ h ht
  · exact fun s hs _ => ⟨.nil hs, init_fresh hs⟩
  · intro tr s e s' _ ih hs ht
    obtain ⟨hr, hn⟩ := ih fun p w a hm => ht p w a (List.mem_append_left _ hm)
    have hc : Prompt s e := fun p hp => absurd hp (hn p)
    refine ⟨hr.snoc hc hs, fun p hp => ?_⟩
    obtain ⟨w, a, rfl⟩ := (stale_step (held_run hr) hc (step_inv hs) p).mp hp
    exact ht p w a (by simp)

/-- Every connection is free. -/
def noPeers : St := ⟨fun _ => ⟨.free, none, .fresh, .fresh⟩, fun _ => none, []⟩

theorem noPeers_init : Init noPeers := ⟨fun _ => rfl, rfl, fun _ => Or.inl rfl⟩

/-- Peer 0 begins to connect, and its timer expires. -/
def expires : List Ev := [.new 0, .pollConnect 0 7 (.again 0) .pending, .readTimer 0 (some 7)]

theorem expires_fresh {m : Method} {s : St} (h : (machine m).exec noPeers expires = some s) :
    (machine m).RunIf Prompt expires s ∧ ∀ p, ¬ Stale s p :=
  fresh_run ⟨noPeers, noPeers_init, Lib.Machine.steps_of_exec h⟩ (by simp [expires])

/-- It times out, and is dropped. -/
def timesOut : List Ev := expires ++ [.pollConnect 0 7 (.test true) (.err .timedOut)] ++ [.drop 0]

theorem timesOut_run : ∃ s, (machine .epoll).RunIf Prompt timesOut s := by
  obtain ⟨s, hs⟩ : ∃ s, (machine .epoll).exec noPeers expires = some s := ⟨_, rfl⟩
  obtain ⟨hr, hn⟩ := expires_fresh hs
  have hc : ∀ e, Prompt s e := fun e p hp => absurd hp (hn p)
  obtain ⟨t, ht⟩ : ∃ t, step .epoll s (.pollConnect 0 7 (.test true) (.err .timedOut)) = some t := by
    cases hs
    exact ⟨_, rfl⟩
  have hd : Prompt t (.drop 0) := by
    intro p hp
    obtain ⟨w, a, he⟩ := (stale_step (held_run hr) (hc _) (step_inv ht) p).mp hp
    cases he
    rfl
  obtain ⟨u, hu⟩ : ∃ u, step .epoll t (.drop 0) = some u := by
    cases hs
    cases ht
    exact ⟨_, rfl⟩
  have ht : (machine .epoll).step s (.pollConnect 0 7 (.test true) (.err .timedOut)) = some t := ht
  have hu : (machine .epoll).step t (.drop 0) = some u := hu
  exact ⟨u, (hr.snoc (hc _) ht).snoc hd hu⟩

/-- If a peer whose `poll_connect` timed out is dropped next, a connection changes hands
    only by its holder's doing, none is left behind, and every pool that is destroyed is
    that of a dropped peer, and destroyed once. -/
theorem connections_held {m : Method} {tr : List Ev} {s : St} (h : (machine m).RunIf Prompt tr s) :
    (∀ p x c, s.peers p = some x → x.connection = some c →
      (s.conns c).holder = .peer p ∨ (s.conns c).holder = .free ∧ Stale s p) ∧
    (∀ c p, (s.conns c).holder = .peer p → ∃ x, s.peers p = some x ∧ x.connection = some c) ∧
    (∀ o ∈ s.destroyed, ∃ p, o = .peer p ∧ s.peers p = none) ∧ s.destroyed.Nodup ∧
    ∀ e s', Prompt s e → step m s e = some s' →
      (∀ c, (s'.conns c).holder = (s.conns c).holder ∨ Passes s e c) ∧
      ∀ p, Stale s' p ↔ ∃ w a, e = .pollConnect p w a (.err .timedOut) := by
  have hi := held_run h
  refine ⟨fun p x c hp hc => ?_, hi.peer, hi.pools, hi.once, fun e s' he hs => ?_⟩
  · rcases (hi.conn p x c hp hc).1 with h | h
    · exact Or.inl h
    · exact Or.inr ⟨h, x, c, hp, hc, by rw [h]; simp⟩
  · have hs := step_inv hs
    exact ⟨passes_step hi hs, stale_step hi he hs⟩

theorem connections_held_timesOut : ∃ s, (machine .epoll).RunIf Prompt timesOut s ∧ s.destroyed.Nodup ∧
    ∀ c p, (s.conns c).holder = .peer p → ∃ x, s.peers p = some x ∧ x.connection = some c := by
  obtain ⟨s, h⟩ := timesOut_run
  exact ⟨s, h, (connections_held h).2.2.2.1, (connections_held h).2.1⟩

/-- Here other code takes the connection before the drop, which then closes it. -/
theorem late_drop_closes_anothers : ∃ s t, (machine .epoll).Run
      (expires ++ [.pollConnect 0 7 (.test true) (.err .timedOut), .get 0]) s ∧ step .epoll s (.drop 0) = some t ∧
    (s.conns 0).holder = .other ∧ (t.conns 0).holder = .free ∧ t.destroyed = [.peer 0, .other 0] :=
  ⟨_, _, ⟨noPeers, noPeers_init, Lib.Machine.steps_of_exec rfl⟩, rfl, rfl, rfl, rfl⟩

end NgxTickle.Net
