/-
  NgxTickle.Net.Wake — a task that waits for its connection is woken. A reader and a
  connecting task always are: the read event is active and its timer set, as long as
  nothing woke the task and it did nothing itself (`reader_woken`, `connecting_woken`).
  Once the timer has expired, `poll_read` returns an error until the connection is closed.

  A writer has no timer, and `poll_write` does not handle the event on NGX_AGAIN; so it is
  woken where the write event is active at all times, which is with epoll only
  (`writer_woken`). With kqueue no event is added where the connect finishes at once;
  with a level-triggered method the handler deletes it when nobody waits.
-/

import NgxTickle.Net.Held

namespace NgxTickle.Net

/-- The peer of a call. -/
def Ev.peer : Ev → Option PeerId
  | .new p | .pollConnect p _ _ _ | .pollRead p _ _ _ | .pollWrite p _ _ _ | .pollShutdown p | .drop p => some p
  | _ => none

/-- The connection of an event. -/
def Ev.conn : Ev → Option ConnId
  | .readEvent c _ | .readTimer c _ | .writeEvent c _ _ => some c
  | _ => none

/-- The reader is woken, or it is its own doing. -/
def EndsRead (p : PeerId) (w : Waker) : Ev → Prop
  | .pollRead q _ _ _ | .pollConnect q _ _ _ | .pollShutdown q | .drop q => q = p
  | .readEvent _ woke | .readTimer _ woke => woke = some w
  | _ => False

def EndsWrite (p : PeerId) (w : Waker) : Ev → Prop
  | .pollWrite q _ _ _ | .pollConnect q _ _ _ | .pollShutdown q | .drop q => q = p
  | .writeEvent _ woke _ => woke = some w
  | _ => False

/-- The peer holds the connection. -/
structure Has (s : St) (p : PeerId) (x : PeerConnection) (c : ConnId) : Prop where
  peer : s.peers p = some x
  conn : x.connection = some c
  holder : (s.conns c).holder = .peer p

def Reading (s : St) (p : PeerId) (w : Waker) (c : ConnId) : Prop :=
  ∃ x, Has s p x c ∧ x.rev = some w ∧ (s.conns c).read.active = true ∧ (s.conns c).read.timer_set = true

def Writing (s : St) (p : PeerId) (w : Waker) (c : ConnId) : Prop :=
  ∃ x, Has s p x c ∧ x.wev = some w ∧ (s.conns c).write.active = true

def TimedOut (s : St) (p : PeerId) (c : ConnId) : Prop := ∃ x, Has s p x c ∧ (s.conns c).read.timedout = true

/-! ## What other steps leave -/

/-- Another peer's connection is another one. -/
theorem Has.apart {s : St} (hi : Held s) {p q : PeerId} {x y : PeerConnection} {c d : ConnId} (h : Has s p x c)
    (hq : s.peers q = some y) (hy : y.connection = some d) (hne : q ≠ p) : c ≠ d := by
  rintro rfl
  rcases (hi.conn q y c hq hy).1 with hk | hk
  · rw [h.holder] at hk
    cases hk
    exact hne rfl
  · rw [h.holder] at hk
    cases hk

theorem Has.only {s : St} (hi : Held s) {p : PeerId} {x : PeerConnection} {c d : ConnId} (h : Has s p x c)
    (hd : (s.conns d).holder = .peer p) : d = c := by
  obtain ⟨y, hy, hyd⟩ := hi.peer d p hd
  rw [h.peer] at hy
  cases hy
  rw [h.conn] at hyd
  exact (Option.some.inj hyd).symm

theorem frame_close {s : St} (hi : Held s) {p q : PeerId} {x y : PeerConnection} {c : ConnId} (h : Has s p x c)
    (hq : s.peers q = some y) (hne : q ≠ p) :
    (close s q y).peers p = s.peers p ∧ (close s q y).conns c = s.conns c := by
  refine ⟨(close_peers hi hq).2.1 p (Ne.symm hne), ?_⟩
  cases hy : y.connection with
  | none => simp only [close, hy]
  | some d =>
    rw [close_some hi hq hy]
    exact closeConn_ne s (h.apart hi hq hy hne)

/-- A step that is not the peer's own nor of its connection leaves both. -/
theorem frame {m : Method} {s s' : St} {e : Ev} (hi : Held s) (hs : Step m s e s') {p : PeerId} {x : PeerConnection}
    {c : ConnId} (h : Has s p x c) (hp : e.peer ≠ some p) (hc : e.conn ≠ some c) :
    s'.peers p = s.peers p ∧ s'.conns c = s.conns c := by
  have other : ∀ {q : PeerId}, some q ≠ some p → p ≠ q := fun hq e => hq (congrArg some e.symm)
  have apart : ∀ {q : PeerId} {y : PeerConnection} {d : ConnId}, some q ≠ some p → s.peers q = some y →
      y.connection = some d → c ≠ d := fun hq hy hd => h.apart hi hy hd (other hq).symm
  have event : ∀ {d : ConnId} {q : PeerId}, some d ≠ some c → (s.conns d).holder = .peer q → p ≠ q ∧ c ≠ d := by
    intro d q hd hq
    refine ⟨fun e => hd ?_, fun e => hd (congrArg some e.symm)⟩
    rw [← e] at hq
    exact congrArg some (h.only hi hq)
  cases hs with
  | new q hq _ => exact ⟨setPeer_ne s _ (other hp), rfl⟩
  | connect _ q w a r y hq ho =>
    cases ho with
    | timedOut d hd _ => exact ⟨by rw [closeConn_peers], closeConn_ne s (apart hp hq hd)⟩
    | tested d r _ _ _ => exact ⟨rfl, rfl⟩
    | ok d _ hf =>
      have hcd : c ≠ d := by
        rintro rfl
        rw [h.holder] at hf
        cases hf
      exact ⟨setPeer_ne _ _ (other hp), setConn_ne s _ hcd⟩
    | again d _ hf =>
      have hcd : c ≠ d := by
        rintro rfl
        rw [h.holder] at hf
        cases hf
      exact ⟨setPeer_ne _ _ (other hp), setConn_ne s _ hcd⟩
    | refused _ => exact ⟨rfl, rfl⟩
  | read _ q w a r y hq ho =>
    cases ho with
    | none _ => exact ⟨rfl, rfl⟩
    | timedOut d _ _ => exact ⟨rfl, rfl⟩
    | failed d ready k hd _ => exact ⟨rfl, setConn_ne s _ (apart hp hq hd)⟩
    | got d ready n hd _ _ => exact ⟨rfl, setConn_ne s _ (apart hp hq hd)⟩
    | again d hd _ _ => exact ⟨setPeer_ne _ _ (other hp), setConn_ne s _ (apart hp hq hd)⟩
  | write _ q w a r y hq ho =>
    cases ho with
    | failed k => exact ⟨rfl, rfl⟩
    | sent d ready n hd _ => exact ⟨rfl, setConn_ne s _ (apart hp hq hd)⟩
    | again d hd _ => exact ⟨setPeer_ne _ _ (other hp), setConn_ne s _ (apart hp hq hd)⟩
  | shutdown q y hq => exact frame_close hi h hq (other hp).symm
  | drop q y hq =>
    obtain ⟨h1, h2⟩ := frame_close hi h hq (other hp).symm
    exact ⟨by simpa [Net.drop, other hp] using h1, h2⟩
  | readEvent d q y hd _ => exact ⟨setPeer_ne _ _ (event hc hd).1, setConn_ne s _ (event hc hd).2⟩
  | readTimer d q y hd _ => exact ⟨setPeer_ne _ _ (event hc hd).1, setConn_ne s _ (event hc hd).2⟩
  | writeEvent d q y _ hd _ _ => exact ⟨setPeer_ne _ _ (event hc hd).1, setConn_ne s _ (event hc hd).2⟩
  | get d hf =>
    refine ⟨rfl, setConn_ne s _ ?_⟩
    rintro rfl
    rw [h.holder] at hf
    cases hf
  | put d ho =>
    refine ⟨rfl, setConn_ne s _ ?_⟩
    rintro rfl
    rw [h.holder] at ho
    cases ho

theorem Has.frame {s s' : St} {p : PeerId} {x : PeerConnection} {c : ConnId} (h : Has s p x c)
    (hf : s'.peers p = s.peers p ∧ s'.conns c = s.conns c) : Has s' p x c :=
  ⟨hf.1.trans h.peer, h.conn, by rw [hf.2]; exact h.holder⟩

@[simp] theorem setRead_read (s : St) (c : ConnId) (e : Event) : ((s.setRead c e).conns c).read = e := by
  simp [St.setRead, setConn_self]

@[simp] theorem setRead_write (s : St) (c : ConnId) (e : Event) :
    ((s.setRead c e).conns c).write = (s.conns c).write := by
  simp [St.setRead, setConn_self]

@[simp] theorem setWrite_write (s : St) (c : ConnId) (e : Event) : ((s.setWrite c e).conns c).write = e := by
  simp [St.setWrite, setConn_self]

@[simp] theorem setWrite_read (s : St) (c : ConnId) (e : Event) :
    ((s.setWrite c e).conns c).read = (s.conns c).read := by
  simp [St.setWrite, setConn_self]

@[simp] theorem setPeer_conns (s : St) (p : PeerId) (x : PeerConnection) : (s.setPeer p x).conns = s.conns := rfl

theorem Has.setRead {s : St} {p : PeerId} {x : PeerConnection} {c : ConnId} (h : Has s p x c) (e : Event) :
    Has (s.setRead c e) p x c :=
  ⟨h.peer, h.conn, by rw [St.setRead, setConn_self]; exact h.holder⟩

theorem Has.setWrite {s : St} {p : PeerId} {x : PeerConnection} {c : ConnId} (h : Has s p x c) (e : Event) :
    Has (s.setWrite c e) p x c :=
  ⟨h.peer, h.conn, by rw [St.setWrite, setConn_self]; exact h.holder⟩

theorem Has.setPeer {s : St} {p : PeerId} {x y : PeerConnection} {c : ConnId} (h : Has s p x c)
    (hy : y.connection = x.connection) : Has (s.setPeer p y) p y c :=
  ⟨setPeer_self s p y, hy.trans h.conn, h.holder⟩

/-- The peer of a call, and of an event of its connection. -/
theorem Has.self {s : St} {p q : PeerId} {x y : PeerConnection} {c d : ConnId} (h : Has s p x c)
    (hq : s.peers q = some y) (hs : some q = some p ∧ y.connection = some d ∨
      some d = some c ∧ (s.conns d).holder = .peer q) : q = p ∧ y = x ∧ d = c := by
  have hqp : q = p := by
    rcases hs with ⟨hs, -⟩ | ⟨hs, hd⟩
    · exact Option.some.inj hs
    · cases hs
      rw [h.holder] at hd
      cases hd
      rfl
  subst hqp
  rw [h.peer] at hq
  cases hq
  refine ⟨rfl, rfl, ?_⟩
  rcases hs with ⟨-, hd⟩ | ⟨hs, -⟩
  · rw [h.conn] at hd
    exact (Option.some.inj hd).symm
  · exact Option.some.inj hs

theorem Has.not_new {s : St} {p q : PeerId} {x : PeerConnection} {c : ConnId} (h : Has s p x c)
    (hq : s.peers q = none) : some q ≠ some p := by
  rintro ⟨⟩
  rw [h.peer] at hq
  cases hq

theorem reading_step {m : Method} {s s' : St} {e : Ev} (hi : Held s) {p : PeerId} {w : Waker} {c : ConnId}
    (h : Reading s p w c) (he : ¬ EndsRead p w e) (hs : Step m s e s') : Reading s' p w c := by
  obtain ⟨x, hx, hw, ha⟩ := h
  by_cases hp : e.peer = some p
  · cases hs with
    | new q hq _ => exact absurd hp (hx.not_new hq)
    | write _ q v a r y hq ho =>
      cases ho with
      | failed k => exact ⟨x, hx, hw, ha⟩
      | sent d ready n hd _ =>
        obtain ⟨rfl, rfl, rfl⟩ := hx.self hq (Or.inl ⟨hp, hd⟩)
        exact ⟨y, hx.setWrite _, hw, by simpa using ha⟩
      | again d hd _ =>
        obtain ⟨rfl, rfl, rfl⟩ := hx.self hq (Or.inl ⟨hp, hd⟩)
        exact ⟨_, (hx.setWrite _).setPeer rfl, hw, by simpa using ha⟩
    | connect | read | shutdown | drop => cases hp; exact absurd rfl he
    | readEvent | readTimer | writeEvent | get | put => cases hp
  · by_cases hc : e.conn = some c
    · cases hs with
      | readEvent d q y hd hq =>
        obtain ⟨rfl, rfl, rfl⟩ := hx.self hq (Or.inr ⟨hc, hd⟩)
        exact absurd hw he
      | readTimer d q y hd hq =>
        obtain ⟨rfl, rfl, rfl⟩ := hx.self hq (Or.inr ⟨hc, hd⟩)
        exact absurd hw he
      | writeEvent d q y handled hd hq _ =>
        obtain ⟨rfl, rfl, rfl⟩ := hx.self hq (Or.inr ⟨hc, hd⟩)
        exact ⟨_, (hx.setWrite _).setPeer rfl, hw, by simpa using ha⟩
      | new | connect | read | write | shutdown | drop | get | put => cases hc
    · have hf := frame hi hs hx hp hc
      exact ⟨x, hx.frame hf, hw, by rw [hf.2]; exact ha⟩

theorem writing_step {m : Method} {s s' : St} {e : Ev} (hi : Held s) {p : PeerId} {w : Waker} {c : ConnId}
    (h : Writing s p w c) (he : ¬ EndsWrite p w e) (hs : Step m s e s') : Writing s' p w c := by
  obtain ⟨x, hx, hw, ha⟩ := h
  by_cases hp : e.peer = some p
  · cases hs with
    | new q hq _ => exact absurd hp (hx.not_new hq)
    | read _ q v a r y hq ho =>
      cases ho with
      | none _ => exact ⟨x, hx, hw, ha⟩
      | timedOut d _ _ => exact ⟨x, hx, hw, ha⟩
      | failed d ready k hd _ =>
        obtain ⟨rfl, rfl, rfl⟩ := hx.self hq (Or.inl ⟨hp, hd⟩)
        exact ⟨y, hx.setRead _, hw, by simpa using ha⟩
      | got d ready n hd _ _ =>
        obtain ⟨rfl, rfl, rfl⟩ := hx.self hq (Or.inl ⟨hp, hd⟩)
        exact ⟨y, hx.setRead _, hw, by simpa using ha⟩
      | again d hd _ _ =>
        obtain ⟨rfl, rfl, rfl⟩ := hx.self hq (Or.inl ⟨hp, hd⟩)
        exact ⟨_, (hx.setRead _).setPeer rfl, hw, by simpa using ha⟩
    | connect | write | shutdown | drop => cases hp; exact absurd rfl he
    | readEvent | readTimer | writeEvent | get | put => cases hp
  · by_cases hc : e.conn = some c
    · cases hs with
      | readEvent d q y hd hq =>
        obtain ⟨rfl, rfl, rfl⟩ := hx.self hq (Or.inr ⟨hc, hd⟩)
        exact ⟨_, (hx.setRead _).setPeer rfl, hw, by simpa using ha⟩
      | readTimer d q y hd hq =>
        obtain ⟨rfl, rfl, rfl⟩ := hx.self hq (Or.inr ⟨hc, hd⟩)
        exact ⟨_, (hx.setRead _).setPeer rfl, hw, by simpa using ha⟩
      | writeEvent d q y handled hd hq _ =>
        obtain ⟨rfl, rfl, rfl⟩ := hx.self hq (Or.inr ⟨hc, hd⟩)
        exact absurd hw he
      | new | connect | read | write | shutdown | drop | get | put => cases hc
    · have hf := frame hi hs hx hp hc
      exact ⟨x, hx.frame hf, hw, by rw [hf.2]; exact ha⟩

theorem timedOut_step {m : Method} {s s' : St} {e : Ev} (hi : Held s) {p : PeerId} {c : ConnId}
    (h : TimedOut s p c) (he : e.closer ≠ some p) (hs : Step m s e s') : TimedOut s' p c := by
  obtain ⟨x, hx, ht⟩ := h
  by_cases hp : e.peer = some p
  · cases hs with
    | new q hq _ => exact absurd hp (hx.not_new hq)
    | read _ q v a r y hq ho =>
      have not_ : ∀ {d : ConnId}, y.connection = some d → (s.conns d).read.timedout ≠ false := by
        intro d hd
        obtain ⟨rfl, rfl, rfl⟩ := hx.self hq (Or.inl ⟨hp, hd⟩)
        simp [ht]
      cases ho with
      | none _ => exact ⟨x, hx, ht⟩
      | timedOut d _ _ => exact ⟨x, hx, ht⟩
      | failed d ready k hd hf => exact absurd hf (not_ hd)
      | got d ready n hd _ hf => exact absurd hf (not_ hd)
      | again d hd _ hf => exact absurd hf (not_ hd)
    | write _ q v a r y hq ho =>
      cases ho with
      | failed k => exact ⟨x, hx, ht⟩
      | sent d ready n hd _ =>
        obtain ⟨rfl, rfl, rfl⟩ := hx.self hq (Or.inl ⟨hp, hd⟩)
        exact ⟨y, hx.setWrite _, by simpa using ht⟩
      | again d hd _ =>
        obtain ⟨rfl, rfl, rfl⟩ := hx.self hq (Or.inl ⟨hp, hd⟩)
        exact ⟨_, (hx.setWrite _).setPeer rfl, by simpa using ht⟩
    | connect | shutdown | drop => exact absurd hp he
    | readEvent | readTimer | writeEvent | get | put => cases hp
  · by_cases hc : e.conn = some c
    · cases hs with
      | readEvent d q y hd hq =>
        obtain ⟨rfl, rfl, rfl⟩ := hx.self hq (Or.inr ⟨hc, hd⟩)
        exact ⟨_, (hx.setRead _).setPeer rfl, by simpa using ht⟩
      | readTimer d q y hd hq =>
        obtain ⟨rfl, rfl, rfl⟩ := hx.self hq (Or.inr ⟨hc, hd⟩)
        exact ⟨_, (hx.setRead _).setPeer rfl, by simp⟩
      | writeEvent d q y handled hd hq _ =>
        obtain ⟨rfl, rfl, rfl⟩ := hx.self hq (Or.inr ⟨hc, hd⟩)
        exact ⟨_, (hx.setWrite _).setPeer rfl, by simpa using ht⟩
      | new | connect | read | write | shutdown | drop | get | put => cases hc
    · have hf := frame hi hs hx hp hc
      exact ⟨x, hx.frame hf, by rw [hf.2]; exact ht⟩

/-! ## A poll that waits -/

/-- After a read that got nothing, the event is active. -/
theorem handle_again (m : Method) (e : Event) : (({ e with ready := false } : Event).handle m).active = true := by
  obtain ⟨active, ready, timedout, timer_set⟩ := e
  cases active <;> cases m <;> rfl

theorem has_open {s : St} (hi : Held s) {p : PeerId} {x : PeerConnection} {c : ConnId} (hp : s.peers p = some x)
    (hc : x.connection = some c) (ho : (s.conns c).holder ≠ .free) : Has s p x c :=
  ⟨hp, hc, (hi.conn p x c hp hc).1.resolve_right ho⟩

theorem reading_of_read {m : Method} {s t : St} (hi : Held s) {p : PeerId} {w : Waker} {a : RecvAns}
    (hs : step m s (.pollRead p w a .pending) = some t) : ∃ c, Reading t p w c := by
  cases step_inv hs with
  | read _ _ _ _ _ x hp ho =>
    cases ho with
    | again c hc hk _ =>
      have hx := has_open hi hp hc hk
      exact ⟨c, _, (hx.setRead _).setPeer rfl, rfl, by simp [Event.time, handle_again]⟩

theorem both_of_connect {m : Method} {s t : St} {p : PeerId} {w : Waker} {a : Connect}
    (hs : step m s (.pollConnect p w a .pending) = some t) : ∃ c, Reading t p w c ∧ Writing t p w c := by
  cases step_inv hs with
  | connect _ _ _ _ _ x hp ho =>
    cases ho with
    | tested c _ _ _ hr => rcases hr with h | h <;> cases h
    | again c hc hf =>
      have hx : Has ((s.setConn c (.connected m p true)).setPeer p ⟨some c, some w, some w⟩) p ⟨some c, some w, some w⟩ c :=
        ⟨setPeer_self _ p _, rfl, by rw [setPeer_conns, setConn_self]; rfl⟩
      refine ⟨c, ⟨_, hx, rfl, ?_⟩, ⟨_, hx, rfl, ?_⟩⟩ <;> rw [setPeer_conns, setConn_self] <;> simp [Conn.connected]

/-- With epoll, the write event of a peer's connection is active. -/
def Added (s : St) : Prop := ∀ c p, (s.conns c).holder = .peer p → (s.conns c).write.active = true

theorem Added.setConn {s : St} (h : Added s) {c : ConnId} {k : Conn}
    (hk : ∀ p, k.holder = .peer p → k.write.active = true) : Added (s.setConn c k) := by
  intro d p hd
  by_cases e : d = c
  · subst e
    rw [setConn_self] at hd ⊢
    exact hk p hd
  · rw [setConn_ne s k e] at hd ⊢
    exact h d p hd

theorem Added.closeConn {s : St} (h : Added s) (c : ConnId) : Added (s.closeConn c) := by
  unfold St.closeConn
  split
  · exact h
  · exact h.setConn fun p hp => by cases hp

theorem Added.close {s : St} (h : Added s) (p : PeerId) (x : PeerConnection) : Added (close s p x) := by
  unfold Net.close
  split
  · exact h
  · rename_i c _
    have hc := h.closeConn c
    unfold St.destroyNot
    split
    · split <;> exact hc
    · exact hc

theorem added_step {s s' : St} {e : Ev} (h : Added s) (hs : Step .epoll s e s') : Added s' := by
  cases hs with
  | new p _ _ => exact h
  | connect _ p w a r x _ ho =>
    cases ho with
    | timedOut c _ _ => exact h.closeConn c
    | tested c r _ _ _ => exact h
    | ok c _ _ => exact Added.setConn h fun _ _ => rfl
    | again c _ _ => exact Added.setConn h fun _ _ => rfl
    | refused _ => exact h
  | read _ p w a r x _ ho =>
    cases ho with
    | none _ => exact h
    | timedOut c _ _ => exact h
    | failed c ready k _ _ => exact h.setConn (h c)
    | got c ready n _ _ _ => exact h.setConn (h c)
    | again c _ _ _ => exact Added.setConn h (h c)
  | write _ p w a r x _ ho =>
    cases ho with
    | failed k => exact h
    | sent c ready n _ _ => exact h.setConn (h c)
    | again c _ _ => exact Added.setConn h (h c)
  | shutdown p x _ => exact h.close p x
  | drop p x _ => exact h.close p x
  | readEvent c p x _ _ => exact Added.setConn h (h c)
  | readTimer c p x _ _ => exact Added.setConn h (h c)
  | writeEvent c p x handled _ _ ha =>
    refine Added.setConn h fun q _ => ?_
    show Event.active (if _ then _ else _) = true
    split <;> simp [Event.handle, ha]
  | get c _ => exact h.setConn fun p hp => by cases hp
  | put c _ => exact h.setConn fun p hp => by cases hp

theorem added_invariant : (machine .epoll).InvariantIf Prompt fun s => Held s ∧ Added s := by
  refine ⟨fun s hs => ⟨held_init hs, fun c p hp => ?_⟩, fun s e s' hi hc hs => ?_⟩
  · rcases hs.2.2 c with h | h <;> rw [hp] at h <;> cases h
  · exact ⟨(held_invariant .epoll).step s e s' hi.1 hc hs, added_step hi.2 (step_inv hs)⟩

theorem writing_of_write {s t : St} (hi : Held s) (ha : Added s) {p : PeerId} {w : Waker} {a : Send}
    (hs : step .epoll s (.pollWrite p w a .pending) = some t) : ∃ c, Writing t p w c := by
  cases step_inv hs with
  | write _ _ _ _ _ x hp ho =>
    cases ho with
    | again c hc hk =>
      have hx := has_open hi hp hc hk
      exact ⟨c, _, (hx.setWrite _).setPeer rfl, rfl, by simpa using ha c p hx.holder⟩

/-! ## The wake -/

theorem Held.timer {m : Method} {s t : St} (hi : Held s) {c : ConnId} {woke : Option Waker}
    (hs : step m s (.readTimer c woke) = some t) : Held t := by
  cases step_inv hs with
  | readTimer _ _ x _ hp => exact hi.same (same_read_handler hp c _)

theorem Reading.holder {s : St} {p : PeerId} {w : Waker} {c : ConnId} (h : Reading s p w c) :
    (s.conns c).holder = .peer p := by
  obtain ⟨x, hx, -⟩ := h
  exact hx.holder

theorem Reading.event {m : Method} {s : St} {p : PeerId} {w : Waker} {c : ConnId} (h : Reading s p w c) :
    ∃ t, step m s (.readEvent c (some w)) = some t := by
  obtain ⟨x, hx, hw, ha, -⟩ := h
  exact ⟨_, by simp only [step, ha, if_true, ngx_peer_conn_read_handler, hx.holder, hx.peer, hw]; rfl⟩

theorem Reading.timer {m : Method} {s : St} {p : PeerId} {w : Waker} {c : ConnId} (h : Reading s p w c) :
    ∃ t, step m s (.readTimer c (some w)) = some t ∧ TimedOut t p c := by
  obtain ⟨x, hx, hw, -, ht⟩ := h
  refine ⟨_, by simp only [step, ht, if_true, ngx_peer_conn_read_handler, hx.holder, hx.peer, hw]; rfl, ?_⟩
  exact ⟨_, (hx.setRead _).setPeer rfl, by simp⟩

theorem Writing.holder {s : St} {p : PeerId} {w : Waker} {c : ConnId} (h : Writing s p w c) :
    (s.conns c).holder = .peer p := by
  obtain ⟨x, hx, -⟩ := h
  exact hx.holder

theorem Writing.event {m : Method} {s : St} {p : PeerId} {w : Waker} {c : ConnId} (h : Writing s p w c)
    (handled : Bool) : ∃ t, step m s (.writeEvent c (some w) handled) = some t := by
  obtain ⟨x, hx, hw, ha⟩ := h
  exact ⟨_, by simp only [step, ha, if_true, ngx_peer_conn_write_handler, hx.holder, hx.peer, hw]; rfl⟩

theorem TimedOut.read {m : Method} {s t : St} {p : PeerId} {c : ConnId} (h : TimedOut s p c) {w : Waker} {a : RecvAns}
    {r : Ret} (hs : step m s (.pollRead p w a r) = some t) : r = .err .timedOut := by
  obtain ⟨x, hx, ht⟩ := h
  cases step_inv hs with
  | read _ _ _ _ _ y hp ho =>
    rw [hx.peer] at hp
    cases hp
    have not_ : ∀ {d : ConnId}, x.connection = some d → (s.conns d).read.timedout ≠ false := by
      intro d hd
      rw [hx.conn] at hd
      cases hd
      simp [ht]
    cases ho with
    | none hn => rw [hx.conn] at hn; cases hn
    | timedOut d _ _ => rfl
    | failed d ready k hd hf => exact absurd hf (not_ hd)
    | got d ready n hd _ hf => exact absurd hf (not_ hd)
    | again d hd _ hf => exact absurd hf (not_ hd)

theorem TimedOut.connect {m : Method} {s t : St} {p : PeerId} {c : ConnId} (h : TimedOut s p c) {w : Waker}
    {a : Connect} {r : Ret} (hs : step m s (.pollConnect p w a r) = some t) : r = .err .timedOut := by
  obtain ⟨x, hx, ht⟩ := h
  cases step_inv hs with
  | connect _ _ _ _ _ y hp ho =>
    rw [hx.peer] at hp
    cases hp
    cases ho with
    | timedOut d _ _ => rfl
    | tested d _ hd hf _ =>
      rw [hx.conn] at hd
      cases hd
      rw [ht] at hf
      cases hf
    | ok d hn _ => rw [hx.conn] at hn; cases hn
    | again d hn _ => rw [hx.conn] at hn; cases hn
    | refused hn => rw [hx.conn] at hn; cases hn

/-! ## Every run -/

/-- From its timer on, the reader has timed out. -/
theorem Reading.later {m : Method} {s : St} {p : PeerId} {w : Waker} {c : ConnId} (h : Reading s p w c) (hi : Held s) :
    ∃ t, step m s (.readTimer c (some w)) = some t ∧
      ∀ tr u, (machine m).Steps t tr u → (machine m).Meets Prompt t tr → (∀ e ∈ tr, e.closer ≠ some p) →
        TimedOut u p c := by
  obtain ⟨t, ht, hto⟩ := h.timer (m := m)
  have hk : ∀ s e t, Held s → TimedOut s p c → Prompt s e → ¬ e.closer = some p → step m s e = some t →
      TimedOut t p c := fun s e t hi h _ he hs => timedOut_step hi h he (step_inv hs)
  exact ⟨t, ht, fun tr u hs hm hcl => (held_invariant m).stays hk (hi.timer ht) hto hs hm hcl⟩

/-- A task whose `poll_read` is pending is woken when its connection can be read, and when
    its timer expires; from then on `poll_read` says that it timed out. -/
theorem reader_woken {m : Method} {pre post : List Ev} {p : PeerId} {w : Waker} {a : RecvAns} {s : St}
    (h : (machine m).RunIf Prompt (pre ++ .pollRead p w a .pending :: post) s) (hu : ∀ e ∈ post, ¬ EndsRead p w e) :
    ∃ c, (s.conns c).holder = .peer p ∧ (∃ t, step m s (.readEvent c (some w)) = some t) ∧
      ∃ t, step m s (.readTimer c (some w)) = some t ∧
        ∀ tr u, (machine m).Steps t tr u → (machine m).Meets Prompt t tr → (∀ e ∈ tr, e.closer ≠ some p) →
          ∀ v b r u', step m u (.pollRead p v b r) = some u' → r = .err .timedOut := by
  have hb : ∀ s t, Held s → Prompt s (.pollRead p w a .pending) → step m s (.pollRead p w a .pending) = some t →
      ∃ c, Reading t p w c := fun s t hi _ hs => reading_of_read hi hs
  have hk : ∀ s e t, Held s → (∃ c, Reading s p w c) → Prompt s e → ¬ EndsRead p w e → step m s e = some t →
      ∃ c, Reading t p w c := fun s e t hi ⟨c, hc⟩ _ he hs => ⟨c, reading_step hi hc he (step_inv hs)⟩
  obtain ⟨c, hc⟩ := (held_invariant m).lasts hb hk h hu
  obtain ⟨t, ht, hlater⟩ := hc.later (held_run h)
  exact ⟨c, hc.holder, hc.event, t, ht, fun tr u hs hm hcl _ _ _ _ hr => (hlater tr u hs hm hcl).read hr⟩

theorem reader_woken_waits : ∃ s, (machine .level).RunIf Prompt
      ([.new 0, .pollConnect 0 7 (.ok 0) (.ok 0)] ++ .pollRead 0 9 ⟨.again, false, true⟩ .pending :: [.get 1]) s ∧
    ∃ c, (s.conns c).holder = .peer 0 ∧ ∃ t, step .level s (.readEvent c (some 9)) = some t := by
  obtain ⟨s, hs⟩ : ∃ s, (machine .level).exec noPeers ([.new 0, .pollConnect 0 7 (.ok 0) (.ok 0)] ++
      .pollRead 0 9 ⟨.again, false, true⟩ .pending :: [.get 1]) = some s := ⟨_, rfl⟩
  have hr := (fresh_run ⟨noPeers, noPeers_init, Lib.Machine.steps_of_exec hs⟩ (by simp)).1
  obtain ⟨c, hc, ht, -⟩ := reader_woken hr (by simp [EndsRead])
  exact ⟨s, hr, c, hc, ht⟩

/-- One whose `poll_connect` is pending, when its connection can be read or written, or the
    timer expires; the `poll_connect` after that says that it timed out. -/
theorem connecting_woken {m : Method} {pre post : List Ev} {p : PeerId} {w : Waker} {a : Connect} {s : St}
    (h : (machine m).RunIf Prompt (pre ++ .pollConnect p w a .pending :: post) s)
    (hu : ∀ e ∈ post, ¬ (EndsRead p w e ∨ EndsWrite p w e)) :
    ∃ c, (s.conns c).holder = .peer p ∧ (∃ t, step m s (.readEvent c (some w)) = some t) ∧
      (∀ handled, ∃ t, step m s (.writeEvent c (some w) handled) = some t) ∧
      ∃ t, step m s (.readTimer c (some w)) = some t ∧
        ∀ tr u, (machine m).Steps t tr u → (machine m).Meets Prompt t tr → (∀ e ∈ tr, e.closer ≠ some p) →
          ∀ v b r u', step m u (.pollConnect p v b r) = some u' → r = .err .timedOut := by
  have hb : ∀ s t, Held s → Prompt s (.pollConnect p w a .pending) → step m s (.pollConnect p w a .pending) = some t →
      ∃ c, Reading t p w c ∧ Writing t p w c := fun s t _ _ hs => both_of_connect hs
  have hk : ∀ s e t, Held s → (∃ c, Reading s p w c ∧ Writing s p w c) → Prompt s e →
      ¬ (EndsRead p w e ∨ EndsWrite p w e) → step m s e = some t → ∃ c, Reading t p w c ∧ Writing t p w c := by
    rintro s e t hi ⟨c, hr, hw⟩ _ he hs
    rw [not_or] at he
    exact ⟨c, reading_step hi hr he.1 (step_inv hs), writing_step hi hw he.2 (step_inv hs)⟩
  obtain ⟨c, hr, hw⟩ := (held_invariant m).lasts hb hk h hu
  obtain ⟨t, ht, hlater⟩ := hr.later (held_run h)
  exact ⟨c, hr.holder, hr.event, hw.event, t, ht, fun tr u hs hm hcl _ _ _ _ hp => (hlater tr u hs hm hcl).connect hp⟩

theorem connecting_woken_waits : ∃ s, (machine .kqueue).RunIf Prompt
      ([.new 0] ++ .pollConnect 0 7 (.again 0) .pending :: [.get 1]) s ∧
    ∃ c, (s.conns c).holder = .peer 0 ∧ ∃ t, step .kqueue s (.writeEvent c (some 7) true) = some t := by
  obtain ⟨s, hs⟩ : ∃ s, (machine .kqueue).exec noPeers ([.new 0] ++ .pollConnect 0 7 (.again 0) .pending :: [.get 1]) =
      some s := ⟨_, rfl⟩
  have hr := (fresh_run ⟨noPeers, noPeers_init, Lib.Machine.steps_of_exec hs⟩ (by simp)).1
  obtain ⟨c, hc, -, ht, -⟩ := connecting_woken hr (by simp [EndsRead, EndsWrite])
  exact ⟨s, hr, c, hc, ht true⟩

/-! ## Writers -/

/-- A writer whose event is not active. -/
def Stalled (s : St) (p : PeerId) (w : Waker) (c : ConnId) : Prop :=
  ∃ x, Has s p x c ∧ x.wev = some w ∧ (s.conns c).write.active = false

theorem stalled_step {m : Method} {s s' : St} {e : Ev} (hi : Held s) {p : PeerId} {w : Waker} {c : ConnId}
    (h : Stalled s p w c) (he : e.peer ≠ some p) (hs : Step m s e s') : Stalled s' p w c := by
  obtain ⟨x, hx, hw, ha⟩ := h
  by_cases hc : e.conn = some c
  · cases hs with
    | readEvent d q y hd hq =>
      obtain ⟨rfl, rfl, rfl⟩ := hx.self hq (Or.inr ⟨hc, hd⟩)
      exact ⟨_, (hx.setRead _).setPeer rfl, hw, by simpa using ha⟩
    | readTimer d q y hd hq =>
      obtain ⟨rfl, rfl, rfl⟩ := hx.self hq (Or.inr ⟨hc, hd⟩)
      exact ⟨_, (hx.setRead _).setPeer rfl, hw, by simpa using ha⟩
    | writeEvent d q y handled hd hq hact =>
      obtain ⟨rfl, rfl, rfl⟩ := hx.self hq (Or.inr ⟨hc, hd⟩)
      rw [ha] at hact
      cases hact
    | new | connect | read | write | shutdown | drop | get | put => cases hc
  · have hf := frame hi hs hx he hc
    exact ⟨x, hx.frame hf, hw, by rw [hf.2]; exact ha⟩

/-- How a connection comes to be without an active write event: the connect finishes at
    once, or nobody waits for it. -/
def inactive : Method → List Ev
  | .epoll => []
  | .kqueue => [.new 0, .pollConnect 0 7 (.ok 0) (.ok 0)]
  | .level => [.new 0, .pollConnect 0 7 (.again 0) .pending, .writeEvent 0 (some 7) true,
      .pollConnect 0 7 (.test true) (.ok 0), .writeEvent 0 none true]

theorem inactive_stalls {m : Method} (hm : m ≠ .epoll) :
    ∃ s, (machine m).RunIf Prompt (inactive m ++ [.pollWrite 0 7 .again .pending]) s ∧ Stalled s 0 7 0 := by
  cases m with
  | epoll => exact absurd rfl hm
  | kqueue =>
    obtain ⟨s, hs, hst⟩ : ∃ s, (machine .kqueue).exec noPeers (inactive .kqueue ++ [.pollWrite 0 7 .again .pending]) =
        some s ∧ Stalled s 0 7 0 := ⟨_, rfl, _, ⟨rfl, rfl, rfl⟩, rfl, rfl⟩
    exact ⟨s, (fresh_run ⟨noPeers, noPeers_init, Lib.Machine.steps_of_exec hs⟩ (by simp [inactive])).1, hst⟩
  | level =>
    obtain ⟨s, hs, hst⟩ : ∃ s, (machine .level).exec noPeers (inactive .level ++ [.pollWrite 0 7 .again .pending]) =
        some s ∧ Stalled s 0 7 0 := ⟨_, rfl, _, ⟨rfl, rfl, rfl⟩, rfl, rfl⟩
    exact ⟨s, (fresh_run ⟨noPeers, noPeers_init, Lib.Machine.steps_of_exec hs⟩ (by simp [inactive])).1, hst⟩

/-- With epoll, a task whose `poll_write` is pending is woken when its connection can be
    written. With any other method there is a run in which it is not, until the task calls
    by itself. -/
theorem writer_woken (m : Method) :
    (m = .epoll → ∀ pre post p w a s, (machine m).RunIf Prompt (pre ++ .pollWrite p w a .pending :: post) s →
      (∀ e ∈ post, ¬ EndsWrite p w e) →
      ∃ c, (s.conns c).holder = .peer p ∧ ∀ handled, ∃ t, step m s (.writeEvent c (some w) handled) = some t) ∧
    (m ≠ .epoll → ∃ pre p w s, (machine m).RunIf Prompt (pre ++ [.pollWrite p w .again .pending]) s ∧
      ∀ post t, (machine m).Steps s post t → (machine m).Meets Prompt s post → (∀ e ∈ post, e.peer ≠ some p) →
        ∃ y, t.peers p = some y ∧ y.wev = some w) := by
  constructor
  · rintro rfl pre post p w a s h hu
    have hb : ∀ s t, Held s ∧ Added s → Prompt s (.pollWrite p w a .pending) →
        step .epoll s (.pollWrite p w a .pending) = some t → ∃ c, Writing t p w c :=
      fun s t hi _ hs => writing_of_write hi.1 hi.2 hs
    have hk : ∀ s e t, Held s ∧ Added s → (∃ c, Writing s p w c) → Prompt s e → ¬ EndsWrite p w e →
        step .epoll s e = some t → ∃ c, Writing t p w c :=
      fun s e t hi ⟨c, hc⟩ _ he hs => ⟨c, writing_step hi.1 hc he (step_inv hs)⟩
    obtain ⟨c, hc⟩ := added_invariant.lasts hb hk h hu
    exact ⟨c, hc.holder, hc.event⟩
  · intro hm
    obtain ⟨s, hs, hst⟩ := inactive_stalls hm
    refine ⟨inactive m, 0, 7, s, hs, fun post t h hp hu => ?_⟩
    have hk : ∀ s e t, Held s → Stalled s 0 7 0 → Prompt s e → ¬ e.peer = some 0 → step m s e = some t →
        Stalled t 0 7 0 := fun s e t hi h _ he hs => stalled_step hi h he (step_inv hs)
    obtain ⟨y, hy, hw, -⟩ := (held_invariant m).stays hk (held_run hs) hst h hp hu
    exact ⟨y, hy.peer, hw⟩

/-- With epoll, a peer whose write finds the socket buffer full, while other code takes
    another connection; and with kqueue one that nobody wakes. -/
theorem writer_woken_waits :
    (∃ s, (machine .epoll).RunIf Prompt
        ([.new 0, .pollConnect 0 7 (.ok 0) (.ok 0)] ++ .pollWrite 0 9 .again .pending :: [.get 1]) s ∧
      ∃ c, (s.conns c).holder = .peer 0 ∧ ∃ t, step .epoll s (.writeEvent c (some 9) true) = some t) ∧
    ∃ pre p w s, (machine .kqueue).RunIf Prompt (pre ++ [.pollWrite p w .again .pending]) s ∧
      ∃ y, s.peers p = some y ∧ y.wev = some w := by
  constructor
  · obtain ⟨s, hs⟩ : ∃ s, (machine .epoll).exec noPeers ([.new 0, .pollConnect 0 7 (.ok 0) (.ok 0)] ++
        .pollWrite 0 9 .again .pending :: [.get 1]) = some s := ⟨_, rfl⟩
    have hr := (fresh_run ⟨noPeers, noPeers_init, Lib.Machine.steps_of_exec hs⟩ (by simp)).1
    obtain ⟨c, hc, ht⟩ := (writer_woken .epoll).1 rfl _ _ 0 9 .again s hr (by simp [EndsWrite])
    exact ⟨s, hr, c, hc, ht true⟩
  · obtain ⟨pre, p, w, s, hr, hs⟩ := (writer_woken .kqueue).2 (by decide)
    exact ⟨pre, p, w, s, hr, hs [] s (.nil s) Lib.Machine.meets_nil (by simp)⟩

end NgxTickle.Net
