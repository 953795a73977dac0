/-
  NgxTickle.Net.Model — `PeerConnection`, futures over an nginx connection
  (`examples/nginx_acme/net/peer_conn.rs`, `connection.rs`).

  All of it runs on the main thread, a poll or an event handler at a time, and a wake only
  queues the task; so each poll, drop and handler is one step. What nginx and the socket
  answer is in the event, with what the poll returned or whom the handler woke.

  nginx, as assumed: connections lie in an array. `ngx_get_connection` takes a free one
  and clears its events; `ngx_close_connection` deletes its timers and events and puts it
  back, and where it is closed already it only logs. An active event's handler is called
  when its socket becomes ready, and a set timer's when it expires (`timedout` stays set).
  After `ngx_handle_read_event`, an event that is not ready is active; one that is ready is
  not, for methods that report a level. `ngx_event_connect_peer` leaves `pc.connection`
  null unless it returns NGX_OK or NGX_AGAIN. It makes the read event active, and the write
  event with epoll, or if the connect has not finished. Other code takes and closes
  connections of its own.
-/

import Mathlib.Logic.Function.Basic
import NgxTickle.Lib.Machine

namespace NgxTickle.Net

abbrev PeerId := Nat
abbrev ConnId := Nat
abbrev Waker := Nat

/-- The event method: one that reports edges, and adds both events of a connection at
    once (epoll) or each by itself (kqueue), or one that reports a level (select, poll). -/
inductive Method where
  | epoll
  | kqueue
  | level
  deriving DecidableEq, Repr

/-- `ngx_event_t`. -/
structure Event where
  active : Bool
  ready : Bool
  timedout : Bool
  timer_set : Bool
  deriving DecidableEq, Repr

inductive Holder where
  | free
  | peer (p : PeerId)
  | other
  deriving DecidableEq, Repr

inductive Pool where
  | peer (p : PeerId)
  | other (c : ConnId)
  deriving DecidableEq, Repr

/-- `ngx_connection_t`; `c.data` is its holder. -/
structure Conn where
  holder : Holder
  pool : Option Pool
  read : Event
  write : Event
  deriving DecidableEq, Repr

structure PeerConnection where
  /-- `pc.connection`. -/
  connection : Option ConnId
  rev : Option Waker
  wev : Option Waker
  deriving DecidableEq, Repr

structure St where
  conns : ConnId → Conn
  peers : PeerId → Option PeerConnection
  /-- The pools that `ngx_destroy_pool` was called on. -/
  destroyed : List Pool

inductive ErrorKind where
  | invalidInput
  | timedOut
  | os
  | unexpectedEof
  | connectionRefused
  deriving DecidableEq, Repr

/-- What a poll returns; `ok n` says how many bytes were read or written. -/
inductive Ret where
  | pending
  | ok (n : Nat)
  | err (e : ErrorKind)
  deriving DecidableEq, Repr

/-- `ngx_event_connect_peer`, or the result of `test_connect`. -/
inductive Connect where
  | ok (c : ConnId)
  | again (c : ConnId)
  | failed
  | test (ok : Bool)
  deriving DecidableEq, Repr

inductive Recv where
  | again
  | got (n : Nat)
  | error
  deriving DecidableEq, Repr

/-- `recv`, whether it leaves the event ready, and whether `ngx_handle_read_event`
    succeeds. -/
structure RecvAns where
  n : Recv
  ready : Bool
  handled : Bool
  deriving DecidableEq, Repr

/-- `send`; after one that sent something, whether the event is still ready. -/
inductive Send where
  | again
  | sent (n : Nat) (ready : Bool)
  | failed
  deriving DecidableEq, Repr

inductive Ev where
  | new (p : PeerId)
  | pollConnect (p : PeerId) (w : Waker) (a : Connect) (r : Ret)
  | pollRead (p : PeerId) (w : Waker) (a : RecvAns) (r : Ret)
  | pollWrite (p : PeerId) (w : Waker) (a : Send) (r : Ret)
  | pollShutdown (p : PeerId)
  | drop (p : PeerId)
  | readEvent (c : ConnId) (woke : Option Waker)
  | readTimer (c : ConnId) (woke : Option Waker)
  | writeEvent (c : ConnId) (woke : Option Waker) (handled : Bool)
  | get (c : ConnId)
  | put (c : ConnId)
  deriving DecidableEq, Repr

namespace Event

def fresh : Event := ⟨false, false, false, false⟩

/-- `ngx_handle_read_event`, `ngx_handle_write_event`. -/
def handle (m : Method) (e : Event) : Event :=
  match m with
  | .level => if e.active = e.ready then { e with active := !e.active } else e
  | _ => if e.active || e.ready then e else { e with active := true }

/-- `ngx_add_timer` if the event is active, else `ngx_del_timer`. -/
def time (e : Event) : Event := { e with timer_set := e.active }

/-- `ngx_close_connection` deletes it. -/
def delete (e : Event) : Event := { e with active := false, timer_set := false }

end Event

namespace Conn

/-- After `connect_peer` for `p`. -/
def connected (m : Method) (p : PeerId) (again : Bool) : Conn where
  holder := .peer p
  pool := some (.peer p)
  read := { Event.fresh with active := true, timer_set := again }
  write := { Event.fresh with active := decide (m = .epoll) || again, ready := !again }

/-- Taken by other code. -/
def taken (c : ConnId) : Conn := ⟨.other, some (.other c), .fresh, .fresh⟩

def closed (k : Conn) : Conn := { k with holder := .free, read := k.read.delete, write := k.write.delete }

/-- The answers a socket can give; a closed one gives errors. -/
def canRecv (k : Conn) (a : RecvAns) : Bool :=
  match a.n with
  | .error => true
  | .again => decide (k.holder ≠ .free) && !a.ready
  | .got _ => decide (k.holder ≠ .free)

def canSend (k : Conn) : Send → Bool
  | .failed => true
  | _ => decide (k.holder ≠ .free)

end Conn

namespace St

def setConn (s : St) (c : ConnId) (k : Conn) : St := { s with conns := Function.update s.conns c k }

def setPeer (s : St) (p : PeerId) (x : PeerConnection) : St := { s with peers := Function.update s.peers p (some x) }

def setRead (s : St) (c : ConnId) (e : Event) : St := s.setConn c { s.conns c with read := e }

def setWrite (s : St) (c : ConnId) (e : Event) : St := s.setConn c { s.conns c with write := e }

/-- `ngx_close_connection`. -/
def closeConn (s : St) (c : ConnId) : St :=
  if (s.conns c).holder = .free then s else s.setConn c (s.conns c).closed

/-- `ngx_destroy_pool`, for a pool that is not the peer's own. -/
def destroyNot (s : St) (p : PeerId) : Option Pool → St
  | some o => if o = .peer p then s else { s with destroyed := o :: s.destroyed }
  | none => s

end St

/-! ## `PeerConnection` -/

/-- `PeerConnection::close`. -/
def close (s : St) (p : PeerId) (x : PeerConnection) : St :=
  match x.connection with
  | none => s
  | some c => ((s.closeConn c).setPeer p { x with connection := none }).destroyNot p (s.conns c).pool

/-- Its `Drop`, and that of its OwnedPool. -/
def drop (s : St) (p : PeerId) (x : PeerConnection) : St :=
  { close s p x with
    peers := Function.update (close s p x).peers p none
    destroyed := .peer p :: (close s p x).destroyed }

def poll_connect (m : Method) (s : St) (p : PeerId) (x : PeerConnection) (w : Waker) (a : Connect) : Option (St × Ret) :=
  match x.connection with
  | some c =>
    if (s.conns c).read.timedout || (s.conns c).write.timedout then some (s.closeConn c, .err .timedOut)
    else match a with
      | .test false => some (s, .err .os)
      | .test true => if (s.conns c).holder ≠ .free then some (s, .ok 0) else none
      | _ => none
  | none =>
    match a with
    | .ok c =>
      if (s.conns c).holder = .free then
        some ((s.setConn c (.connected m p false)).setPeer p { x with connection := some c }, .ok 0)
      else none
    | .again c =>
      if (s.conns c).holder = .free then
        some ((s.setConn c (.connected m p true)).setPeer p ⟨some c, some w, some w⟩, .pending)
      else none
    | .failed => some (s, .err .connectionRefused)
    | .test _ => none

def poll_read (m : Method) (s : St) (p : PeerId) (x : PeerConnection) (w : Waker) (a : RecvAns) : Option (St × Ret) :=
  match x.connection with
  | none => some (s, .err .invalidInput)
  | some c =>
    if (s.conns c).read.timedout then some (s, .err .timedOut)
    else if (s.conns c).canRecv a then
      match a.n, a.handled with
      | .error, _ => some (s.setRead c { (s.conns c).read with ready := a.ready }, .err .os)
      | _, false => some (s.setRead c { (s.conns c).read with ready := a.ready }, .err .unexpectedEof)
      | .again, true =>
        some ((s.setRead c (({ (s.conns c).read with ready := a.ready } : Event).handle m).time).setPeer p
          { x with rev := some w }, .pending)
      | .got n, true => some (s.setRead c (({ (s.conns c).read with ready := a.ready } : Event).handle m).time, .ok n)
    else none

def poll_write (s : St) (p : PeerId) (x : PeerConnection) (w : Waker) (a : Send) : Option (St × Ret) :=
  match x.connection with
  | none => some (s, .err .invalidInput)
  | some c =>
    if (s.conns c).canSend a then
      match a with
      | .again =>
        some ((s.setWrite c { (s.conns c).write with ready := false }).setPeer p { x with wev := some w }, .pending)
      | .sent (n + 1) ready => some (s.setWrite c { (s.conns c).write with ready := ready }, .ok (n + 1))
      | _ => some (s, .err .unexpectedEof)
    else none

/-! ## Event handlers -/

/-- `ngx_peer_conn_read_handler`: the read event of `c` is set to `e`, and `rev` taken. -/
def ngx_peer_conn_read_handler (s : St) (c : ConnId) (e : Event) (woke : Option Waker) : Option St :=
  match (s.conns c).holder with
  | .peer p =>
    match s.peers p with
    | some x => if woke = x.rev then some ((s.setRead c e).setPeer p { x with rev := none }) else none
    | none => none
  | _ => none

/-- `ngx_peer_conn_write_handler`; with nobody to wake the event is handled. -/
def ngx_peer_conn_write_handler (m : Method) (s : St) (c : ConnId) (e : Event) (woke : Option Waker) (handled : Bool) :
    Option St :=
  match (s.conns c).holder with
  | .peer p =>
    match s.peers p with
    | some x =>
      if woke = x.wev then
        some ((s.setWrite c (if x.wev.isNone && handled then e.handle m else e)).setPeer p { x with wev := none })
      else none
    | none => none
  | _ => none

/-- The step of a poll that returned `r`. -/
def returned (o : Option (St × Ret)) (r : Ret) : Option St := o.bind fun q => if q.2 = r then some q.1 else none

def step (m : Method) (s : St) : Ev → Option St
  | .new p => if s.peers p = none ∧ .peer p ∉ s.destroyed then some (s.setPeer p ⟨none, none, none⟩) else none
  | .pollConnect p w a r => (s.peers p).bind fun x => returned (poll_connect m s p x w a) r
  | .pollRead p w a r => (s.peers p).bind fun x => returned (poll_read m s p x w a) r
  | .pollWrite p w a r => (s.peers p).bind fun x => returned (poll_write s p x w a) r
  | .pollShutdown p => (s.peers p).map (close s p)
  | .drop p => (s.peers p).map (drop s p)
  | .readEvent c woke =>
    if (s.conns c).read.active then ngx_peer_conn_read_handler s c { (s.conns c).read with ready := true } woke else none
  | .readTimer c woke =>
    if (s.conns c).read.timer_set then
      ngx_peer_conn_read_handler s c { (s.conns c).read with timer_set := false, timedout := true } woke
    else none
  | .writeEvent c woke handled =>
    if (s.conns c).write.active then
      ngx_peer_conn_write_handler m s c { (s.conns c).write with ready := true } woke handled
    else none
  | .get c => if (s.conns c).holder = .free then some (s.setConn c (.taken c)) else none
  | .put c => if (s.conns c).holder = .other then some (s.setConn c (s.conns c).closed) else none

def Init (s : St) : Prop :=
  (∀ p, s.peers p = none) ∧ s.destroyed = [] ∧ ∀ c, (s.conns c).holder = .free ∨ (s.conns c).holder = .other

def machine (m : Method) : Lib.Machine St Ev := ⟨Init, step m⟩

/-! ## What each step can do -/

/-- `poll_connect` of peer `p`, and what it returns. -/
inductive Connects (m : Method) (s : St) (p : PeerId) (x : PeerConnection) (w : Waker) : St → Ret → Prop
  /-- The connection is closed, and `pc.connection` stays. -/
  | timedOut (c : ConnId) : x.connection = some c →
      (s.conns c).read.timedout = true ∨ (s.conns c).write.timedout = true →
      Connects m s p x w (s.closeConn c) (.err .timedOut)
  | tested (c : ConnId) (r : Ret) : x.connection = some c → (s.conns c).read.timedout = false →
      r = .err .os ∨ r = .ok 0 → Connects m s p x w s r
  | ok (c : ConnId) : x.connection = none → (s.conns c).holder = .free →
      Connects m s p x w ((s.setConn c (.connected m p false)).setPeer p { x with connection := some c }) (.ok 0)
  | again (c : ConnId) : x.connection = none → (s.conns c).holder = .free →
      Connects m s p x w ((s.setConn c (.connected m p true)).setPeer p ⟨some c, some w, some w⟩) .pending
  | refused : x.connection = none → Connects m s p x w s (.err .connectionRefused)

/-- `poll_read`. Only a read that goes on past `recv` sets the timer. -/
inductive Reads (m : Method) (s : St) (p : PeerId) (x : PeerConnection) (w : Waker) : St → Ret → Prop
  | none : x.connection = none → Reads m s p x w s (.err .invalidInput)
  | timedOut (c : ConnId) : x.connection = some c → (s.conns c).read.timedout = true →
      Reads m s p x w s (.err .timedOut)
  | failed (c : ConnId) (ready : Bool) (e : ErrorKind) : x.connection = some c → (s.conns c).read.timedout = false →
      Reads m s p x w (s.setRead c { (s.conns c).read with ready := ready }) (.err e)
  | got (c : ConnId) (ready : Bool) (n : Nat) : x.connection = some c → (s.conns c).holder ≠ .free →
      (s.conns c).read.timedout = false →
      Reads m s p x w (s.setRead c (({ (s.conns c).read with ready := ready } : Event).handle m).time) (.ok n)
  | again (c : ConnId) : x.connection = some c → (s.conns c).holder ≠ .free → (s.conns c).read.timedout = false →
      Reads m s p x w
        ((s.setRead c (({ (s.conns c).read with ready := false } : Event).handle m).time).setPeer p
          { x with rev := some w }) .pending

inductive Writes (s : St) (p : PeerId) (x : PeerConnection) (w : Waker) : St → Ret → Prop
  | failed (e : ErrorKind) : Writes s p x w s (.err e)
  | sent (c : ConnId) (ready : Bool) (n : Nat) : x.connection = some c → (s.conns c).holder ≠ .free →
      Writes s p x w (s.setWrite c { (s.conns c).write with ready := ready }) (.ok n)
  | again (c : ConnId) : x.connection = some c → (s.conns c).holder ≠ .free →
      Writes s p x w ((s.setWrite c { (s.conns c).write with ready := false }).setPeer p { x with wev := some w }) .pending

inductive Step (m : Method) : St → Ev → St → Prop
  | new (s : St) (p : PeerId) : s.peers p = none → .peer p ∉ s.destroyed →
      Step m s (.new p) (s.setPeer p ⟨none, none, none⟩)
  | connect (s t : St) (p : PeerId) (w : Waker) (a : Connect) (r : Ret) (x : PeerConnection) : s.peers p = some x →
      Connects m s p x w t r → Step m s (.pollConnect p w a r) t
  | read (s t : St) (p : PeerId) (w : Waker) (a : RecvAns) (r : Ret) (x : PeerConnection) : s.peers p = some x →
      Reads m s p x w t r → Step m s (.pollRead p w a r) t
  | write (s t : St) (p : PeerId) (w : Waker) (a : Send) (r : Ret) (x : PeerConnection) : s.peers p = some x →
      Writes s p x w t r → Step m s (.pollWrite p w a r) t
  | shutdown (s : St) (p : PeerId) (x : PeerConnection) : s.peers p = some x →
      Step m s (.pollShutdown p) (close s p x)
  | drop (s : St) (p : PeerId) (x : PeerConnection) : s.peers p = some x → Step m s (.drop p) (Net.drop s p x)
  | readEvent (s : St) (c : ConnId) (p : PeerId) (x : PeerConnection) : (s.conns c).holder = .peer p →
      s.peers p = some x → Step m s (.readEvent c x.rev)
        ((s.setRead c { (s.conns c).read with ready := true }).setPeer p { x with rev := none })
  | readTimer (s : St) (c : ConnId) (p : PeerId) (x : PeerConnection) : (s.conns c).holder = .peer p →
      s.peers p = some x → Step m s (.readTimer c x.rev)
        ((s.setRead c { (s.conns c).read with timer_set := false, timedout := true }).setPeer p { x with rev := none })
  | writeEvent (s : St) (c : ConnId) (p : PeerId) (x : PeerConnection) (handled : Bool) :
      (s.conns c).holder = .peer p → s.peers p = some x → (s.conns c).write.active = true →
      Step m s (.writeEvent c x.wev handled)
        ((s.setWrite c (if x.wev.isNone && handled then ({ (s.conns c).write with ready := true } : Event).handle m
          else { (s.conns c).write with ready := true })).setPeer p { x with wev := none })
  | get (s : St) (c : ConnId) : (s.conns c).holder = .free → Step m s (.get c) (s.setConn c (.taken c))
  | put (s : St) (c : ConnId) : (s.conns c).holder = .other → Step m s (.put c) (s.setConn c (s.conns c).closed)

theorem connects_inv {m : Method} {s t : St} {p : PeerId} {x : PeerConnection} {w : Waker} {a : Connect} {r : Ret}
    (h : poll_connect m s p x w a = some (t, r)) : Connects m s p x w t r := by
  unfold poll_connect at h
  split at h
  · rename_i c hc
    split at h
    · rename_i ht
      cases h
      exact .timedOut c hc (by simpa using ht)
    · rename_i ht
      have ht : (s.conns c).read.timedout = false := by
        rw [Bool.or_eq_true, not_or] at ht
        simpa using ht.1
      split at h
      · cases h; exact .tested c _ hc ht (Or.inl rfl)
      · split at h
        · cases h; exact .tested c _ hc ht (Or.inr rfl)
        · cases h
      · cases h
  · rename_i hc
    split at h
    · rename_i c
      split at h
      · rename_i hf; cases h; exact .ok c hc hf
      · cases h
    · rename_i c
      split at h
      · rename_i hf; cases h; exact .again c hc hf
      · cases h
    · cases h; exact .refused hc
    · cases h

theorem canRecv_open {k : Conn} {a : RecvAns} (h : k.canRecv a = true) (hn : a.n ≠ .error) : k.holder ≠ .free := by
  unfold Conn.canRecv at h
  split at h
  · rename_i he; exact absurd he hn
  · rw [Bool.and_eq_true] at h; simpa using h.1
  · simpa using h

theorem reads_inv {m : Method} {s t : St} {p : PeerId} {x : PeerConnection} {w : Waker} {a : RecvAns} {r : Ret}
    (h : poll_read m s p x w a = some (t, r)) : Reads m s p x w t r := by
  unfold poll_read at h
  split at h
  · rename_i hc; cases h; exact .none hc
  · rename_i c hc
    split at h
    · rename_i ht; cases h; exact .timedOut c hc ht
    · rename_i ht
      have ht : (s.conns c).read.timedout = false := by simpa using ht
      split at h
      · rename_i hcan
        split at h
        · cases h; exact .failed c a.ready _ hc ht
        · cases h; exact .failed c a.ready _ hc ht
        · rename_i hn _
          have hr : a.ready = false := by
            simp only [Conn.canRecv, hn, Bool.and_eq_true, Bool.not_eq_true'] at hcan
            exact hcan.2
          rw [hr] at h
          cases h
          exact .again c hc (canRecv_open hcan (by simp [hn])) ht
        · rename_i n hn _
          cases h
          exact .got c a.ready n hc (canRecv_open hcan (by simp [hn])) ht
      · cases h

theorem writes_inv {s t : St} {p : PeerId} {x : PeerConnection} {w : Waker} {a : Send} {r : Ret}
    (h : poll_write s p x w a = some (t, r)) : Writes s p x w t r := by
  unfold poll_write at h
  split at h
  · cases h; exact .failed _
  · rename_i c hc
    split at h
    · rename_i hcan
      split at h
      · cases h
        exact .again c hc (by simpa [Conn.canSend] using hcan)
      · cases h
        exact .sent c _ _ hc (by simpa [Conn.canSend] using hcan)
      · cases h; exact .failed _
    · cases h

theorem returned_some {o : Option (St × Ret)} {r : Ret} {t : St} (h : returned o r = some t) : o = some (t, r) := by
  obtain ⟨q, rfl, hq⟩ := Option.bind_eq_some_iff.mp h
  rw [Option.ite_none_right_eq_some] at hq
  obtain ⟨rfl, hq⟩ := hq
  cases hq
  rfl

theorem step_inv {m : Method} {s s' : St} {e : Ev} (h : step m s e = some s') : Step m s e s' := by
  cases e with
  | new p =>
    simp only [step, Option.ite_none_right_eq_some, Option.some.injEq] at h
    obtain ⟨⟨h1, h2⟩, rfl⟩ := h
    exact .new s p h1 h2
  | pollConnect p w a r =>
    obtain ⟨x, hx, h⟩ := Option.bind_eq_some_iff.mp h
    exact .connect s s' p w a r x hx (connects_inv (returned_some h))
  | pollRead p w a r =>
    obtain ⟨x, hx, h⟩ := Option.bind_eq_some_iff.mp h
    exact .read s s' p w a r x hx (reads_inv (returned_some h))
  | pollWrite p w a r =>
    obtain ⟨x, hx, h⟩ := Option.bind_eq_some_iff.mp h
    exact .write s s' p w a r x hx (writes_inv (returned_some h))
  | pollShutdown p =>
    obtain ⟨x, hx, rfl⟩ := Option.map_eq_some_iff.mp h
    exact .shutdown s p x hx
  | drop p =>
    obtain ⟨x, hx, rfl⟩ := Option.map_eq_some_iff.mp h
    exact .drop s p x hx
  | readEvent c woke =>
    simp only [step, ngx_peer_conn_read_handler, Option.ite_none_right_eq_some] at h
    obtain ⟨-, h⟩ := h
    split at h
    · rename_i p hk
      split at h
      · rename_i x hx
        rw [Option.ite_none_right_eq_some] at h
        obtain ⟨rfl, h⟩ := h
        cases h
        exact .readEvent s c p x hk hx
      · cases h
    · cases h
  | readTimer c woke =>
    simp only [step, ngx_peer_conn_read_handler, Option.ite_none_right_eq_some] at h
    obtain ⟨-, h⟩ := h
    split at h
    · rename_i p hk
      split at h
      · rename_i x hx
        rw [Option.ite_none_right_eq_some] at h
        obtain ⟨rfl, h⟩ := h
        cases h
        exact .readTimer s c p x hk hx
      · cases h
    · cases h
  | writeEvent c woke handled =>
    simp only [step, ngx_peer_conn_write_handler, Option.ite_none_right_eq_some] at h
    obtain ⟨ha, h⟩ := h
    split at h
    · rename_i p hk
      split at h
      · rename_i x hx
        rw [Option.ite_none_right_eq_some] at h
        obtain ⟨rfl, h⟩ := h
        cases h
        exact .writeEvent s c p x handled hk hx ha
      · cases h
    · cases h
  | get c =>
    simp only [step, Option.ite_none_right_eq_some, Option.some.injEq] at h
    obtain ⟨h1, rfl⟩ := h
    exact .get s c h1
  | put c =>
    simp only [step, Option.ite_none_right_eq_some, Option.some.injEq] at h
    obtain ⟨h1, rfl⟩ := h
    exact .put s c h1

end NgxTickle.Net
