/-
  NgxTickle.Sched.Batch — batching does not change what runs, or in which order.

  Only the main thread moves, and it calls `schedule` only from under `r.run()`; what a
  run schedules is `beh` of the runnables run so far, that one included. So the next
  event is determined (`nextEv`), and an execution is a function of time (`at_`) given
  the batch sizes `ls`, one for each invocation of `async_handler`. Each tick is a run
  of the scheduler of `Sched.Model`, and so is an execution (`at_steps`).

  The reference is the unbounded drain: a `Lib.Worklist`, which takes the queue's head,
  runs it and appends what it schedules, with no handler, flag or fd. Every execution
  is at all times at some point of it (`follows`): its history is the worklist's, and
  the worklist's queue is what is taken, queued, being sent and still to be scheduled.
-/

import NgxTickle.Lib.Worklist
import NgxTickle.Sched.Wakeup

namespace NgxTickle.Sched.Batch

open NgxTickle.Notify NgxTickle.Sched Lib

structure DSt (P ρ : Type) where
  core : St P ρ
  /-- The runnables run so far. -/
  hist : List ρ
  /-- What the run on the stack has still to schedule. -/
  todo : List ρ
  /-- The invocations of `async_handler` so far. -/
  calls : Nat

variable {P ρ : Type}

/-- The main thread's next event; none in the event loop with nothing to read. -/
def nextEv (d : DSt P ρ) : Option (Ev P ρ) :=
  match d.core.pc .main with
  | .entered r => some (.send .main r)
  | .sent => some (.cas .main (!d.core.tickled))
  | .won => some (.write .main)
  | .out =>
    match d.core.handler with
    | .idle => if d.core.fd.readable then some .enter else none
    | .entered => some .drain
    | .drained => some .clear
    | .cleared => some (.load d.core.batch)
    | .loaded _ => some (.isEmpty d.core.chan.isEmpty)
    | .recv _ _ => some (.tryRecv d.core.chan.head?)
    | .took _ _ r => some (.run r)
    | .running limit cnt r =>
      match d.todo with
      | x :: _ => some (.call .main x)
      | [] => some (.ret r (decide (limit ≤ cnt + 1)))
    | .limitHit => some .tickle

/-- Past the drain, before the first look at the channel. -/
def unlooked : Handler ρ → Bool
  | .drained | .cleared | .loaded _ => true
  | _ => false

/-- The event loop has stopped: the main thread is in it, and the fd is not readable. -/
def DSt.Stopped (d : DSt P ρ) : Prop :=
  d.core.handler = .idle ∧ d.core.pc .main = .out ∧ d.core.fd.readable = false

/-- In `schedule`, not sent yet. -/
def inHand : Pc ρ → List ρ
  | .entered r => [r]
  | _ => []

/-- What is run, and what is taken, queued, on its way and still to be scheduled. -/
def view (d : DSt P ρ) : Worklist ρ :=
  ⟨d.hist, d.core.handler.taken ++ d.core.chan ++ inHand (d.core.pc .main) ++ d.todo⟩

def pcRank : Pc ρ → Nat
  | .entered _ => 3
  | .sent => 2
  | .won => 1
  | .out => 0

/-- How far it is to the next run, or to the stop. -/
def rank (d : DSt P ρ) : Nat :=
  match d.core.handler with
  | .running .. => 20 + 4 * d.todo.length + pcRank (d.core.pc .main)
  | .recv .. => if d.core.chan = [] then 15 else 2
  | .limitHit => 14
  | .idle => if d.core.fd.readable then 13 else 0
  | .entered => 12
  | .drained => 11
  | .cleared => 10
  | .loaded _ => 9
  | .took .. => 1

section

variable (beh : List ρ → List ρ) (ls : Nat → UInt32)

/-- What the event does besides its step: an invocation finds its batch size, a run
    its schedule calls. -/
def settle (d : DSt P ρ) (c : St P ρ) : Ev P ρ → DSt P ρ
  | .enter => ⟨{ c with batch := ls d.calls }, d.hist, d.todo, d.calls + 1⟩
  | .run r => ⟨c, d.hist ++ [r], beh (d.hist ++ [r]), d.calls⟩
  | .call _ _ => ⟨c, d.hist, d.todo.tail, d.calls⟩
  | _ => ⟨c, d.hist, d.todo, d.calls⟩

/-- The events of the scheduler behind one tick. -/
def tickEvs (d : DSt P ρ) : List (Ev P ρ) :=
  match nextEv d with
  | none => []
  | some .enter => [.enter, .setBatch (ls d.calls)]
  | some e => [e]

variable [DecidableEq P] [DecidableEq ρ]

def tick (d : DSt P ρ) : DSt P ρ :=
  match nextEv d with
  | none => d
  | some e =>
    match step d.core e with
    | none => d
    | some c => settle beh ls d c e

/-- The execution from the channel contents `chan` at time `n`. -/
def at_ (d₀ : DSt P ρ) : Nat → DSt P ρ
  | 0 => d₀
  | n + 1 => tick beh ls (at_ d₀ n)

end

def begin_ (chan : List ρ) (tickled : Bool) (batch : UInt32) (fd : Fd) : DSt P ρ :=
  ⟨start chan tickled batch fd, [], [], 0⟩

/-! ## A tick is a run of the scheduler -/

/-- Outside a run nothing is on its way or left to schedule; between its drain and its
    first look at the channel the handler's fd stays drained; no other thread moves. -/
structure Solo (d : DSt P ρ) : Prop where
  outside : d.core.handler.inRun = [] → d.core.pc .main = .out ∧ d.todo = []
  drained : unlooked d.core.handler = true → d.core.fd.readable = false
  others : ∀ p, d.core.pc (.other p) = .out
  inv : Inv d.core

theorem solo_begin (chan : List ρ) (tickled : Bool) (batch : UInt32) {fd : Fd} (h : fd.readable = true) :
    Solo (begin_ chan tickled batch fd : DSt P ρ) :=
  ⟨fun _ => ⟨rfl, rfl⟩, fun h => (nomatch h), fun _ => rfl, inv_start chan tickled batch fd (Or.inl h)⟩

theorem Solo.of_running {d : DSt P ρ} {l c : UInt32} {r : ρ} (hh : d.core.handler = .running l c r)
    (ho : ∀ p, d.core.pc (.other p) = .out) (hi : Inv d.core) : Solo d :=
  ⟨fun h => (by rw [hh] at h; cases h), fun h => (by rw [hh] at h; cases h), ho, hi⟩

/-- The handler moves on, outside a run. -/
theorem Solo.move {d d' : DSt P ρ} (hd : Solo d) (hr : d.core.handler.inRun = []) (hp : d'.core.pc = d.core.pc)
    (ht : d'.todo = d.todo) (hf : unlooked d'.core.handler = true → d'.core.fd.readable = false)
    (hi : Inv d'.core) : Solo d' :=
  ⟨fun _ => by rw [hp, ht]; exact hd.outside hr, hf, fun p => by rw [hp]; exact hd.others p, hi⟩

/-- While a run is on the stack, the handler is in `r.run()`. -/
theorem inRun_running {h : Handler ρ} (hr : h.inRun ≠ []) : ∃ l c r, h = .running l c r := by
  cases h with
  | running l c r => exact ⟨l, c, r, rfl⟩
  | _ => exact absurd rfl hr

/-- A thread inside `schedule` is under a run. -/
theorem Solo.running {d : DSt P ρ} (hd : Solo d) (hp : d.core.pc .main ≠ .out) :
    ∃ l c r, d.core.handler = .running l c r :=
  inRun_running fun h => hp (hd.outside h).1

theorem nextEv_call {d : DSt P ρ} {t : Thread P} {r : ρ} (h : nextEv d = some (.call t r)) :
    t = .main ∧ d.core.pc .main = .out ∧ (∃ l c r', d.core.handler = .running l c r') ∧ ∃ xs, d.todo = r :: xs := by
  cases hp : d.core.pc .main with
  | out =>
    cases hh : d.core.handler with
    | running l c r' =>
      simp only [nextEv, hp, hh] at h
      split at h
      · rename_i x xs hx
        cases h
        exact ⟨rfl, rfl, ⟨l, c, r', rfl⟩, xs, hx⟩
      · cases h
    | idle => simp only [nextEv, hp, hh] at h; split at h <;> cases h
    | _ => simp only [nextEv, hp, hh] at h; cases h
  | _ => simp only [nextEv, hp] at h; cases h

theorem nextEv_main {d : DSt P ρ} {t : Thread P} {e : Ev P ρ} (h : nextEv d = some e)
    (he : (∃ r, e = .send t r) ∨ (∃ b, e = .cas t b) ∨ e = .write t) : t = .main ∧ d.core.pc .main ≠ .out := by
  unfold nextEv at h
  rcases he with ⟨r, rfl⟩ | ⟨b, rfl⟩ | rfl
  all_goals
    split at h
    · simp_all
    · simp_all
    · simp_all
    · (repeat' split at h) <;> simp at h

theorem nextEv_ret {d : DSt P ρ} {r : ρ} {hit : Bool} (h : nextEv d = some (.ret r hit)) : d.todo = [] := by
  unfold nextEv at h
  (repeat' split at h) <;> simp_all

theorem nextEv_setBatch {d : DSt P ρ} {v : UInt32} : nextEv d ≠ some (.setBatch v) := by
  intro h
  unfold nextEv at h
  (repeat' split at h) <;> simp at h

theorem nextEv_none {d : DSt P ρ} (h : nextEv d = none) : d.Stopped := by
  unfold nextEv at h
  (repeat' split at h) <;> simp_all [DSt.Stopped]

section

variable (beh : List ρ → List ρ) (ls : Nat → UInt32)
variable [DecidableEq P] [DecidableEq ρ]

/-- The next event is always enabled. -/
theorem nextEv_enabled {d : DSt P ρ} {e : Ev P ρ} (h : nextEv d = some e) : ∃ c, step d.core e = some c := by
  cases hp : d.core.pc .main with
  | entered r => simp only [nextEv, hp] at h; cases h; exact ⟨_, (Step.send _ _ _ hp).eq⟩
  | sent =>
    simp only [nextEv, hp] at h
    cases h
    cases ht : d.core.tickled with
    | true => exact ⟨_, (Step.casLost _ _ hp ht).eq⟩
    | false => exact ⟨_, (Step.casWon _ _ hp ht).eq⟩
  | won => simp only [nextEv, hp] at h; cases h; exact ⟨_, (Step.write _ _ hp).eq⟩
  | out =>
    cases hh : d.core.handler with
    | idle =>
      simp only [nextEv, hp, hh] at h
      split at h
      · rename_i hr; cases h; exact ⟨_, (Step.enter _ hh hp hr).eq⟩
      · cases h
    | entered => simp only [nextEv, hp, hh] at h; cases h; exact ⟨_, (Step.drain _ hh).eq⟩
    | drained => simp only [nextEv, hp, hh] at h; cases h; exact ⟨_, (Step.clear _ hh).eq⟩
    | cleared => simp only [nextEv, hp, hh] at h; cases h; exact ⟨_, (Step.load _ hh).eq⟩
    | loaded l =>
      simp only [nextEv, hp, hh] at h
      cases h
      cases hc : d.core.chan with
      | nil => exact ⟨_, (Step.empty _ l hh hc).eq⟩
      | cons x xs => exact ⟨_, (Step.nonempty _ l hh (by rw [hc]; simp)).eq⟩
    | recv l c =>
      simp only [nextEv, hp, hh] at h
      cases h
      cases hc : d.core.chan with
      | nil => exact ⟨_, (Step.recvNone _ l c hh hc).eq⟩
      | cons x xs => exact ⟨_, (Step.recvSome _ l c x xs hh hc).eq⟩
    | took l c r => simp only [nextEv, hp, hh] at h; cases h; exact ⟨_, (Step.run _ l c r hh).eq⟩
    | running l c r =>
      simp only [nextEv, hp, hh] at h
      split at h
      · cases h; exact ⟨_, (Step.call _ _ _ hp (by simp [St.mayCall, hh, Handler.open_])).eq⟩
      · cases h
        by_cases hle : l ≤ c + 1
        · rw [decide_eq_true hle]; exact ⟨_, (Step.retLimit _ l c r hh hp hle).eq⟩
        · rw [decide_eq_false hle]; exact ⟨_, (Step.retNext _ l c r hh hp hle).eq⟩
    | limitHit => simp only [nextEv, hp, hh] at h; cases h; exact ⟨_, (Step.tickle _ hh).eq⟩

/-- What a tick does: nothing once stopped, else the next event's step. -/
theorem tick_cases (d : DSt P ρ) :
    d.Stopped ∧ tick beh ls d = d ∨
      ∃ e c, nextEv d = some e ∧ Step d.core e c ∧ tick beh ls d = settle beh ls d c e := by
  cases h : nextEv d with
  | none => left; exact ⟨nextEv_none h, by simp [tick, h]⟩
  | some e =>
    right
    obtain ⟨c, hc⟩ := nextEv_enabled h
    exact ⟨e, c, rfl, step_inv hc, by simp [tick, h, hc]⟩

theorem solo_tick {d : DSt P ρ} (hd : Solo d) : Solo (tick beh ls d) := by
  rcases tick_cases beh ls d with ⟨_, h⟩ | ⟨e, c, hn, hs, ht⟩
  · rw [h]; exact hd
  rw [ht]
  have hi : Inv c := inv_step hd.inv hs
  cases hs with
  | call t r hpc _ =>
    obtain ⟨rfl, -, ⟨l, k, r', hh⟩, -⟩ := nextEv_call hn
    exact Solo.of_running hh (fun p => by simp [settle, setPc_ne, hd.others p]) hi
  | send t r hpc =>
    obtain ⟨rfl, hp⟩ := nextEv_main hn (Or.inl ⟨r, rfl⟩)
    obtain ⟨l, k, r', hh⟩ := hd.running hp
    exact Solo.of_running hh (fun p => by simp [settle, St.setPc, hd.others p]) hi
  | casWon t hpc _ =>
    obtain ⟨rfl, hp⟩ := nextEv_main hn (Or.inr (Or.inl ⟨true, rfl⟩))
    obtain ⟨l, k, r', hh⟩ := hd.running hp
    exact Solo.of_running hh (fun p => by simp [settle, St.setPc, hd.others p]) hi
  | casLost t hpc _ =>
    obtain ⟨rfl, hp⟩ := nextEv_main hn (Or.inr (Or.inl ⟨false, rfl⟩))
    obtain ⟨l, k, r', hh⟩ := hd.running hp
    exact Solo.of_running hh (fun p => by simp [settle, setPc_ne, hd.others p]) hi
  | write t hpc =>
    obtain ⟨rfl, hp⟩ := nextEv_main hn (Or.inr (Or.inr rfl))
    obtain ⟨l, k, r', hh⟩ := hd.running hp
    exact Solo.of_running hh (fun p => by simp [settle, St.setPc, hd.others p]) hi
  | setBatch value => exact absurd hn nextEv_setBatch
  | enter hh _ _ =>
    exact hd.move (by rw [hh]; rfl) rfl rfl (by simp [settle, unlooked]) ⟨hi.tickled, hi.queued⟩
  | drain hh => exact hd.move (by rw [hh]; rfl) rfl rfl (fun _ => Fd.drain_readable _) hi
  | clear hh => exact hd.move (by rw [hh]; rfl) rfl rfl (fun _ => hd.drained (by rw [hh]; rfl)) hi
  | load hh => exact hd.move (by rw [hh]; rfl) rfl rfl (fun _ => hd.drained (by rw [hh]; rfl)) hi
  | empty limit hh _ => exact hd.move (by rw [hh]; rfl) rfl rfl (by simp [settle, unlooked]) hi
  | nonempty limit hh _ => exact hd.move (by rw [hh]; rfl) rfl rfl (by simp [settle, unlooked]) hi
  | recvNone limit cnt hh _ => exact hd.move (by rw [hh]; rfl) rfl rfl (by simp [settle, unlooked]) hi
  | recvSome limit cnt r rest hh _ => exact hd.move (by rw [hh]; rfl) rfl rfl (by simp [settle, unlooked]) hi
  | run limit cnt r hh => exact Solo.of_running rfl hd.others hi
  | retLimit limit cnt r hh hp _ =>
    have ht := nextEv_ret hn
    exact ⟨fun _ => ⟨hp, ht⟩, by simp [settle, unlooked], hd.others, hi⟩
  | retNext limit cnt r hh hp _ =>
    have ht := nextEv_ret hn
    exact ⟨fun _ => ⟨hp, ht⟩, by simp [settle, unlooked], hd.others, hi⟩
  | tickle hh => exact hd.move (by rw [hh]; rfl) rfl rfl (by simp [settle, unlooked]) hi

theorem solo_at {d₀ : DSt P ρ} (h : Solo d₀) (n : Nat) : Solo (at_ beh ls d₀ n) := by
  induction n with
  | zero => exact h
  | succ n ih => exact solo_tick beh ls ih

/-- Each tick is a run of the scheduler. -/
theorem tick_steps (d : DSt P ρ) : (machine P ρ).Steps d.core (tickEvs ls d) (tick beh ls d).core := by
  unfold tick tickEvs
  cases h : nextEv d with
  | none => exact .nil _
  | some e =>
    obtain ⟨c, hc⟩ := nextEv_enabled h
    simp only [hc]
    cases e with
    | enter => exact .cons hc (.single rfl)
    | _ => exact .single hc

/-- So an execution is a run of it, at every time. -/
theorem at_steps (d₀ : DSt P ρ) (n : Nat) : ∃ tr, (machine P ρ).Steps d₀.core tr (at_ beh ls d₀ n).core := by
  induction n with
  | zero => exact ⟨[], .nil _⟩
  | succ n ih =>
    obtain ⟨tr, h⟩ := ih
    exact ⟨tr ++ _, h.append (tick_steps beh ls _)⟩

/-! ## Every execution follows the unbounded drain -/

omit [DecidableEq P] [DecidableEq ρ] in
theorem view_eq {d d' : DSt P ρ} (hh : d'.hist = d.hist)
    (hq : d'.core.handler.taken ++ d'.core.chan ++ inHand (d'.core.pc .main) ++ d'.todo =
      d.core.handler.taken ++ d.core.chan ++ inHand (d.core.pc .main) ++ d.todo) : view d' = view d := by
  simp only [view, hh, hq]

/-- A tick that begins a run is one step of the unbounded drain; every other tick is none. -/
theorem view_tick {d : DSt P ρ} (hd : Solo d) :
    view (tick beh ls d) = view d ∨ view (tick beh ls d) = (view d).next beh := by
  rcases tick_cases beh ls d with ⟨_, h⟩ | ⟨e, c, hn, hs, ht⟩
  · rw [h]; exact Or.inl rfl
  rw [ht]
  cases hs with
  | call t r hpc _ =>
    obtain ⟨rfl, hp, -, xs, hx⟩ := nextEv_call hn
    exact Or.inl (view_eq rfl (by simp [settle, hp, hx, inHand]))
  | send t r hpc =>
    obtain ⟨rfl, hp⟩ := nextEv_main hn (Or.inl ⟨r, rfl⟩)
    exact Or.inl (view_eq rfl (by simp [settle, St.setPc, hpc, inHand]))
  | casWon t hpc _ =>
    obtain ⟨rfl, hp⟩ := nextEv_main hn (Or.inr (Or.inl ⟨true, rfl⟩))
    exact Or.inl (view_eq rfl (by simp [settle, St.setPc, hpc, inHand]))
  | casLost t hpc _ =>
    obtain ⟨rfl, hp⟩ := nextEv_main hn (Or.inr (Or.inl ⟨false, rfl⟩))
    exact Or.inl (view_eq rfl (by simp [settle, hpc, inHand]))
  | write t hpc =>
    obtain ⟨rfl, hp⟩ := nextEv_main hn (Or.inr (Or.inr rfl))
    exact Or.inl (view_eq rfl (by simp [settle, St.setPc, hpc, inHand]))
  | recvSome limit cnt r rest hh hc => exact Or.inl (view_eq rfl (by simp [settle, hh, hc, Handler.taken]))
  | run limit cnt r hh =>
    obtain ⟨hp, ht⟩ := hd.outside (by rw [hh]; rfl)
    have hq : (view d).queue = r :: d.core.chan := by simp [view, hh, hp, ht, Handler.taken, inHand]
    right
    rw [Worklist.next_cons beh hq]
    simp [view, settle, hp, Handler.taken, inHand]
  | retLimit limit cnt r hh _ _ => exact Or.inl (view_eq rfl (by simp [settle, hh, Handler.taken]))
  | retNext limit cnt r hh _ _ => exact Or.inl (view_eq rfl (by simp [settle, hh, Handler.taken]))
  | setBatch value => exact absurd hn nextEv_setBatch
  | enter hh _ _ => exact Or.inl (view_eq rfl (by simp [settle, hh, Handler.taken]))
  | drain hh => exact Or.inl (view_eq rfl (by simp [settle, hh, Handler.taken]))
  | clear hh => exact Or.inl (view_eq rfl (by simp [settle, hh, Handler.taken]))
  | load hh => exact Or.inl (view_eq rfl (by simp [settle, hh, Handler.taken]))
  | empty limit hh _ => exact Or.inl (view_eq rfl (by simp [settle, hh, Handler.taken]))
  | nonempty limit hh _ => exact Or.inl (view_eq rfl (by simp [settle, hh, Handler.taken]))
  | recvNone limit cnt hh _ => exact Or.inl (view_eq rfl (by simp [settle, hh, Handler.taken]))
  | tickle hh => exact Or.inl (view_eq rfl (by simp [settle, hh, Handler.taken]))

/-- An execution is at all times at some point of the unbounded drain. -/
theorem follows {d₀ : DSt P ρ} (h : Solo d₀) (n : Nat) : ∃ k, view (at_ beh ls d₀ n) = (view d₀).after beh k := by
  induction n with
  | zero => exact ⟨0, rfl⟩
  | succ n ih =>
    obtain ⟨k, hk⟩ := ih
    rcases view_tick beh ls (solo_at beh ls h n) with h1 | h1
    · exact ⟨k, h1.trans hk⟩
    · exact ⟨k + 1, h1.trans (by rw [hk]; rfl)⟩

omit [DecidableEq P] [DecidableEq ρ] in
/-- Stopped, nothing is left to do. -/
theorem stopped_done {d : DSt P ρ} (hd : Solo d) (hs : d.Stopped) : d.core.chan = [] ∧ (view d).queue = [] := by
  obtain ⟨hh, hp, hf⟩ := hs
  have hq : d.core.Quiet := by
    intro t
    cases t with
    | main => exact hp
    | other p => exact hd.others p
  have hc : d.core.chan = [] := by
    by_cases hc : d.core.chan = []
    · exact hc
    · rw [watched_rest hd.inv.queued (fun h => h) hh hq hc] at hf
      cases hf
  have ht : d.todo = [] := (hd.outside (by rw [hh]; rfl)).2
  exact ⟨hc, by simp [view, hh, hp, hc, ht, Handler.taken, inHand]⟩

/-! ## Progress -/

/-- Until it stops, each tick begins a run or comes closer to one, or to the stop. -/
theorem tick_progress {d : DSt P ρ} (hd : Solo d) (hn : ¬ d.Stopped) :
    (tick beh ls d).hist.length = d.hist.length + 1 ∨
      (tick beh ls d).hist.length = d.hist.length ∧ rank (tick beh ls d) < rank d := by
  rcases tick_cases beh ls d with ⟨h, _⟩ | ⟨e, c, hn, hs, ht⟩
  · exact absurd h hn
  rw [ht]
  cases hs with
  | call t r hpc _ =>
    obtain ⟨rfl, hp, ⟨l, k, r', hh⟩, xs, hx⟩ := nextEv_call hn
    right
    simp [settle, rank, hh, hp, hx, pcRank]
    omega
  | send t r hpc =>
    obtain ⟨rfl, hp⟩ := nextEv_main hn (Or.inl ⟨r, rfl⟩)
    obtain ⟨l, k, r', hh⟩ := hd.running hp
    right
    simp [settle, St.setPc, rank, hh, hpc, pcRank]
  | casWon t hpc _ =>
    obtain ⟨rfl, hp⟩ := nextEv_main hn (Or.inr (Or.inl ⟨true, rfl⟩))
    obtain ⟨l, k, r', hh⟩ := hd.running hp
    right
    simp [settle, St.setPc, rank, hh, hpc, pcRank]
  | casLost t hpc _ =>
    obtain ⟨rfl, hp⟩ := nextEv_main hn (Or.inr (Or.inl ⟨false, rfl⟩))
    obtain ⟨l, k, r', hh⟩ := hd.running hp
    right
    simp [settle, rank, hh, hpc, pcRank]
  | write t hpc =>
    obtain ⟨rfl, hp⟩ := nextEv_main hn (Or.inr (Or.inr rfl))
    obtain ⟨l, k, r', hh⟩ := hd.running hp
    right
    simp [settle, St.setPc, rank, hh, hpc, pcRank]
  | run limit cnt r hh => left; simp [settle]
  | setBatch value => exact absurd hn nextEv_setBatch
  | enter hh _ hr => right; simp [settle, rank, hh, hr]
  | drain hh => right; simp [settle, rank, hh]
  | clear hh => right; simp [settle, rank, hh]
  | load hh => right; simp [settle, rank, hh]
  | empty limit hh _ => right; simp [settle, rank, hh, hd.drained (by rw [hh]; rfl)]
  | nonempty limit hh hc => right; simp [settle, rank, hh, hc]
  | recvNone limit cnt hh hc => right; simp [settle, rank, hh, hc]; split <;> omega
  | recvSome limit cnt r rest hh hc => right; simp [settle, rank, hh, hc]
  | retLimit limit cnt r hh _ _ => right; simp [settle, rank, hh]; omega
  | retNext limit cnt r hh _ _ =>
    right
    by_cases hc : d.core.chan = []
    · simp [settle, rank, hh, hc]; omega
    · simp [settle, rank, hh, hc]; omega
  | tickle hh => right; simp [settle, rank, hh]

/-- An execution that never has more than `N` runs stops. -/
theorem stops {N : Nat} {d₀ : DSt P ρ} (h : Solo d₀) (hN : ∀ n, (at_ beh ls d₀ n).hist.length ≤ N) :
    ∃ n, (at_ beh ls d₀ n).Stopped := by
  have key : ∀ a b n, N - (at_ beh ls d₀ n).hist.length = a → rank (at_ beh ls d₀ n) = b →
      ∃ m, (at_ beh ls d₀ m).Stopped := by
    intro a
    induction a using Nat.strong_induction_on with
    | h a iha =>
      intro b
      induction b using Nat.strong_induction_on with
      | h b ihb =>
        intro n ha hb
        by_cases hs : (at_ beh ls d₀ n).Stopped
        · exact ⟨n, hs⟩
        · have hle := hN (n + 1)
          rcases tick_progress beh ls (solo_at beh ls h n) hs with h1 | ⟨h1, h2⟩
          · have h1 : (at_ beh ls d₀ (n + 1)).hist.length = (at_ beh ls d₀ n).hist.length + 1 := h1
            exact iha _ (by omega) _ (n + 1) rfl rfl
          · have h1 : (at_ beh ls d₀ (n + 1)).hist.length = (at_ beh ls d₀ n).hist.length := h1
            exact ihb _ (hb ▸ h2) (n + 1) (by omega) rfl
  exact key _ _ 0 rfl rfl

omit [DecidableEq P] [DecidableEq ρ] in
theorem view_begin (chan : List ρ) (tickled : Bool) (batch : UInt32) (fd : Fd) :
    view (begin_ chan tickled batch fd : DSt P ρ) = ⟨[], chan⟩ := by
  simp [view, begin_, start, Handler.taken, inHand]

end

/-- Two executions from one queue, with any batch sizes, any flag and any readable fds:
    at any two times one has run a prefix of what the other has; if one stops the other
    does, and where they have stopped they have run the same and nothing is queued. Both
    follow the unbounded drain, and stop where it is done. -/
theorem batch_sizes_agree [DecidableEq P] [DecidableEq ρ] (beh : List ρ → List ρ) (chan : List ρ) (ls ls' : Nat → UInt32)
    (tickled tickled' : Bool) (batch batch' : UInt32) (fd fd' : Fd) (h : fd.readable = true) (h' : fd'.readable = true) :
    let A := at_ beh ls (begin_ chan tickled batch fd : DSt P ρ)
    let B := at_ beh ls' (begin_ chan tickled' batch' fd' : DSt P ρ)
    (∀ m n, (A m).hist <+: (B n).hist ∨ (B n).hist <+: (A m).hist) ∧
    (∀ m, (A m).Stopped → (A m).core.chan = [] ∧
      ∃ n, (B n).Stopped ∧ (B n).hist = (A m).hist ∧ (B n).core.chan = []) ∧
    (∀ m n, (A m).Stopped → (B n).Stopped → (A m).hist = (B n).hist) ∧
    ∀ m, ∃ k, (A m).hist = (Worklist.after beh ⟨[], chan⟩ k).hist ∧
      ((A m).Stopped → (Worklist.after beh ⟨[], chan⟩ k).queue = []) := by
  intro A B
  have hA := solo_begin (P := P) chan tickled batch h
  have hB := solo_begin (P := P) chan tickled' batch' h'
  have fA : ∀ m, ∃ k, view (A m) = Worklist.after beh ⟨[], chan⟩ k := by
    intro m
    rw [← view_begin chan tickled batch fd]
    exact follows beh ls hA m
  have fB : ∀ n, ∃ k, view (B n) = Worklist.after beh ⟨[], chan⟩ k := by
    intro n
    rw [← view_begin chan tickled' batch' fd']
    exact follows beh ls' hB n
  have dA : ∀ m, (A m).Stopped → (A m).core.chan = [] ∧ (view (A m)).queue = [] := fun m =>
    stopped_done (solo_at beh ls hA m)
  have dB : ∀ n, (B n).Stopped → (B n).core.chan = [] ∧ (view (B n)).queue = [] := fun n =>
    stopped_done (solo_at beh ls' hB n)
  have same : ∀ m n, (A m).Stopped → (B n).Stopped → (A m).hist = (B n).hist := by
    intro m n hm hn
    obtain ⟨k, hk⟩ := fA m
    obtain ⟨j, hj⟩ := fB n
    have h1 := (dA m hm).2
    have h2 := (dB n hn).2
    rw [hk] at h1
    rw [hj] at h2
    show (view (A m)).hist = (view (B n)).hist
    rw [hk, hj, Worklist.done_unique beh h1 h2]
  refine ⟨fun m n => ?_, fun m hm => ?_, same, fun m => ?_⟩
  · obtain ⟨k, hk⟩ := fA m
    obtain ⟨j, hj⟩ := fB n
    have hc := Worklist.hist_comparable beh ⟨[], chan⟩ k j
    rw [← hk, ← hj] at hc
    exact hc
  · obtain ⟨k, hk⟩ := fA m
    have hd := (dA m hm).2
    rw [hk] at hd
    -- what the stopped execution has run bounds the other
    obtain ⟨n, hn⟩ := stops beh ls' hB (N := (Worklist.after beh ⟨[], chan⟩ k).hist.length) fun n => by
      obtain ⟨j, hj⟩ := fB n
      have := Worklist.hist_le_done beh hd j
      rw [← hj] at this
      exact this
    exact ⟨(dA m hm).1, n, hn, (same m n hm hn).symm, (dB n hn).1⟩
  · obtain ⟨k, hk⟩ := fA m
    exact ⟨k, by rw [← hk]; rfl, fun hm => hk ▸ (dA m hm).2⟩

/-- A run of 5 schedules 6, once; the batch sizes are 8 and 1. -/
def burst (hist : List Nat) : List Nat := if hist = [5] then [6] else []

theorem batch_sizes_agree_burst :
    ∃ n, (at_ burst (fun _ => 1) (begin_ [5] false 8 (Fd.new 1 (by decide)).write : DSt Nat Nat) n).Stopped ∧
      (at_ burst (fun _ => 1) (begin_ [5] false 8 (Fd.new 1 (by decide)).write : DSt Nat Nat) n).hist = [5, 6] := by
  have h := batch_sizes_agree (P := Nat) burst [5] (fun _ => 8) (fun _ => 1) false false 8 8
    (Fd.new 1 (by decide)).write (Fd.new 1 (by decide)).write (by decide) (by decide)
  have hs : (at_ burst (fun _ => 8) (begin_ [5] false 8 (Fd.new 1 (by decide)).write : DSt Nat Nat) 21).Stopped :=
    ⟨rfl, rfl, rfl⟩
  obtain ⟨-, n, hn, hh, -⟩ := h.2.1 21 hs
  exact ⟨n, hn, hh.trans rfl⟩

end NgxTickle.Sched.Batch
