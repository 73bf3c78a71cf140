import Mathlib.Algebra.Order.BigOperators.Group.List
import Mathlib.Algebra.Order.Field.Rat
import Mathlib.Algebra.Order.Group.Abs
import Workq.Jobs.Statements
import Workq.Server.Dispatch

/-!
# The idle poll

The server polls the jobs table when no datagram has come for a while. The handlers keep
the wait in `m_idle_timeout_duration` and in the timer's repeat interval: a datagram or a
poll that finds jobs puts it back to the minimum, a poll that finds none or fails moves it
towards the maximum. Times are exact numbers of any ordered field, with the logarithm of
the back-off as a parameter.
-/

namespace Workq.Server

open Workq.Core Workq.Jobs

variable {K : Type*} [Field K] [LinearOrder K]

/-- An `ev_timer`. -/
structure Timer (K : Type*) where
  active : Bool
  /-- The field `repeat`. -/
  interval : K
  deriving DecidableEq

/-- `ev_timer_init` with the given repeat value. -/
def Timer.init (interval : K) : Timer K := ⟨false, interval⟩

/-- `ev_timer_stop`. -/
def Timer.stop (t : Timer K) : Timer K := { t with active := false }

/-- `ev_timer_set` with the given repeat value. -/
def Timer.set (t : Timer K) (interval : K) : Timer K := { t with interval := interval }

/-- `ev_timer_again`: start or restart a repeating timer, stop any other. -/
def Timer.again (t : Timer K) : Timer K := { t with active := 0 < t.interval }

/-- What the event loop does with an expired timer before its callback. -/
def Timer.expire (t : Timer K) : Timer K := { t with active := t.active ∧ 0 < t.interval }

/-- The settings of the idle poll with their defaults. -/
structure IdleSettings (K : Type*) [Field K] where
  minIdleTimeout : K := 5
  maxIdleTimeout : K := 64
  maxScheduledPerIdle : Int := 64

/-- The fields of `Server` that the handlers read and write. -/
structure ServerState (K : Type*) where
  /-- `m_idle_timeout_duration`. -/
  duration : K
  /-- `m_timeout`. -/
  timeout : Timer K
  dispatcher : Dispatcher

/-- What the count query returns. -/
inductive CountReply where
  /-- No iterator. -/
  | failed
  /-- An iterator whose `begin` returns no row. -/
  | empty
  /-- A row whose field `pending` has this value. -/
  | row (pending : Int)
  deriving DecidableEq, Repr

/-- What a running server handles. -/
inductive ServerEvent where
  /-- `on_connect`, with whether `recv` read a datagram. -/
  | connect (received : Bool) (delivery : Delivery)
  /-- `on_timeout`. -/
  | timeout (reply : CountReply) (delivery : Delivery)
  deriving DecidableEq, Repr

section Handlers

variable (cfg : IdleSettings K) (log10 : K → K)

/-- Stop the timer, set it to the current duration and start it again. -/
def ServerState.rearm (s : ServerState K) : ServerState K :=
  { s with timeout := ((s.timeout.stop).set s.duration).again }

/-- `Server::schedule`. -/
def ServerState.schedule (s : ServerState K) (delivery : Delivery) : ServerState K :=
  { s with dispatcher := s.dispatcher.schedule delivery }

/-- Go back to the smallest timeout. -/
def ServerState.resetTimeout (s : ServerState K) : ServerState K :=
  { s with duration := cfg.minIdleTimeout }.rearm

/-- The duration that `increase_timeout` computes below the maximum. -/
def increased (duration : K) : K :=
  let max2 := cfg.maxIdleTimeout * cfg.maxIdleTimeout
  let x2 := duration * duration
  let next := duration + |log10 (max2 - x2)|
  if cfg.maxIdleTimeout < next ∨ cfg.maxIdleTimeout ≤ next + 1 then cfg.maxIdleTimeout else next

/-- `Server::increase_timeout`. -/
def ServerState.increaseTimeout (s : ServerState K) : ServerState K :=
  if s.duration < cfg.maxIdleTimeout then
    { s with duration := increased cfg log10 s.duration }.rearm
  else s

/-- `Server::idle_jobcheck`. It reads `max_scheduled_per_idle` but does not use it. -/
def ServerState.idleJobcheck (s : ServerState K) (reply : CountReply) (delivery : Delivery) :
    ServerState K :=
  match reply with
  | .failed => s.increaseTimeout cfg log10
  | .empty => s
  | .row pending =>
    if 0 < pending then (s.schedule delivery).resetTimeout cfg
    else s.increaseTimeout cfg log10

/-- `Server::on_connect`. -/
def ServerState.onConnect (s : ServerState K) (received : Bool) (delivery : Delivery) :
    ServerState K :=
  if received then (s.resetTimeout cfg).schedule delivery else s.resetTimeout cfg

/-- One event of the event loop. -/
def ServerState.handle (s : ServerState K) : ServerEvent → ServerState K
  | .connect received delivery => s.onConnect cfg received delivery
  | .timeout reply delivery =>
    { s with timeout := s.timeout.expire }.idleJobcheck cfg log10 reply delivery

/-- The server when `run` enters the event loop. -/
def ServerState.running (d : Dispatcher) : ServerState K :=
  ⟨cfg.minIdleTimeout, (Timer.init cfg.minIdleTimeout).again, d⟩

end Handlers

section Armed

variable {cfg : IdleSettings K} {log10 : K → K} {s : ServerState K}

/-- The idle timer is running with the server's duration, which is within its bounds. -/
structure Armed (cfg : IdleSettings K) (s : ServerState K) : Prop where
  active : s.timeout.active = true
  interval : s.timeout.interval = s.duration
  lower : cfg.minIdleTimeout ≤ s.duration
  upper : s.duration ≤ max cfg.minIdleTimeout cfg.maxIdleTimeout

/-- Rearming with a duration within the bounds arms the timer. -/
theorem Armed.rearm (hmin : 0 < cfg.minIdleTimeout) {s : ServerState K}
    (hlower : cfg.minIdleTimeout ≤ s.duration)
    (hupper : s.duration ≤ max cfg.minIdleTimeout cfg.maxIdleTimeout) :
    Armed cfg s.rearm where
  active := decide_eq_true (hmin.trans_le hlower)
  interval := rfl
  lower := hlower
  upper := hupper

theorem armed_running (hmin : 0 < cfg.minIdleTimeout) (d : Dispatcher) :
    Armed cfg (ServerState.running cfg d) where
  active := decide_eq_true hmin
  interval := rfl
  lower := le_rfl
  upper := le_max_left _ _

theorem Armed.resetTimeout (hmin : 0 < cfg.minIdleTimeout) (s : ServerState K) :
    Armed cfg (s.resetTimeout cfg) :=
  Armed.rearm hmin le_rfl (le_max_left _ _)

theorem Armed.schedule (h : Armed cfg s) (delivery : Delivery) :
    Armed cfg (s.schedule delivery) :=
  ⟨h.active, h.interval, h.lower, h.upper⟩

/-- A repeating timer survives its expiry. -/
theorem Armed.expire (hmin : 0 < cfg.minIdleTimeout) (h : Armed cfg s) :
    Armed cfg { s with timeout := s.timeout.expire } where
  active := by
    have hpos : 0 < s.timeout.interval := by
      rw [h.interval]
      exact hmin.trans_le h.lower
    exact decide_eq_true ⟨h.active, hpos⟩
  interval := h.interval
  lower := h.lower
  upper := h.upper

/-- Below the maximum the clamp fires, or the result is still more than one below it. -/
theorem increased_cases (cfg : IdleSettings K) (log10 : K → K) (d : K) :
    increased cfg log10 d = cfg.maxIdleTimeout ∨
      (increased cfg log10 d =
          d + |log10 (cfg.maxIdleTimeout * cfg.maxIdleTimeout - d * d)| ∧
        increased cfg log10 d + 1 < cfg.maxIdleTimeout) := by
  unfold increased
  dsimp only
  split
  · exact Or.inl rfl
  · rename_i hclamp
    rw [not_or, not_lt, not_le] at hclamp
    exact Or.inr ⟨rfl, hclamp.2⟩

variable [IsStrictOrderedRing K]

/-- The increase goes up and stays below the maximum. -/
theorem increased_bounds (log10 : K → K) {duration : K} (h : duration < cfg.maxIdleTimeout) :
    duration ≤ increased cfg log10 duration ∧
      increased cfg log10 duration ≤ cfg.maxIdleTimeout := by
  rcases increased_cases cfg log10 duration with hclamp | ⟨hnext, hbelow⟩
  · rw [hclamp]
    exact ⟨h.le, le_rfl⟩
  · refine ⟨?_, ((lt_add_one _).trans hbelow).le⟩
    rw [hnext]
    exact le_add_of_nonneg_right (abs_nonneg _)

theorem Armed.increaseTimeout (hmin : 0 < cfg.minIdleTimeout) (h : Armed cfg s) :
    Armed cfg (s.increaseTimeout cfg log10) := by
  unfold ServerState.increaseTimeout
  split
  · rename_i hlt
    obtain ⟨hlower, hupper⟩ := increased_bounds log10 hlt
    exact Armed.rearm hmin (h.lower.trans hlower) (hupper.trans (le_max_right _ _))
  · exact h

theorem Armed.idleJobcheck (hmin : 0 < cfg.minIdleTimeout) (h : Armed cfg s)
    (reply : CountReply) (delivery : Delivery) :
    Armed cfg (s.idleJobcheck cfg log10 reply delivery) := by
  cases reply with
  | failed => exact h.increaseTimeout hmin
  | empty => exact h
  | row pending =>
    simp only [ServerState.idleJobcheck]
    split
    · exact Armed.resetTimeout hmin _
    · exact h.increaseTimeout hmin

/-- No event disarms the timer. -/
theorem Armed.handle (hmin : 0 < cfg.minIdleTimeout) (h : Armed cfg s) (e : ServerEvent) :
    Armed cfg (s.handle cfg log10 e) := by
  cases e with
  | connect received delivery =>
    simp only [ServerState.handle, ServerState.onConnect]
    split
    · exact (Armed.resetTimeout hmin s).schedule delivery
    · exact Armed.resetTimeout hmin s
  | timeout reply delivery => exact (h.expire hmin).idleJobcheck hmin reply delivery

/-- The idle poll is armed after every sequence of events: the timer is active, its
interval is the server's duration, and the duration is within the configured bounds. -/
theorem idle_poll_armed (cfg : IdleSettings K) (log10 : K → K) (hmin : 0 < cfg.minIdleTimeout)
    (d : Dispatcher) (events : List ServerEvent) :
    let s := events.foldl (ServerState.handle cfg log10) (ServerState.running cfg d)
    s.timeout.active = true ∧ s.timeout.interval = s.duration ∧
      cfg.minIdleTimeout ≤ s.duration ∧
      s.duration ≤ max cfg.minIdleTimeout cfg.maxIdleTimeout := by
  have harmed : Armed cfg
      (events.foldl (ServerState.handle cfg log10) (ServerState.running cfg d)) := by
    generalize hs : ServerState.running cfg d = s
    have h : Armed cfg s := hs ▸ armed_running hmin d
    clear hs
    induction events generalizing s with
    | nil => exact h
    | cons e events ih => exact ih (s.handle cfg log10 e) (h.handle hmin e)
  exact ⟨harmed.active, harmed.interval, harmed.lower, harmed.upper⟩

/-- The decimal logarithm of a power of ten. -/
def powerLog (y : ℚ) : ℚ := ((Nat.toDigits 10 y.floor.toNat).length - 1 : Nat)

/-- One worker, and no message sent yet. -/
def Dispatcher.single : Dispatcher := ⟨1, 0, by decide, []⟩

/-- From 24 s towards 26 s: `26 * 26 - 24 * 24 = 100`, so one poll that finds nothing waits
for the maximum, and a datagram brings the minimum back. -/
theorem idle_poll_armed_between_24_and_26 :
    (24 : ℚ) ≤ ([.timeout (.row 0) .sent].foldl
        (ServerState.handle ⟨24, 26, 64⟩ powerLog) (.running ⟨24, 26, 64⟩ .single)).duration ∧
      ([.timeout (.row 0) .sent].foldl (ServerState.handle ⟨24, 26, 64⟩ powerLog)
        (.running ⟨24, 26, 64⟩ .single)).duration = 26 ∧
      ([.timeout (.row 0) .sent, .connect true .sent].foldl
        (ServerState.handle ⟨24, 26, 64⟩ powerLog)
        (.running ⟨24, 26, 64⟩ .single)).timeout.active = true :=
  ⟨(idle_poll_armed ⟨24, 26, 64⟩ powerLog (by decide +kernel) .single _).2.2.1,
    by decide +kernel, (idle_poll_armed ⟨24, 26, 64⟩ powerLog (by decide +kernel) .single _).1⟩

end Armed

section Backlog

/-- The number of wake-ups that a poll of `p` pending jobs calls for under the limit `m`. -/
def quota (m : Int) (p : Nat) : Int := if m = -1 then p else min p m

/-- The polls that find jobs, one for each. -/
def woken (p : Nat) : Int := if 0 < p then 1 else 0

/-- Idle checks whose counts are the given ones, every message sent. -/
def idleChecks (ps : List Nat) : List ServerEvent :=
  ps.map fun p => .timeout (.row p) .sent

theorem sum_woken (ps : List Nat) :
    (ps.map woken).sum = (ps.countP fun p => 0 < p : Nat) := by
  induction ps with
  | nil => rfl
  | cons p ps ih =>
    rw [List.map_cons, List.sum_cons, ih, List.countP_cons, woken]
    by_cases hp : 0 < p
    · rw [if_pos hp, if_pos (decide_eq_true hp)]
      omega
    · rw [if_neg hp, if_neg (by simpa using hp)]
      omega

/-- Two sums with ordered terms are equal only term by term. -/
theorem sum_map_eq_iff {f g : Nat → Int} {l : List Nat} (hle : ∀ p, f p ≤ g p) :
    (l.map f).sum = (l.map g).sum ↔ ∀ p ∈ l, f p = g p := by
  induction l with
  | nil => simp
  | cons p l ih =>
    have hp := hle p
    have hsum : (l.map f).sum ≤ (l.map g).sum := List.sum_le_sum fun x _ => hle x
    rw [List.map_cons, List.map_cons, List.sum_cons, List.sum_cons, List.forall_mem_cons, ← ih]
    omega

/-- The polls that find jobs are as many as the limit asks for exactly if no poll finds
more than one job, or the limit is one. -/
theorem sum_woken_eq_iff (m : Int) (ps : List Nat) :
    (ps.map woken).sum = (ps.map (quota m)).sum ↔ ∀ p ∈ ps,
      (p = 0 ∧ -1 ≤ m) ∨ (0 < p ∧ m = 1) ∨ (p = 1 ∧ (m = -1 ∨ 1 ≤ m)) := by
  have hterm : ∀ p : Nat, woken p = quota m p ↔
      (p = 0 ∧ -1 ≤ m) ∨ (0 < p ∧ m = 1) ∨ (p = 1 ∧ (m = -1 ∨ 1 ≤ m)) := by
    intro p
    unfold woken quota
    split <;> split <;> omega
  simp only [← hterm]
  by_cases hm : m = -1 ∨ 1 ≤ m
  · refine sum_map_eq_iff ?_
    intro p
    unfold woken quota
    split <;> split <;> omega
  · -- a limit that lets nothing through asks for less than every poll does
    rw [eq_comm, sum_map_eq_iff]
    · simp only [eq_comm]
    · intro p
      unfold woken quota
      split <;> split <;> omega

variable {cfg : IdleSettings K} {log10 : K → K}

/-- A poll sends one message if it finds jobs, however many, and none otherwise. -/
theorem handle_row_dispatcher (s : ServerState K) (p : Nat) (delivery : Delivery) :
    (s.handle cfg log10 (.timeout (.row p) delivery)).dispatcher =
      if 0 < p then s.dispatcher.schedule delivery else s.dispatcher := by
  simp only [ServerState.handle, ServerState.idleJobcheck, Int.natCast_pos]
  split
  · rfl
  · unfold ServerState.increaseTimeout
    split <;> rfl

/-- The messages that idle checks send, in turn. -/
theorem idleChecks_sent (cfg : IdleSettings K) (log10 : K → K) {d : Dispatcher} {k : Nat}
    (ps : List Nat) {s : ServerState K} (h : d.Sent k s.dispatcher) :
    d.Sent (k + ps.countP fun p => 0 < p)
      ((idleChecks ps).foldl (ServerState.handle cfg log10) s).dispatcher := by
  induction ps generalizing s k with
  | nil => exact h
  | cons p ps ih =>
    have hstep : d.Sent (k + if 0 < p then 1 else 0)
        (s.handle cfg log10 (.timeout (.row p) .sent)).dispatcher := by
      rw [handle_row_dispatcher]
      split
      · exact h.schedule
      · exact h
    have hrest := ih hstep
    rw [List.countP_cons, Nat.add_comm (List.countP _ ps), ← Nat.add_assoc]
    simp only [decide_eq_true_eq]
    exact hrest

/-- Idle checks that find `ps` jobs send the messages that the limit allows, in turn,
exactly if every check finds none, or one, or the limit is one; with the limit zero none
may be found. -/
theorem idle_poll_schedules_iff (cfg : IdleSettings K) (log10 : K → K) (s : ServerState K)
    (ps : List Nat) :
    (∃ k : Nat, (k : Int) = (ps.map (quota cfg.maxScheduledPerIdle)).sum ∧
        ((idleChecks ps).foldl (ServerState.handle cfg log10) s).dispatcher.wakeups =
          s.dispatcher.wakeups ++ roundRobin s.dispatcher.numPids s.dispatcher.lastWorker k) ↔
      ∀ p ∈ ps, (p = 0 ∧ -1 ≤ cfg.maxScheduledPerIdle) ∨ (0 < p ∧ cfg.maxScheduledPerIdle = 1) ∨
        (p = 1 ∧ (cfg.maxScheduledPerIdle = -1 ∨ 1 ≤ cfg.maxScheduledPerIdle)) := by
  have hsent := idleChecks_sent cfg log10 ps (Dispatcher.Sent.refl s.dispatcher)
  rw [Nat.zero_add] at hsent
  rw [hsent.wakeups, ← sum_woken_eq_iff, sum_woken]
  constructor
  · rintro ⟨k, hk, hlist⟩
    have hlen := congrArg List.length (List.append_cancel_left hlist)
    rw [length_roundRobin, length_roundRobin] at hlen
    rw [hlen, hk]
  · intro h
    exact ⟨_, h, rfl⟩

/-- With the default limit a backlog of three jobs is answered with one message. -/
theorem idle_poll_sends_one_of_three :
    ((idleChecks [3]).foldl (ServerState.handle {} powerLog)
        (ServerState.running {} .single)).dispatcher.wakeups = [0] ∧
      ¬ ∃ k : Nat, (k : Int) = ([3].map (quota 64)).sum ∧
        ((idleChecks [3]).foldl (ServerState.handle {} powerLog)
          (ServerState.running {} .single)).dispatcher.wakeups = roundRobin 1 0 k := by
  refine ⟨by decide +kernel, ?_⟩
  rintro ⟨k, hk, hlist⟩
  have hlen := congrArg List.length hlist
  rw [length_roundRobin] at hlen
  have hthree : ([3].map (quota 64)).sum = 3 := by decide
  have hone : ((idleChecks [3]).foldl (ServerState.handle {} powerLog)
    (ServerState.running {} .single)).dispatcher.wakeups.length = 1 := by decide +kernel
  omega

end Backlog

section Poll

/-- The server's idle poll and the workers' claim agree on what is pending: on every table
whose locks are empty, NULL or issued by real processes, both conditions select the same
rows, the poll counts exactly the claimable ones, and an idle check that gets this count
sends a message exactly if some row can be claimed. -/
theorem idle_poll_agrees_with_claim (cfg : IdleSettings K) (log10 : K → K) (s : ServerState K)
    {T : JobsTable} (delivery : Delivery)
    (hlocks : ∀ id r, T.get? id = some r → r.lockedQueueId = none ∨ r.lockedQueueId = some [] ∨
      ∃ stamp : Stamp, 1 ≤ stamp.pidId ∧ r.lockedQueueId = some (lockid stamp)) :
    T.select pollable none = T.select claimable none ∧
      countSelect T = (T.keysOf claimable none).length ∧
      ((∃ id r, T.get? id = some r ∧ claimable id r = true) →
        (s.handle cfg log10 (.timeout (.row (countSelect T)) delivery)).dispatcher =
          s.dispatcher.schedule delivery) ∧
      ((∀ id r, T.get? id = some r → claimable id r = false) →
        (s.handle cfg log10 (.timeout (.row (countSelect T)) delivery)).dispatcher =
          s.dispatcher) := by
  have hselect : T.select pollable none = T.select claimable none := by
    refine List.filter_congr ?_
    intro r hr
    exact pollable_eq_claimable (hlocks r.1 r.2 (Table.get?_eq_some.mpr hr))
  have hcount : countSelect T = (T.keysOf claimable none).length := by
    rw [countSelect, hselect, Table.keysOf, List.length_map]
  refine ⟨hselect, hcount, ?_, ?_⟩
  · rintro ⟨id, r, hr, hclaim⟩
    have hpos : 0 < countSelect T := by
      rw [hcount]
      exact List.length_pos_of_mem (Table.mem_keysOf_none.mpr ⟨r, hr, hclaim⟩)
    rw [handle_row_dispatcher, if_pos hpos]
  · intro hnone
    have hzero : ¬ 0 < countSelect T := by
      rw [hcount, List.length_pos_iff_exists_mem]
      rintro ⟨id, hid⟩
      obtain ⟨r, hr, hclaim⟩ := Table.mem_keysOf_none.mp hid
      rw [hnone id r hr] at hclaim
      contradiction
    rw [handle_row_dispatcher, if_neg hzero]

/-- A row to be claimed, one that a process has claimed, and one with a NULL lock. -/
def threeRows : JobsTable where
  rows := [(1, newRow "run".toList none),
    (2, ⟨"run".toList, none, .loading, some (lockid ⟨10, -1, 1300000000, 5⟩)⟩),
    (3, ⟨"run".toList, none, .pending, none⟩)]
  sorted := by decide

/-- Of these rows poll and claim both see the first only. -/
theorem idle_poll_agrees_on_three_rows :
    threeRows.select pollable none = threeRows.select claimable none ∧
      countSelect threeRows = 1 := by
  have hlocks : ∀ id r, threeRows.get? id = some r → r.lockedQueueId = none ∨
      r.lockedQueueId = some [] ∨
        ∃ stamp : Stamp, 1 ≤ stamp.pidId ∧ r.lockedQueueId = some (lockid stamp) := by
    intro id r hr
    have hmem := Table.get?_eq_some.mp hr
    simp only [threeRows, List.mem_cons, List.not_mem_nil, or_false, Prod.mk.injEq] at hmem
    rcases hmem with ⟨_, rfl⟩ | ⟨_, rfl⟩ | ⟨_, rfl⟩
    · exact Or.inr (Or.inl rfl)
    · exact Or.inr (Or.inr ⟨_, by decide, rfl⟩)
    · exact Or.inl rfl
  obtain ⟨hselect, hcount, _⟩ := idle_poll_agrees_with_claim {} powerLog
    (.running {} .single) .sent hlocks
  exact ⟨hselect, hcount.trans (by decide)⟩

end Poll

end Workq.Server
