import Mathlib.Data.Int.CardIntervalMod
import Mathlib.Data.List.Range

/-!
# Round robin over the workers

`Server::schedule` sends one message to the worker that `m_last_worker` names and moves on
to the next one, whatever became of the message. The index is kept within the started
workers by the wrap after each increment.
-/

namespace Workq.Server

/-- What becomes of the message of one `schedule` call. -/
inductive Delivery where
  /-- The `write` to the worker's channel succeeded. -/
  | sent
  /-- The `write` returned -1. -/
  | failed
  /-- There is no channel for the worker. -/
  | noChannel
  deriving DecidableEq, Repr

/-- `m_num_pids` and `m_last_worker`, with the calls made so far, oldest first. -/
structure Dispatcher where
  numPids : Nat
  lastWorker : Nat
  /-- The index into `m_pids` and `m_worker_channels` is in range. -/
  inRange : lastWorker < numPids
  calls : List (Nat × Delivery)

/-- `Server::schedule`. -/
def Dispatcher.schedule (d : Dispatcher) (delivery : Delivery) : Dispatcher where
  numPids := d.numPids
  lastWorker := if d.numPids ≤ d.lastWorker + 1 then 0 else d.lastWorker + 1
  inRange := by
    have := d.inRange
    split <;> omega
  calls := d.calls ++ [(d.lastWorker, delivery)]

/-- The workers that a message was sent to, in order. -/
def Dispatcher.wakeups (d : Dispatcher) : List Nat :=
  (d.calls.filter fun c => c.2 = .sent).map Prod.fst

/-- The next indices in turn, from a given one on. -/
def roundRobin (n start k : Nat) : List Nat := (List.range k).map fun j => (start + j) % n

@[simp] theorem length_roundRobin (n start k : Nat) : (roundRobin n start k).length = k := by
  rw [roundRobin, List.length_map, List.length_range]

/-- The wrap is the remainder. -/
theorem Dispatcher.schedule_lastWorker (d : Dispatcher) (delivery : Delivery) :
    (d.schedule delivery).lastWorker = (d.lastWorker + 1) % d.numPids := by
  have hrange := d.inRange
  simp only [Dispatcher.schedule]
  split
  · rw [show d.lastWorker + 1 = d.numPids by omega, Nat.mod_self]
  · rw [Nat.mod_eq_of_lt (by omega)]

theorem Dispatcher.schedule_wakeups (d : Dispatcher) :
    (d.schedule .sent).wakeups = d.wakeups ++ [d.lastWorker] := by
  simp only [Dispatcher.wakeups, Dispatcher.schedule, List.filter_append, List.map_append]
  rfl

/-- A dispatcher that has gone on to send some messages in turn. -/
structure Dispatcher.Sent (d : Dispatcher) (k : Nat) (e : Dispatcher) : Prop where
  numPids : e.numPids = d.numPids
  lastWorker : e.lastWorker = (d.lastWorker + k) % d.numPids
  wakeups : e.wakeups = d.wakeups ++ roundRobin d.numPids d.lastWorker k

theorem Dispatcher.Sent.refl (d : Dispatcher) : d.Sent 0 d where
  numPids := rfl
  lastWorker := (Nat.mod_eq_of_lt d.inRange).symm
  wakeups := (List.append_nil d.wakeups).symm

/-- One more message goes to the next worker in turn. -/
theorem Dispatcher.Sent.schedule {d e : Dispatcher} {k : Nat} (h : d.Sent k e) :
    d.Sent (k + 1) (e.schedule .sent) where
  numPids := h.numPids
  lastWorker := by
    rw [e.schedule_lastWorker, h.numPids, h.lastWorker, Nat.mod_add_mod, Nat.add_assoc]
  wakeups := by
    rw [e.schedule_wakeups, h.wakeups, h.lastWorker, List.append_assoc]
    rw [roundRobin, roundRobin, List.range_succ, List.map_append]
    rfl

/-- The server's dispatcher when its workers have been started. -/
def Dispatcher.started (n : Nat) (hn : 0 < n) : Dispatcher := ⟨n, 0, hn, []⟩

theorem roundRobin_succ (n start k : Nat) :
    roundRobin n start (k + 1) = start % n :: roundRobin n ((start + 1) % n) k := by
  rw [roundRobin, List.range_succ_eq_map, List.map_cons, List.map_map, Nat.add_zero, roundRobin]
  congr 1
  refine List.map_congr_left ?_
  intro j _
  rw [Nat.mod_add_mod, Function.comp_apply, Nat.succ_eq_add_one]
  congr 1
  omega

/-- Any sequence of calls addresses the workers in turn, whatever becomes of the messages. -/
theorem Dispatcher.calls_schedules (deliveries : List Delivery) (d : Dispatcher) :
    (deliveries.foldl Dispatcher.schedule d).numPids = d.numPids ∧
      (deliveries.foldl Dispatcher.schedule d).calls =
        d.calls ++ (roundRobin d.numPids d.lastWorker deliveries.length).zip deliveries := by
  induction deliveries generalizing d with
  | nil => exact ⟨rfl, by simp⟩
  | cons delivery deliveries ih =>
    obtain ⟨hnum, hcalls⟩ := ih (d.schedule delivery)
    rw [d.schedule_lastWorker] at hcalls
    refine ⟨hnum, hcalls.trans ?_⟩
    rw [List.length_cons, roundRobin_succ, Nat.mod_eq_of_lt d.inRange, List.zip_cons_cons]
    simp only [Dispatcher.schedule, List.append_assoc, List.cons_append, List.nil_append]

/-- How often a round from worker 0 addresses one worker. -/
theorem count_roundRobin {n : Nat} (hn : 0 < n) (k : Nat) {v : Nat} (hv : v < n) :
    (roundRobin n 0 k).count v = k / n + if v < k % n then 1 else 0 := by
  have hcount := Nat.count_modEq_card k hn v
  rw [Nat.mod_eq_of_lt hv] at hcount
  rw [← hcount, Nat.count, roundRobin, List.count, List.countP_map]
  refine List.countP_congr ?_
  intro j _
  simp [Nat.ModEq, Nat.mod_eq_of_lt hv]

/-- Round robin is in range and fair: after any sequence of calls the next worker's index is
in range, every call so far had its index in range, call number `j` went to worker `j % n`,
and two workers differ by at most one in the calls they got. -/
theorem schedule_round_robin {n : Nat} (hn : 0 < n) (deliveries : List Delivery) :
    let d := deliveries.foldl Dispatcher.schedule (.started n hn)
    d.lastWorker < n ∧ (∀ call ∈ d.calls, call.1 < n) ∧
      d.calls.map Prod.snd = deliveries ∧
      d.calls.map Prod.fst = (List.range deliveries.length).map (· % n) ∧
      ∀ v w, v < n → w < n →
        (d.calls.map Prod.fst).count v ≤ (d.calls.map Prod.fst).count w + 1 := by
  intro d
  obtain ⟨hnum, hcalls⟩ := Dispatcher.calls_schedules deliveries (.started n hn)
  have hlen : (roundRobin n 0 deliveries.length).length = deliveries.length :=
    length_roundRobin n 0 deliveries.length
  have hsnd : d.calls.map Prod.snd = deliveries :=
    (congrArg (List.map Prod.snd) hcalls).trans (List.map_snd_zip hlen.ge)
  have hfst : d.calls.map Prod.fst = roundRobin n 0 deliveries.length :=
    (congrArg (List.map Prod.fst) hcalls).trans (List.map_fst_zip hlen.le)
  have hturn : d.calls.map Prod.fst = (List.range deliveries.length).map (· % n) := by
    rw [hfst, roundRobin]
    simp only [Nat.zero_add]
  refine ⟨d.inRange.trans_eq hnum, ?_, hsnd, hturn, ?_⟩
  · intro call hcall
    have hmem := List.mem_map_of_mem (f := Prod.fst) hcall
    rw [hturn, List.mem_map] at hmem
    obtain ⟨j, _, hj⟩ := hmem
    exact hj ▸ Nat.mod_lt j hn
  · intro v w hv hw
    rw [hfst, count_roundRobin hn _ hv, count_roundRobin hn _ hw]
    split <;> omega

/-- Three workers and five calls, of which one write fails and one finds no channel. -/
theorem schedule_round_robin_three_workers :
    ([Delivery.sent, .failed, .noChannel, .sent, .sent].foldl Dispatcher.schedule
        (.started 3 (by decide))).calls.map Prod.fst = [0, 1, 2, 0, 1] :=
  (schedule_round_robin (n := 3) (by decide) _).2.2.2.1

end Workq.Server
