import Mathlib.Data.Finset.Basic
import Mathlib.Data.List.GetD

/-!
# Worker channels and the processes that hold their ends

Each process is the set of pipe ends it has open; a fork copies that set. A worker knows
that its server is gone when nobody holds the write end of its `server_send_pipe`. The
server keeps the write ends of all earlier channels while it forks, and `child_init` only
closes ends of the child's own channel, so each worker also holds the write ends of the
workers started before it.
-/

namespace Workq.Server

/-- The two pipes of a `WorkerChannel`. -/
inductive Pipe where
  /-- `server_send_pipe`: server to worker. -/
  | serverSend
  /-- `worker_send_pipe`: worker to server. -/
  | workerSend
  deriving DecidableEq, Repr

/-- Element 0 or 1 of the array that `pipe` fills. -/
inductive Side where
  | read
  | write
  deriving DecidableEq, Repr

/-- One end of one pipe of the channel with the given index. -/
structure PipeEnd where
  channel : Nat
  pipe : Pipe
  side : Side
  deriving DecidableEq, Repr

/-- The server and its workers. -/
inductive Process where
  | server
  | worker (i : Nat)
  deriving DecidableEq, Repr

/-- The ends that each process holds; worker `i` is entry `i`. -/
structure Descriptors where
  server : Finset PipeEnd
  workers : List (Finset PipeEnd)
  deriving DecidableEq

/-- The ends of one process, none for a process that does not exist. -/
def Descriptors.held (d : Descriptors) : Process → Finset PipeEnd
  | .server => d.server
  | .worker i => d.workers.getD i ∅

/-- Nobody holds the write end, so that a read of the drained pipe returns zero. -/
def Descriptors.Eof (d : Descriptors) (i : Nat) (p : Pipe) : Prop :=
  ⟨i, p, .write⟩ ∉ d.server ∧ ∀ W ∈ d.workers, ⟨i, p, .write⟩ ∉ W

instance (d : Descriptors) (i : Nat) (p : Pipe) : Decidable (d.Eof i p) :=
  inferInstanceAs (Decidable (_ ∧ _))

/-- `WorkerChannel::open`. -/
def openChannel (i : Nat) (ends : Finset PipeEnd) : Finset PipeEnd :=
  ends ∪ {⟨i, .serverSend, .read⟩, ⟨i, .serverSend, .write⟩, ⟨i, .workerSend, .read⟩,
    ⟨i, .workerSend, .write⟩}

/-- `WorkerChannel::child_init`. -/
def childInit (i : Nat) (ends : Finset PipeEnd) : Finset PipeEnd :=
  (ends.erase ⟨i, .serverSend, .write⟩).erase ⟨i, .workerSend, .read⟩

/-- The end that `Worker::execute` closes to tell the server that it is up. -/
def signalReady (i : Nat) (ends : Finset PipeEnd) : Finset PipeEnd :=
  ends.erase ⟨i, .workerSend, .write⟩

/-- `WorkerChannel::parent_init`. -/
def parentInit (i : Nat) (ends : Finset PipeEnd) : Finset PipeEnd :=
  (ends.erase ⟨i, .serverSend, .read⟩).erase ⟨i, .workerSend, .write⟩

/-- `WorkerChannel::waitForChildInit`: the read returns at the end of the pipe, which
nobody writes to, and the read end is closed. -/
def waitForChildInit (i : Nat) (d : Descriptors) : Option Descriptors :=
  if d.Eof i .workerSend then
    some { d with server := d.server.erase ⟨i, .workerSend, .read⟩ }
  else none

/-- `start_worker` for the next worker, with `open` and `fork` succeeding. -/
def startWorker (d : Descriptors) : Option Descriptors :=
  let i := d.workers.length
  let opened := openChannel i d.server
  -- the child starts with a copy of everything the server has open
  let child := signalReady i (childInit i opened)
  waitForChildInit i ⟨parentInit i opened, d.workers ++ [child]⟩

/-- `start_workers` up to the given number of workers. -/
def startWorkers : Nat → Option Descriptors
  | 0 => some ⟨∅, []⟩
  | n + 1 => (startWorkers n).bind startWorker

/-- The ends held after a number of workers have started. -/
structure Started (n : Nat) (d : Descriptors) : Prop where
  length : d.workers.length = n
  server : ∀ e, e ∈ d.server ↔ e.pipe = .serverSend ∧ e.side = .write ∧ e.channel < n
  worker : ∀ (j : Nat) (hj : j < d.workers.length) (e : PipeEnd), e ∈ d.workers[j] ↔
    e.pipe = .serverSend ∧
      ((e.side = .write ∧ e.channel < j) ∨ (e.side = .read ∧ e.channel = j))

section Start

variable {n : Nat} {d : Descriptors}

/-- What the child keeps: its own read end and the write ends of earlier channels. -/
theorem Started.mem_child (h : Started n d) (e : PipeEnd) :
    e ∈ signalReady n (childInit n (openChannel n d.server)) ↔ e.pipe = .serverSend ∧
      ((e.side = .write ∧ e.channel < n) ∨ (e.side = .read ∧ e.channel = n)) := by
  obtain ⟨c, p, s⟩ := e
  cases p <;> cases s <;>
    simp [signalReady, childInit, openChannel, h.server]
  omega

/-- What the server keeps before the handshake. -/
theorem Started.mem_server (h : Started n d) (e : PipeEnd) :
    e ∈ parentInit n (openChannel n d.server) ↔
      (e.pipe = .serverSend ∧ e.side = .write ∧ e.channel < n + 1) ∨
        e = ⟨n, .workerSend, .read⟩ := by
  obtain ⟨c, p, s⟩ := e
  cases p <;> cases s <;>
    simp [parentInit, openChannel, h.server]
  omega

/-- Starting a worker never blocks in the handshake and adds its ends. -/
theorem Started.startWorker (h : Started n d) :
    ∃ d', startWorker d = some d' ∧ Started (n + 1) d' := by
  have heof : (Descriptors.mk (parentInit n (openChannel n d.server))
      (d.workers ++ [signalReady n (childInit n (openChannel n d.server))])).Eof n
        .workerSend := by
    constructor
    · rw [h.mem_server]
      simp
    · intro W hW
      rcases List.mem_append.mp hW with hW | hW
      · obtain ⟨j, hj, rfl⟩ := List.mem_iff_getElem.mp hW
        rw [h.worker]
        simp
      · rw [List.mem_singleton.mp hW, h.mem_child]
        simp
  refine ⟨⟨(parentInit n (openChannel n d.server)).erase ⟨n, .workerSend, .read⟩,
    d.workers ++ [signalReady n (childInit n (openChannel n d.server))]⟩, ?_, ?_, ?_, ?_⟩
  · simp only [Server.startWorker, h.length, waitForChildInit]
    exact if_pos heof
  · rw [List.length_append, h.length, List.length_singleton]
  · intro e
    rw [Finset.mem_erase, h.mem_server]
    constructor
    · rintro ⟨hne, he | he⟩
      · exact he
      · exact absurd he hne
    · intro he
      refine ⟨?_, Or.inl he⟩
      rintro rfl
      exact Pipe.noConfusion he.1
  · intro j hj e
    rw [List.length_append, h.length, List.length_singleton] at hj
    rcases Nat.lt_or_ge j n with hlt | hge
    · simp only [List.getElem_append_left (h.length ▸ hlt)]
      exact h.worker j (h.length ▸ hlt) e
    · obtain rfl : j = n := by omega
      simp only [List.getElem_append_right (Nat.le_of_eq h.length), List.getElem_singleton]
      exact h.mem_child e

/-- Every number of workers starts. -/
theorem exists_started (n : Nat) : ∃ d, startWorkers n = some d ∧ Started n d := by
  induction n with
  | zero =>
    refine ⟨_, rfl, rfl, ?_, ?_⟩
    · intro e
      simp
    · intro j hj
      exact absurd hj (Nat.not_lt_zero j)
  | succ n ih =>
    obtain ⟨d, hd, h⟩ := ih
    obtain ⟨d', hd', h'⟩ := h.startWorker
    exact ⟨d', by rw [startWorkers, hd, Option.bind_some, hd'], h'⟩

/-- The write end of a channel is held by the server and by every worker started later. -/
theorem Started.holds_write_iff (h : Started n d) (i : Nat) (p : Process) :
    ⟨i, .serverSend, .write⟩ ∈ d.held p ↔
      (p = .server ∧ i < n) ∨ ∃ j, p = .worker j ∧ i < j ∧ j < n := by
  cases p with
  | server =>
    rw [Descriptors.held, h.server]
    simp
  | worker j =>
    simp only [Descriptors.held, reduceCtorEq, false_and, false_or, Process.worker.injEq,
      exists_eq_left']
    by_cases hj : j < d.workers.length
    · rw [List.getD_eq_getElem _ _ hj, h.worker]
      simp only [true_and, reduceCtorEq, false_and, or_false]
      have := h.length
      omega
    · rw [List.getD_eq_default _ _ (Nat.not_lt.mp hj)]
      have := h.length
      simp only [Finset.notMem_empty, false_iff]
      omega

end Start

/-- What happens to open ends later: the server closes one, or a process exits. -/
inductive Closing where
  | serverClose (e : PipeEnd)
  | exit (p : Process)
  deriving DecidableEq, Repr

/-- The ends left after one such event. -/
def Descriptors.close (d : Descriptors) : Closing → Descriptors
  | .serverClose e => { d with server := d.server.erase e }
  | .exit .server => { d with server := ∅ }
  | .exit (.worker i) => { d with workers := d.workers.set i ∅ }

/-- A closing opens nothing. -/
theorem Descriptors.held_close_subset (d : Descriptors) (c : Closing) (p : Process) :
    (d.close c).held p ⊆ d.held p := by
  cases c with
  | serverClose e =>
    cases p with
    | server => exact Finset.erase_subset e d.server
    | worker j => exact Finset.Subset.refl _
  | exit dead =>
    cases dead with
    | server =>
      cases p with
      | server => exact Finset.empty_subset d.server
      | worker j => exact Finset.Subset.refl _
    | worker i =>
      cases p with
      | server => exact Finset.Subset.refl _
      | worker j =>
        simp only [Descriptors.close, Descriptors.held, List.getD_eq_getElem?_getD,
          List.getElem?_set]
        split
        · split <;> exact Finset.empty_subset _
        · exact Finset.Subset.refl _

/-- No sequence of closings opens anything. -/
theorem Descriptors.held_closeAll_subset (d : Descriptors) (cs : List Closing) (p : Process) :
    (cs.foldl Descriptors.close d).held p ⊆ d.held p := by
  induction cs generalizing d with
  | nil => exact Finset.Subset.refl _
  | cons c cs ih => exact (ih (d.close c)).trans (d.held_close_subset c p)

/-- The end of a channel is reached exactly if no process holds its write end. -/
theorem Descriptors.eof_iff (d : Descriptors) (i : Nat) (pipe : Pipe) :
    d.Eof i pipe ↔ ∀ p, ⟨i, pipe, .write⟩ ∉ d.held p := by
  constructor
  · rintro ⟨hserver, hworkers⟩ p
    cases p with
    | server => exact hserver
    | worker j =>
      rw [Descriptors.held]
      by_cases hj : j < d.workers.length
      · rw [List.getD_eq_getElem _ _ hj]
        exact hworkers _ (List.getElem_mem hj)
      · rw [List.getD_eq_default _ _ (Nat.not_lt.mp hj)]
        exact Finset.notMem_empty _
  · intro h
    refine ⟨h .server, ?_⟩
    intro W hW
    obtain ⟨j, hj, rfl⟩ := List.mem_iff_getElem.mp hW
    have hj' := h (.worker j)
    rw [Descriptors.held, List.getD_eq_getElem _ _ hj] at hj'
    exact hj'

/-- After `start_workers` only the server holds the write end of each worker's channel, and
each worker finds the end of its pipe whenever the server has closed its end or died,
exactly if there is at most one worker. -/
theorem parent_death_detected_iff (n : Nat) :
    ∃ d, startWorkers n = some d ∧
      ((∀ i < n, (∀ p, ⟨i, .serverSend, .write⟩ ∈ d.held p ↔ p = .server) ∧
          ∀ cs : List Closing,
            ⟨i, .serverSend, .write⟩ ∉ (cs.foldl Descriptors.close d).server →
              (cs.foldl Descriptors.close d).Eof i .serverSend) ↔
        n ≤ 1) := by
  obtain ⟨d, hd, h⟩ := exists_started n
  refine ⟨d, hd, ?_⟩
  constructor
  · intro hall
    by_contra hn
    -- the second worker inherits the write end of the first worker's channel
    have hheld : ⟨0, .serverSend, .write⟩ ∈ d.held (.worker 1) :=
      (h.holds_write_iff 0 (.worker 1)).mpr (Or.inr ⟨1, rfl, by omega, by omega⟩)
    exact Process.noConfusion (((hall 0 (by omega)).1 (.worker 1)).mp hheld)
  · intro hn i hi
    have honly : ∀ p, ⟨i, .serverSend, .write⟩ ∈ d.held p ↔ p = .server := by
      intro p
      rw [h.holds_write_iff]
      constructor
      · rintro (⟨hp, _⟩ | ⟨j, _, hij, hj⟩)
        · exact hp
        · omega
      · intro hp
        exact Or.inl ⟨hp, hi⟩
    refine ⟨honly, ?_⟩
    intro cs hclosed
    rw [Descriptors.eof_iff]
    intro p hp
    obtain rfl := (honly p).mp (d.held_closeAll_subset cs p hp)
    exact hclosed hp

/-- With two workers the second holds the write end of the first one's channel, and the
first finds no end of its pipe when the server dies. -/
theorem parent_death_missed_by_first_of_two :
    ∃ d, startWorkers 2 = some d ∧ ⟨0, .serverSend, .write⟩ ∈ d.held (.worker 1) ∧
      ¬ (d.close (.exit .server)).Eof 0 .serverSend := by
  refine ⟨_, rfl, ?_, ?_⟩ <;> decide

end Workq.Server
