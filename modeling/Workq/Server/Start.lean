import Mathlib.Data.List.Range
import Mathlib.Logic.Function.Basic

/-!
# Starting the workers

`start_worker` fills a worker's slot in three arrays at different points: the channel is
registered before it is opened, the pid and the child watcher only after the handshake.
`start_workers` ignores its result, and `run`, `schedule` and `shutdown` go through all
slots. So one failed start is enough to leave a slot in use that names no process.
-/

namespace Workq.Server

/-- A process id as `fork` returns it to the parent. -/
abbrev Pid := { pid : Int // 0 < pid }

/-- A registered `WorkerChannel`: which of its pipes were opened and what process was
forked with it. -/
structure WorkerChannel where
  serverSendPipe : Bool
  workerSendPipe : Bool
  peer : Option Pid
  deriving DecidableEq

/-- How a `start_worker` call goes. -/
inductive StartOutcome where
  /-- `open` fails at its first pipe, or at the second. -/
  | openFailed (firstOpened : Bool)
  | forkFailed
  /-- The `read` of `waitForChildInit` returns -1. -/
  | handshakeFailed (pid : Pid)
  | started (pid : Pid)
  deriving DecidableEq

/-- `m_pids`, `m_workers` and `m_worker_channels` by slot, zeroed by `g_malloc0`, and the
process forked for each slot. A child watcher is the pid it was initialised with. -/
structure WorkerTable where
  pids : Nat → Int
  workers : Nat → Option Int
  channels : Nat → Option WorkerChannel
  forked : Nat → Option Pid

/-- The arrays before the first worker starts. -/
def WorkerTable.zeroed : WorkerTable := ⟨fun _ => 0, fun _ => none, fun _ => none, fun _ => none⟩

/-- `Server::start_worker`; a failed `fork` ends the server. -/
def WorkerTable.startWorker (w : WorkerTable) (i : Nat) : StartOutcome → Option WorkerTable
  | .openFailed firstOpened =>
    some { w with channels := Function.update w.channels i (some ⟨firstOpened, false, none⟩) }
  | .forkFailed => none
  | .handshakeFailed pid =>
    some { w with
      channels := Function.update w.channels i (some ⟨true, true, some pid⟩)
      forked := Function.update w.forked i (some pid) }
  | .started pid =>
    some {
      pids := Function.update w.pids i pid
      workers := Function.update w.workers i (some pid)
      channels := Function.update w.channels i (some ⟨true, true, some pid⟩)
      forked := Function.update w.forked i (some pid) }

/-- `Server::start_workers`, which does not look at what `start_worker` returns. -/
def WorkerTable.startWorkers (outcome : Nat → StartOutcome) : Nat → Option WorkerTable
  | 0 => some .zeroed
  | n + 1 => (startWorkers outcome n).bind fun w => w.startWorker n (outcome n)

/-- What `shutdown` does with the process ids. -/
inductive ShutdownCall where
  /-- `kill(pid, SIGUSR2)`. -/
  | kill (pid : Int)
  /-- `waitpid(pid, &status, 0)`. -/
  | waitpid (pid : Int)
  deriving DecidableEq, Repr

/-- `Server::shutdown` of a server with `n` workers. -/
def WorkerTable.shutdown (w : WorkerTable) (n : Nat) : List ShutdownCall :=
  (List.range n).flatMap fun i => [.kill (w.pids i), .waitpid (w.pids i)]

/-- A slot that `run`, `schedule` and `shutdown` can use: its pid, watcher and channel are
those of the process forked for it. -/
structure WorkerTable.Complete (w : WorkerTable) (i : Nat) (pid : Pid) : Prop where
  forked : w.forked i = some pid
  pids : w.pids i = pid
  workers : w.workers i = some (pid : Int)
  channels : w.channels i = some ⟨true, true, some pid⟩

section Slots

variable {outcome : Nat → StartOutcome} {n i : Nat} {w w' : WorkerTable}

/-- Starting a worker leaves the other slots alone. -/
theorem WorkerTable.startWorker_other {o : StartOutcome} {j : Nat} (hj : j ≠ i)
    (h : w.startWorker i o = some w') :
    w'.pids j = w.pids j ∧ w'.workers j = w.workers j ∧ w'.channels j = w.channels j ∧
      w'.forked j = w.forked j := by
  cases o with
  | forkFailed => exact absurd h (by simp [startWorker])
  | openFailed firstOpened | handshakeFailed pid | started pid =>
    obtain rfl := Option.some.inj h
    simp only [Function.update_of_ne hj, and_self]

/-- The outcome decides what is in the started worker's slot. -/
theorem WorkerTable.startWorker_self {o : StartOutcome} (h : w.startWorker i o = some w')
    (hpid : w.pids i = 0) :
    (∃ pid, o = .started pid ∧ w'.Complete i pid) ∨
      ((∀ pid, o ≠ .started pid) ∧ w'.pids i = 0) := by
  cases o with
  | forkFailed => exact absurd h (by simp [startWorker])
  | openFailed firstOpened =>
    obtain rfl := Option.some.inj h
    exact Or.inr ⟨fun pid => by simp, hpid⟩
  | handshakeFailed pid =>
    obtain rfl := Option.some.inj h
    exact Or.inr ⟨fun pid => by simp, hpid⟩
  | started pid =>
    obtain rfl := Option.some.inj h
    exact Or.inl ⟨pid, rfl, by constructor <;> exact Function.update_self ..⟩

/-- Slots that are not reached yet have the pid zero. -/
theorem WorkerTable.startWorkers_zero (h : startWorkers outcome n = some w) (hi : n ≤ i) :
    w.pids i = 0 := by
  induction n generalizing w with
  | zero =>
    obtain rfl := Option.some.inj h
    rfl
  | succ n ih =>
    obtain ⟨v, hv, hw⟩ := Option.bind_eq_some_iff.mp h
    rw [(startWorker_other (by omega : i ≠ n) hw).1]
    exact ih hv (by omega)

/-- Each slot is complete exactly if its worker started, and has the pid zero otherwise. -/
theorem WorkerTable.startWorkers_slot (h : startWorkers outcome n = some w) (hi : i < n) :
    (∃ pid, outcome i = .started pid ∧ w.Complete i pid) ∨
      ((∀ pid, outcome i ≠ .started pid) ∧ w.pids i = 0) := by
  induction n generalizing w with
  | zero => exact absurd hi (Nat.not_lt_zero i)
  | succ n ih =>
    obtain ⟨v, hv, hw⟩ := Option.bind_eq_some_iff.mp h
    rcases Nat.lt_succ_iff_lt_or_eq.mp hi with hlt | rfl
    · obtain ⟨hpids, hworkers, hchannels, hforked⟩ := startWorker_other (by omega : i ≠ n) hw
      rcases ih hv hlt with ⟨pid, ho, hc⟩ | ⟨ho, hzero⟩
      · refine Or.inl ⟨pid, ho, ?_, ?_, ?_, ?_⟩
        · rw [hforked, hc.forked]
        · rw [hpids, hc.pids]
        · rw [hworkers, hc.workers]
        · rw [hchannels, hc.channels]
      · exact Or.inr ⟨ho, by rw [hpids, hzero]⟩
    · exact startWorker_self hw (startWorkers_zero hv (Nat.le_refl i))

theorem WorkerTable.kill_mem_shutdown (w : WorkerTable) (n : Nat) (pid : Int) :
    .kill pid ∈ w.shutdown n ↔ ∃ i < n, w.pids i = pid := by
  simp only [shutdown, List.mem_flatMap, List.mem_range, List.mem_cons, ShutdownCall.kill.injEq,
    reduceCtorEq, List.not_mem_nil, or_false, eq_comm]

theorem WorkerTable.waitpid_mem_shutdown (w : WorkerTable) (n : Nat) (pid : Int) :
    .waitpid pid ∈ w.shutdown n ↔ ∃ i < n, w.pids i = pid := by
  simp only [shutdown, List.mem_flatMap, List.mem_range, List.mem_cons,
    ShutdownCall.waitpid.injEq, reduceCtorEq, List.not_mem_nil, or_false, false_or, eq_comm]

end Slots

/-- After `start_workers`, every slot belongs to the process forked for it, and `shutdown`
signals and waits for exactly the forked processes and never the pid zero, exactly if every
worker started. -/
theorem worker_slots_complete_iff {outcome : Nat → StartOutcome} {n : Nat} {w : WorkerTable}
    (h : WorkerTable.startWorkers outcome n = some w) :
    ((∀ i < n, ∃ pid, w.Complete i pid) ∧
        (∀ pid : Int, (.kill pid ∈ w.shutdown n ↔ ∃ i < n, ∃ p, w.forked i = some p ∧ p = pid) ∧
          (.waitpid pid ∈ w.shutdown n ↔ ∃ i < n, ∃ p, w.forked i = some p ∧ p = pid)) ∧
        .kill 0 ∉ w.shutdown n) ↔
      ∀ i < n, ∃ pid, outcome i = .started pid := by
  constructor
  · rintro ⟨hslots, _, _⟩ i hi
    obtain ⟨pid, hc⟩ := hslots i hi
    rcases WorkerTable.startWorkers_slot h hi with ⟨pid', ho, _⟩ | ⟨_, hzero⟩
    · exact ⟨pid', ho⟩
    · exact absurd (hc.pids.symm.trans hzero) (Int.ne_of_gt pid.2)
  · intro hall
    have hslots : ∀ i < n, ∃ pid, w.Complete i pid := by
      intro i hi
      rcases WorkerTable.startWorkers_slot h hi with ⟨pid, _, hc⟩ | ⟨hnot, _⟩
      · exact ⟨pid, hc⟩
      · obtain ⟨pid, ho⟩ := hall i hi
        exact absurd ho (hnot pid)
    have hforked : ∀ pid : Int, (∃ i < n, w.pids i = pid) ↔
        ∃ i < n, ∃ p, w.forked i = some p ∧ p = pid := by
      intro pid
      constructor
      · rintro ⟨i, hi, rfl⟩
        obtain ⟨p, hc⟩ := hslots i hi
        exact ⟨i, hi, p, hc.forked, hc.pids.symm⟩
      · rintro ⟨i, hi, p, hp, rfl⟩
        obtain ⟨p', hc⟩ := hslots i hi
        obtain rfl := Option.some.inj (hp.symm.trans hc.forked)
        exact ⟨i, hi, hc.pids⟩
    refine ⟨hslots, ?_, ?_⟩
    · intro pid
      rw [w.kill_mem_shutdown, w.waitpid_mem_shutdown, hforked]
      exact ⟨Iff.rfl, Iff.rfl⟩
    · rw [w.kill_mem_shutdown]
      rintro ⟨i, hi, hzero⟩
      obtain ⟨pid, hc⟩ := hslots i hi
      exact absurd (hc.pids.symm.trans hzero) (Int.ne_of_gt pid.2)

/-- The second of two workers starts after the first. -/
def bothStart : Nat → StartOutcome
  | 0 => .started ⟨100, by decide⟩
  | _ => .started ⟨101, by decide⟩

/-- Two workers that start have their own slots. -/
theorem worker_slots_complete_of_two :
    ∃ w, WorkerTable.startWorkers bothStart 2 = some w ∧
      (∀ i < 2, ∃ pid, w.Complete i pid) ∧ .kill 0 ∉ w.shutdown 2 := by
  obtain ⟨w, hw⟩ : ∃ w, WorkerTable.startWorkers bothStart 2 = some w := ⟨_, rfl⟩
  have hall : ∀ i < 2, ∃ pid, bothStart i = .started pid := by
    intro i _
    cases i with
    | zero => exact ⟨_, rfl⟩
    | succ i => exact ⟨_, rfl⟩
  obtain ⟨hslots, _, hkill⟩ := (worker_slots_complete_iff hw).mpr hall
  exact ⟨w, hw, hslots, hkill⟩

/-- A worker whose handshake fails was forked but has the pid zero in its slot: `shutdown`
signals the server's own process group and not the worker. -/
theorem failed_start_kills_pid_zero :
    ∃ w, WorkerTable.startWorkers (fun _ => .handshakeFailed ⟨100, by decide⟩) 1 = some w ∧
      w.forked 0 = some ⟨100, by decide⟩ ∧ w.workers 0 = none ∧
      .kill 0 ∈ w.shutdown 1 ∧ .kill 100 ∉ w.shutdown 1 := by
  refine ⟨_, rfl, ?_, ?_, ?_, ?_⟩ <;> decide

end Workq.Server
