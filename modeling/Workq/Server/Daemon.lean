import Mathlib.Algebra.BigOperators.Group.Finset.Basic
import Mathlib.Algebra.BigOperators.Group.Finset.Sigma
import Workq.Server.Idle
import Workq.Server.Wakeup
import Workq.Worker.Backlog

/-!
# From the insert to the claim

The whole daemon in one system: clients insert rows and send datagrams, the server's handlers
schedule workers over their pipes, a worker's main thread reads its pipe in pieces of any
size and schedules its threads, and the threads pop, claim and run. A wake-up passes through
three hands before it becomes a claim, and any of them can be slow. What a row needs to be
claimed is then somewhere on the way: no interleaving loses it.
-/

namespace Workq.Server

open Workq.Core Workq.Jobs Workq.Worker

variable {K : Type*} [Field K] [LinearOrder K]

/-- A work thread, by the index of its worker and its own. -/
abbrev ThreadId := Nat × Nat

/-- The daemon with its database. `unsignalled` is a trace variable: the rows that were
inserted, or there from the start, less two for each wake-up written since then. -/
structure Daemon (K : Type*) where
  server : ServerState K
  /-- The `server_send_pipe` of each worker. -/
  pipes : Nat → List UInt8
  running : Nat → Bool
  system : System ThreadId
  unsignalled : Nat

/-- What can happen next. -/
inductive DaemonEvent where
  | insert (id : JobId) (name : List Char) (data : Option (List Char))
  /-- A handler of the server. -/
  | server (e : ServerEvent)
  /-- `on_io_work` of a worker with a read of some of the bytes available. -/
  | read (worker bytes : Nat)
  /-- `on_io_work` of a worker with a read that fails or finds the end of the pipe. -/
  | final (worker : Nat) (bytes : Int)
  | thread (worker thread : Nat) (a : Action)

/-- `m_threads` of a worker. -/
def pool {m : Nat} (hm : 0 < m) (s : System ThreadId) (i : Nat) : Pool where
  threads := (List.range m).map fun j => s.queues (i, j)
  nonempty := by
    rw [ne_eq, List.map_eq_nil_iff, List.range_eq_nil]
    omega

/-- The system after a worker's main thread has touched its threads. -/
def setPool (s : System ThreadId) (i : Nat) (p : Pool) : System ThreadId :=
  { s with queues := fun q => if q.1 = i then p.threads[q.2]?.getD (s.queues q) else s.queues q }

/-- Write one message to a pipe for each time its worker is listed. -/
def deliver (workers : List Nat) (pipes : Nat → List UInt8) (i : Nat) : List UInt8 :=
  pipes i ++ (List.replicate (workers.count i) wakeup).flatten

/-- The messages that a handler wrote. -/
def newWakeups (before after : Dispatcher) : List Nat :=
  after.wakeups.drop before.wakeups.length

/-- One event of the daemon. -/
def Daemon.step (cfg : IdleSettings K) (log10 : K → K) (jobs : ThreadId → Config) {m : Nat}
    (hm : 0 < m) (d : Daemon K) : DaemonEvent → Option (Daemon K)
  | .insert id name data => (looseStep jobs d.system (.insert id name data)).map fun s =>
      { d with system := s, unsignalled := d.unsignalled + 1 }
  | .server e =>
    let server := d.server.handle cfg log10 e
    let sent := newWakeups d.server.dispatcher server.dispatcher
    some { d with
      server := server
      pipes := deliver sent d.pipes
      unsignalled := d.unsignalled - 2 * sent.length }
  | .read i n =>
    if i < d.server.dispatcher.numPids ∧ d.running i ∧ 1 ≤ n ∧ n ≤ 80 ∧
        n ≤ (d.pipes i).length then
      some { d with
        pipes := Function.update d.pipes i ((d.pipes i).drop n)
        system := setPool d.system i ((pool hm d.system i).onIoWork n).1 }
    else none
  | .final i bytes =>
    if i < d.server.dispatcher.numPids ∧ d.running i ∧
        (bytes = -1 ∨ bytes = 0 ∧ d.pipes i = []) then
      some { d with
        running := Function.update d.running i false
        system := setPool d.system i ((pool hm d.system i).onIoWork bytes).1 }
    else none
  | .thread i j a =>
    if i < d.server.dispatcher.numPids ∧ j < m then
      (looseStep jobs d.system (.thread (i, j) a)).map fun s => { d with system := s }
    else none

/-- The work threads of all workers. -/
def Daemon.threads (d : Daemon K) (m : Nat) : Finset ThreadId :=
  Finset.range d.server.dispatcher.numPids ×ˢ Finset.range m

/-- The rows that wake-ups, tokens and workloads on their way are good for. -/
def Daemon.onTheWay (d : Daemon K) (m : Nat) : Nat :=
  ∑ q ∈ d.threads m, (d.system.queues q).load +
    ∑ i ∈ Finset.range d.server.dispatcher.numPids, (d.pipes i).length

/-- Every row that waits has something on its way, and no thread was told to stop. -/
structure Daemon.Covered (d : Daemon K) (m : Nat) : Prop where
  cover : backlog d.system.shared.table ≤ d.onTheWay m + d.unsignalled
  unstopped : ∀ q ∈ d.threads m, Message.stop ∉ (d.system.queues q).queue

/-- The event loses no wake-up: no worker goes down and no claim is without effect. -/
def DaemonEvent.Lands : DaemonEvent → Prop
  | .final _ _ => False
  | .thread _ _ a => a.Lands
  | _ => True

section Pools

variable {m : Nat} (hm : 0 < m)

/-- A weight summed over the threads of a worker. -/
def poolTotal (f : WorkQueue → Nat) (p : Pool) : Nat := (p.threads.map f).sum

theorem poolTotal_pool (f : WorkQueue → Nat) (s : System ThreadId) (i : Nat) :
    poolTotal f (pool hm s i) = ∑ j ∈ Finset.range m, f (s.queues (i, j)) := by
  rw [poolTotal, pool, List.map_map]
  rfl

/-- Sending one thread a token adds what a token weighs. -/
theorem poolTotal_schedule {f : WorkQueue → Nat} {c : Nat} (hf : ∀ wq, f wq.sendWork = f wq + c)
    (p : Pool) : poolTotal f p.schedule = poolTotal f p + c := by
  have hk := p.selected_lt
  have hsplit : p.threads =
      p.threads.take p.selected ++ p.threads[p.selected] :: p.threads.drop (p.selected + 1) := by
    rw [List.getElem_cons_drop, List.take_append_drop]
  have hmodify : p.schedule.threads = p.threads.take p.selected ++
      p.threads[p.selected].sendWork :: p.threads.drop (p.selected + 1) :=
    List.modify_eq_take_cons_drop hk
  rw [poolTotal, hmodify, poolTotal]
  conv_rhs => rw [hsplit]
  simp only [List.map_append, List.map_cons, List.sum_append, List.sum_cons, hf]
  omega

/-- What `on_io_work` with some bytes does to the threads. -/
theorem onIoWork_bytes (p : Pool) {n : Nat} (hn : 1 ≤ n) :
    (p.onIoWork n).1 = Pool.schedule^[n] p := by
  have hne : ¬ ((n : Int) = -1 ∨ (n : Int) = 0) := by omega
  have hsucc : ((n : Int) - 1).toNat.succ = n := by omega
  rw [Pool.onIoWork, if_neg hne, ← Function.iterate_succ_apply, hsucc]

theorem poolTotal_schedules {f : WorkQueue → Nat} {c : Nat}
    (hf : ∀ wq, f wq.sendWork = f wq + c) (p : Pool) (n : Nat) :
    poolTotal f (Pool.schedule^[n] p) = poolTotal f p + n * c := by
  induction n generalizing p with
  | zero => rw [Nat.zero_mul]; rfl
  | succ n ih =>
    rw [Function.iterate_succ_apply, ih, poolTotal_schedule hf, Nat.succ_mul]
    omega

theorem length_schedules_pool (s : System ThreadId) (i n : Nat) :
    (Pool.schedule^[n] (pool hm s i)).threads.length = m := by
  rw [Pool.length_schedules, pool, List.length_map, List.length_range]

/-- What a token does not change for a thread, scheduling changes for none. -/
theorem forall_schedules {P : WorkQueue → Prop} (hsend : ∀ wq, P wq → P wq.sendWork) (p : Pool)
    (n : Nat) (h : ∀ wq ∈ p.threads, P wq) : ∀ wq ∈ (Pool.schedule^[n] p).threads, P wq := by
  induction n generalizing p with
  | zero => exact h
  | succ n ih =>
    rw [Function.iterate_succ_apply]
    refine ih p.schedule ?_
    intro wq hwq
    obtain ⟨j, hj⟩ := List.mem_iff_getElem?.mp hwq
    rw [p.getElem?_schedule] at hj
    split at hj
    · obtain ⟨wq₀, hwq₀, rfl⟩ := Option.map_eq_some_iff.mp hj
      exact hsend wq₀ (h wq₀ (List.mem_of_getElem? hwq₀))
    · exact h wq (List.mem_of_getElem? hj)

/-- The threads of a worker after its main thread has touched them. -/
theorem threads_setPool (s : System ThreadId) (i : Nat) {p : Pool} (hp : p.threads.length = m) :
    (pool hm (setPool s i p) i).threads = p.threads := by
  apply List.ext_getElem
  · rw [pool, List.length_map, List.length_range, hp]
  · intro j _ hj
    simp only [pool, setPool, List.getElem_map, List.getElem_range, if_true,
      List.getElem?_eq_getElem hj, Option.getD_some]

/-- A worker's main thread touches no other worker's threads. -/
theorem setPool_other (s : System ThreadId) {i : Nat} (p : Pool) {q : ThreadId} (hq : q.1 ≠ i) :
    (setPool s i p).queues q = s.queues q :=
  if_neg hq

/-- What holds of all threads and of those that a main thread has touched. -/
theorem forall_setPool {P : WorkQueue → Prop} {s : System ThreadId} {n i : Nat} {p : Pool}
    (hp : p.threads.length = m) (hpool : ∀ wq ∈ p.threads, P wq)
    (hs : ∀ q ∈ Finset.range n ×ˢ Finset.range m, P (s.queues q)) :
    ∀ q ∈ Finset.range n ×ˢ Finset.range m, P ((setPool s i p).queues q) := by
  rintro ⟨k, j⟩ hq
  by_cases hk : k = i
  · subst hk
    have hj : j < p.threads.length := hp ▸ Finset.mem_range.mp (Finset.mem_product.mp hq).2
    simp only [setPool, if_true, List.getElem?_eq_getElem hj, Option.getD_some]
    exact hpool _ (List.getElem_mem hj)
  · rw [setPool_other s p hk]
    exact hs (k, j) hq

/-- A weight of all threads after one worker's main thread has touched its own. -/
theorem sum_setPool (f : WorkQueue → Nat) (s : System ThreadId) {n i : Nat}
    (hi : i ∈ Finset.range n) {p : Pool} (hp : p.threads.length = m) :
    ∑ k ∈ Finset.range n, ∑ j ∈ Finset.range m, f ((setPool s i p).queues (k, j)) +
        poolTotal f (pool hm s i) =
      ∑ k ∈ Finset.range n, ∑ j ∈ Finset.range m, f (s.queues (k, j)) + poolTotal f p := by
  have hself : ∑ j ∈ Finset.range m, f ((setPool s i p).queues (i, j)) = poolTotal f p := by
    rw [← poolTotal_pool hm, poolTotal, threads_setPool hm s i hp, poolTotal]
  have hothers : ∀ k ∈ (Finset.range n).erase i,
      ∑ j ∈ Finset.range m, f ((setPool s i p).queues (k, j)) =
        ∑ j ∈ Finset.range m, f (s.queues (k, j)) := by
    intro k hk
    refine Finset.sum_congr rfl ?_
    intro j _
    rw [setPool_other s p (Finset.ne_of_mem_erase hk)]
  rw [← Finset.add_sum_erase _ _ hi, Finset.sum_congr rfl hothers, hself, poolTotal_pool,
    ← Finset.add_sum_erase (Finset.range n) (fun k => ∑ j ∈ Finset.range m,
      f (s.queues (k, j))) hi]
  omega

/-- A weight of all threads after one of them has changed. -/
theorem sum_update (f : WorkQueue → Nat) (queues : ThreadId → WorkQueue) {S : Finset ThreadId}
    {q : ThreadId} (hq : q ∈ S) (wq : WorkQueue) :
    ∑ r ∈ S, f (Function.update queues q wq r) = f wq + ∑ r ∈ S.erase q, f (queues r) := by
  rw [← Finset.add_sum_erase _ _ hq, Function.update_self]
  congr 1
  refine Finset.sum_congr rfl ?_
  intro r hr
  rw [Function.update_of_ne (Finset.ne_of_mem_erase hr)]

/-- The bytes in all pipes after a read from one of them. -/
theorem sum_length_drop (pipes : Nat → List UInt8) {n i b : Nat} (hi : i ∈ Finset.range n)
    (hb : b ≤ (pipes i).length) :
    ∑ k ∈ Finset.range n, (Function.update pipes i ((pipes i).drop b) k).length + b =
      ∑ k ∈ Finset.range n, (pipes k).length := by
  have hothers : ∀ k ∈ (Finset.range n).erase i,
      (Function.update pipes i ((pipes i).drop b) k).length = (pipes k).length := by
    intro k hk
    rw [Function.update_of_ne (Finset.ne_of_mem_erase hk)]
  rw [← Finset.add_sum_erase _ _ hi, Finset.sum_congr rfl hothers, Function.update_self,
    List.length_drop, ← Finset.add_sum_erase _ (fun k => (pipes k).length) hi]
  omega

end Pools

section Server

/-- A handler schedules at most one worker. -/
theorem dispatcher_handle (cfg : IdleSettings K) (log10 : K → K) (s : ServerState K)
    (e : ServerEvent) : (s.handle cfg log10 e).dispatcher = s.dispatcher ∨
      ∃ delivery, (s.handle cfg log10 e).dispatcher = s.dispatcher.schedule delivery := by
  have hincrease : ∀ s : ServerState K,
      (s.increaseTimeout cfg log10).dispatcher = s.dispatcher := by
    intro s
    unfold ServerState.increaseTimeout
    split <;> rfl
  cases e with
  | connect received delivery =>
    cases received with
    | false => exact Or.inl rfl
    | true => exact Or.inr ⟨delivery, rfl⟩
  | timeout reply delivery =>
    cases reply with
    | failed => exact Or.inl (hincrease _)
    | empty => exact Or.inl rfl
    | row pending =>
      simp only [ServerState.handle, ServerState.idleJobcheck]
      split
      · exact Or.inr ⟨delivery, rfl⟩
      · exact Or.inl (hincrease _)

/-- A handler writes one message at most, to a worker that was started. -/
theorem newWakeups_handle (cfg : IdleSettings K) (log10 : K → K) (s : ServerState K)
    (e : ServerEvent) :
    (s.handle cfg log10 e).dispatcher.numPids = s.dispatcher.numPids ∧
      (newWakeups s.dispatcher (s.handle cfg log10 e).dispatcher = [] ∨
        ∃ w < s.dispatcher.numPids,
          newWakeups s.dispatcher (s.handle cfg log10 e).dispatcher = [w]) := by
  rcases dispatcher_handle cfg log10 s e with heq | ⟨delivery, heq⟩
  · rw [heq]
    exact ⟨rfl, Or.inl (List.drop_length ..)⟩
  · rw [heq]
    refine ⟨rfl, ?_⟩
    cases delivery with
    | sent =>
      refine Or.inr ⟨s.dispatcher.lastWorker, s.dispatcher.inRange, ?_⟩
      rw [newWakeups, Dispatcher.schedule_wakeups, List.drop_left]
    | failed | noChannel =>
      left
      simp [newWakeups, Dispatcher.wakeups, Dispatcher.schedule]

theorem length_deliver (workers : List Nat) (pipes : Nat → List UInt8) (i : Nat) :
    (deliver workers pipes i).length = (pipes i).length + 2 * workers.count i := by
  have hwakeup : wakeup.length = 2 := rfl
  rw [deliver, List.length_append, List.length_flatten, List.map_replicate,
    List.sum_replicate_nat, hwakeup, Nat.mul_comm]

end Server

section Events

variable {cfg : IdleSettings K} {log10 : K → K} {jobs : ThreadId → Config} {m : Nat} {hm : 0 < m}
  {d d' : Daemon K}

/-- A thread of the daemon takes a listed step in which no earlier claim is seen. -/
theorem Daemon.step_thread {i j : Nat} {a : Action}
    (h : d.step cfg log10 jobs hm (.thread i j a) = some d') :
    (i, j) ∈ d.threads m ∧ ∃ sh wq claims,
      ThreadStep (jobs (i, j)) (i, j) { d.system.shared with claims := [] }
        (d.system.queues (i, j)) a sh wq ∧
      d' = { d with system := ⟨{ sh with claims := claims },
        Function.update d.system.queues (i, j) wq⟩ } := by
  simp only [Daemon.step] at h
  split at h
  · rename_i hguard
    obtain ⟨s, hs, rfl⟩ := Option.map_eq_some_iff.mp h
    obtain ⟨r, hr, rfl⟩ := Option.map_eq_some_iff.mp hs
    obtain ⟨⟨sh, wq⟩, hv, rfl⟩ := Option.map_eq_some_iff.mp hr
    refine ⟨?_, sh, wq, _, threadStep_cases hv, rfl⟩
    exact Finset.mem_product.mpr ⟨Finset.mem_range.mpr hguard.1, Finset.mem_range.mpr hguard.2⟩
  · contradiction

/-- A read passes each byte on as a token. -/
theorem Daemon.step_read {i n : Nat} (h : d.step cfg log10 jobs hm (.read i n) = some d') :
    i ∈ Finset.range d.server.dispatcher.numPids ∧ 1 ≤ n ∧ n ≤ (d.pipes i).length ∧
      d' = { d with
        pipes := Function.update d.pipes i ((d.pipes i).drop n)
        system := setPool d.system i (Pool.schedule^[n] (pool hm d.system i)) } := by
  simp only [Daemon.step] at h
  split at h
  · rename_i hguard
    obtain ⟨hi, _, hpos, _, hle⟩ := hguard
    rw [onIoWork_bytes _ hpos] at h
    exact ⟨Finset.mem_range.mpr hi, hpos, hle, (Option.some.inj h).symm⟩
  · contradiction

/-- What tokens and the threads' own steps keep for every thread, every event keeps that takes
no worker down. -/
theorem Daemon.forall_queues_step {P : WorkQueue → Prop} (hsend : ∀ wq, P wq → P wq.sendWork)
    (hthread : ∀ {q : ThreadId} {sh sh' wq wq' a},
      ThreadStep (jobs q) q sh wq a sh' wq' → P wq → P wq')
    {e : DaemonEvent} (he : e.Lands) (h : d.step cfg log10 jobs hm e = some d')
    (hd : ∀ q ∈ d.threads m, P (d.system.queues q)) :
    ∀ q ∈ d'.threads m, P (d'.system.queues q) := by
  cases e with
  | insert id name data =>
    obtain ⟨s, hs, rfl⟩ := Option.map_eq_some_iff.mp h
    simp only [looseStep, Worker.step] at hs
    split at hs
    · obtain rfl := Option.some.inj hs
      exact hd
    · contradiction
  | server e =>
    obtain rfl := Option.some.inj h
    obtain ⟨hnum, _⟩ := newWakeups_handle cfg log10 d.server e
    intro q hq
    exact hd q (by simpa only [Daemon.threads, hnum] using hq)
  | read i n =>
    obtain ⟨hi, _, _, rfl⟩ := Daemon.step_read h
    refine forall_setPool (length_schedules_pool hm d.system i n)
      (forall_schedules hsend _ n ?_) hd
    intro wq hwq
    obtain ⟨j, hj, rfl⟩ := List.mem_map.mp hwq
    exact hd (i, j) (Finset.mem_product.mpr ⟨hi, Finset.mem_range.mpr (List.mem_range.mp hj)⟩)
  | final i bytes => exact he.elim
  | thread i j a =>
    obtain ⟨hmem, sh, wq, claims, hstep, rfl⟩ := Daemon.step_thread h
    intro q hq
    change P (Function.update d.system.queues (i, j) wq q)
    by_cases hqi : q = (i, j)
    · subst hqi
      rw [Function.update_self]
      exact hthread hstep (hd _ hmem)
    · rw [Function.update_of_ne hqi]
      exact hd q hq

/-- Every event that loses no wake-up goes on covering the rows that wait. -/
theorem Daemon.Covered.cover_step (C : d.Covered m) {e : DaemonEvent} (he : e.Lands)
    (h : d.step cfg log10 jobs hm e = some d') :
    backlog d'.system.shared.table ≤ d'.onTheWay m + d'.unsignalled := by
  have hcover := C.cover
  cases e with
  | insert id name data =>
    -- one row that waits for its wake-up
    obtain ⟨s, hs, rfl⟩ := Option.map_eq_some_iff.mp h
    simp only [looseStep, Worker.step] at hs
    split at hs
    · rename_i hid
      obtain rfl := Option.some.inj hs
      have hinsert := backlog_insert_le hid (newRow name data)
      simp only [Daemon.onTheWay, Daemon.threads] at hcover ⊢
      omega
    · contradiction
  | server e =>
    -- a message that is written is two bytes on the way
    obtain rfl := Option.some.inj h
    obtain ⟨hnum, hnew⟩ := newWakeups_handle cfg log10 d.server e
    simp only [Daemon.onTheWay, Daemon.threads, hnum, length_deliver] at hcover ⊢
    rw [Finset.sum_add_distrib]
    rcases hnew with hnew | ⟨w, hw, hnew⟩
    · rw [hnew]
      simp only [List.count_nil, List.length_nil, Nat.mul_zero, Finset.sum_const_zero]
      omega
    · have hone : ∑ i ∈ Finset.range d.server.dispatcher.numPids, 2 * [w].count i = 2 := by
        rw [Finset.sum_eq_single_of_mem w (Finset.mem_range.mpr hw)]
        · rw [List.count_singleton_self]
        · intro i _ hi
          rw [List.count_singleton, if_neg (by simpa using Ne.symm hi), Nat.mul_zero]
      rw [hnew, hone, List.length_singleton]
      omega
  | read i n =>
    -- a byte that is read becomes a token
    obtain ⟨hi, hpos, hle, rfl⟩ := Daemon.step_read h
    have hloads := sum_setPool hm WorkQueue.load d.system hi (length_schedules_pool hm d.system i n)
    have hpipes := sum_length_drop d.pipes hi hle
    rw [poolTotal_schedules WorkQueue.load_sendWork, Nat.mul_one] at hloads
    simp only [Daemon.onTheWay, Daemon.threads, Finset.sum_product] at hcover ⊢
    change backlog d.system.shared.table ≤ _
    omega
  | final i bytes => exact he.elim
  | thread i j a =>
    obtain ⟨hmem, sh, wq, claims, hstep, rfl⟩ := Daemon.step_thread h
    simp only [Daemon.onTheWay] at hcover ⊢
    rw [← Finset.add_sum_erase _ _ hmem] at hcover
    change backlog sh.table ≤
      ∑ q ∈ d.threads m, (Function.update d.system.queues (i, j) wq q).load + _ + _
    rw [sum_update WorkQueue.load _ hmem]
    simp only [Nat.add_assoc] at hcover ⊢
    exact hstep.covers he (C.unstopped _ hmem) hcover

/-- Every event that loses no wake-up keeps the rows covered and the threads unstopped. -/
theorem Daemon.Covered.step (C : d.Covered m) {e : DaemonEvent} (he : e.Lands)
    (h : d.step cfg log10 jobs hm e = some d') : d'.Covered m := by
  refine ⟨C.cover_step he h, ?_⟩
  refine Daemon.forall_queues_step (P := fun wq => Message.stop ∉ wq.queue) ?_ ?_ he h C.unstopped
  · intro wq hwq
    simpa [WorkQueue.sendWork] using hwq
  · intro q sh sh' wq wq' a hstep hwq hstop
    exact hwq (hstep.queue_subset hstop)

theorem Daemon.Covered.exec {es : List DaemonEvent} (hes : ∀ e ∈ es, e.Lands)
    (hstart : backlog d.system.shared.table ≤ d.unsignalled)
    (hstop : ∀ q ∈ d.threads m, Message.stop ∉ (d.system.queues q).queue)
    (hrun : Core.exec (Daemon.step cfg log10 jobs hm) d es = some d') : d'.Covered m :=
  exec_preserves (C := fun _ e => e.Lands) (P := fun d : Daemon K => d.Covered m)
    (fun _ _ _ he C hstep => C.step he hstep) (allSteps_of_forall hes d)
    ⟨hstart.trans (Nat.le_add_left _ _), hstop⟩ hrun

omit [Field K] [LinearOrder K] in
/-- With nothing on its way any more, no row waits. -/
theorem Daemon.Covered.unclaimable (C : d.Covered m) (hsignalled : d.unsignalled = 0)
    (hpipes : ∀ i < d.server.dispatcher.numPids, d.pipes i = [])
    (hidle : ∀ q ∈ d.threads m, (d.system.queues q).queue = [] ∧ (d.system.pc q).Through)
    {id : JobId} {r : JobRow} (hr : d.system.row id = some r) : claimable id r = false := by
  have hloads : ∑ q ∈ d.threads m, (d.system.queues q).load = 0 := by
    refine Finset.sum_eq_zero ?_
    intro q hq
    obtain ⟨hqueue, hcollected, hpassing⟩ := hidle q hq
    have hpc : (d.system.queues q).pc = d.system.pc q := rfl
    rw [WorkQueue.load, WorkQueue.tokens, hqueue, hpc, hcollected, hpassing]
    rfl
  have hbytes : ∑ i ∈ Finset.range d.server.dispatcher.numPids, (d.pipes i).length = 0 := by
    refine Finset.sum_eq_zero ?_
    intro i hi
    rw [hpipes i (Finset.mem_range.mp hi), List.length_nil]
  have hcover := C.cover
  rw [Daemon.onTheWay, hloads, hbytes, hsignalled] at hcover
  exact backlog_eq_zero.mp (Nat.le_zero.mp hcover) id r hr

/-- No job is left behind. From any start, in every run of the daemon in which no worker goes
down and every claim takes effect, the rows that wait are at most those that bytes in the
pipes, tokens in the queues and workloads in hand are good for and those whose wake-up is
not written yet; so once every wake-up is written, all pipes are empty and no thread has
a token, no row is left that could be claimed. -/
theorem no_job_left_behind {es : List DaemonEvent} (hes : ∀ e ∈ es, e.Lands)
    (hstart : backlog d.system.shared.table ≤ d.unsignalled)
    (hstop : ∀ q ∈ d.threads m, Message.stop ∉ (d.system.queues q).queue)
    (hrun : exec (Daemon.step cfg log10 jobs hm) d es = some d') :
    backlog d'.system.shared.table ≤ d'.onTheWay m + d'.unsignalled ∧
      (d'.unsignalled = 0 → (∀ i < d'.server.dispatcher.numPids, d'.pipes i = []) →
        (∀ q ∈ d'.threads m, (d'.system.queues q).queue = [] ∧ (d'.system.pc q).Through) →
        ∀ id r, d'.system.row id = some r → claimable id r = false) := by
  have C : d'.Covered m := Daemon.Covered.exec hes hstart hstop hrun
  refine ⟨C.cover, ?_⟩
  intro hsignalled hpipes hidle id r hr
  exact C.unclaimable hsignalled hpipes hidle hr

end Events

/-- One worker with one thread, an empty table and nothing sent. -/
def Daemon.idle : Daemon ℚ where
  server := .running {} .single
  pipes _ := []
  running _ := true
  system := .initial
  unsignalled := 0

/-- One job from its insert to its claim. -/
def oneJobEvents : List DaemonEvent :=
  [.insert 1 "run".toList none, .server (.connect true .sent), .thread 0 0 .check, .read 0 2,
    .thread 0 0 .pop, .thread 0 0 .pop, .thread 0 0 .pop, .thread 0 0 (.claim ⟨1, 0, 0, 0⟩ .ok)]

/-- With its wake-up read and popped the job is not left behind. -/
theorem no_job_left_behind_one_job :
    ∃ d', exec (Daemon.step {} powerLog (fun _ => Config.runOnly) Nat.one_pos) Daemon.idle
        oneJobEvents = some d' ∧ ∀ id r, d'.system.row id = some r → claimable id r = false := by
  have hrun : (exec (Daemon.step {} powerLog (fun _ => Config.runOnly) Nat.one_pos) Daemon.idle
      oneJobEvents).map (fun d => (d.unsignalled, d.server.dispatcher.numPids, d.pipes 0,
        (d.system.queues (0, 0)).queue, (d.system.pc (0, 0)).collected,
        (d.system.pc (0, 0)).passing)) = some (0, 1, [], [], 0, []) := by rfl
  obtain ⟨d', hd', hend⟩ := Option.map_eq_some_iff.mp hrun
  simp only [Prod.mk.injEq] at hend
  obtain ⟨hunsignalled, hnum, hpipe, hqueue, hcollected, hpassing⟩ := hend
  have hes : ∀ e ∈ oneJobEvents, e.Lands := by
    simp [oneJobEvents, DaemonEvent.Lands, Action.Lands]
  have hbacklog : backlog Daemon.idle.system.shared.table ≤ Daemon.idle.unsignalled := by decide
  refine ⟨d', hd', (no_job_left_behind hes hbacklog (fun q _ => List.not_mem_nil) hd').2
    hunsignalled ?_ ?_⟩
  · intro i hi
    obtain rfl : i = 0 := by omega
    exact hpipe
  · rintro ⟨i, j⟩ hq
    obtain ⟨hi, hj⟩ := Finset.mem_product.mp hq
    rw [Finset.mem_range] at hi hj
    obtain rfl : i = 0 := by omega
    obtain rfl : j = 0 := by omega
    exact ⟨hqueue, hcollected, hpassing⟩

end Workq.Server
