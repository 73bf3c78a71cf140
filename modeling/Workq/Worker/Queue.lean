import Workq.Jobs.Statements

/-!
# Work queues and their threads

A `WorkQueue` is its message queue, its pending counter, the `m_active` flag it
watches and the program point of its thread. The program points follow `run` and
`find_jobs`: there is one before every message pop, before every SQL statement and
before every job execution, so that anything another thread does can fall between
two of them. `threadStep` is one such step of one thread; what it cannot know (the
time in the lock id, the fate of a statement, a creator's and a job's result) comes
with the action.
-/

namespace Workq.Worker

open Workq.Core Workq.Jobs

/-- A queued message: `(gpointer)1` from `send_work`, `(gpointer)-1` from `send_stop`. -/
inductive Message where
  | work
  | stop
  deriving DecidableEq, Repr

/-- The local variables `lockid` and `workload` of one `find_jobs` call. -/
structure Call where
  lock : List Char
  workload : Nat
  deriving DecidableEq, Repr

/-- Where a work thread is in `run` and `find_jobs`. -/
inductive Pc where
  /-- At `while( m_active )`. -/
  | head
  /-- In `g_async_queue_timed_pop`. -/
  | timedPop
  /-- At `g_async_queue_try_pop`, with the workload collected so far. -/
  | tryPop (workload : Nat)
  /-- In `find_jobs`, before its claiming `UPDATE`. -/
  | findJobs (workload : Nat)
  /-- Before the `SELECT` of the claimed rows. -/
  | select (call : Call)
  /-- Before the compensating `UPDATE` after a failed `SELECT`. -/
  | release (call : Call)
  /-- At the head of the loop over the fetched rows. -/
  | rows (call : Call) (rest : List Fetched) (jobs : List JobId)
  /-- Before the `UPDATE` to `error` of a row no job was made for; `known` is its branch. -/
  | discard (call : Call) (id : JobId) (known : Bool) (rest : List Fetched) (jobs : List JobId)
  /-- Before the `UPDATE` to `processing`. -/
  | mark (call : Call) (id : JobId) (rest : List Fetched) (jobs : List JobId)
  /-- At the head of `run`'s loop over its jobs. -/
  | batch (workload : Int) (jobs : List JobId)
  /-- After `real_execute`, before the `UPDATE` to `complete` or `error`. -/
  | finish (workload : Int) (id : JobId) (ret : Int) (jobs : List JobId)
  /-- After `g_thread_exit`. -/
  | exited
  deriving DecidableEq, Repr

/-- A work queue with the state of its thread. `sent` and `stopSeen` are trace
variables: the number of `send_work` calls, and whether a stop message was popped. -/
structure WorkQueue where
  active : Bool
  queue : List Message
  pending : Int
  pc : Pc
  sent : Nat
  stopSeen : Bool
  deriving DecidableEq, Repr

/-- A constructed queue with its thread started; the constructor leaves `m_pending`
unset, and zero is taken for it. -/
def WorkQueue.new : WorkQueue := ⟨true, [], 0, .head, 0, false⟩

/-- `send_work`: count the message, then push it. -/
def WorkQueue.sendWork (wq : WorkQueue) : WorkQueue :=
  { wq with pending := wq.pending + 1, queue := wq.queue ++ [.work], sent := wq.sent + 1 }

/-- `send_stop`. -/
def WorkQueue.sendStop (wq : WorkQueue) : WorkQueue :=
  { wq with queue := wq.queue ++ [.stop] }

/-- The body of the coalescing loop for one popped message. -/
def WorkQueue.receive (wq : WorkQueue) (workload : Nat) (rest : List Message) :
    Message → WorkQueue
  | .stop => { wq with queue := rest, stopSeen := true, pc := .head }
  | .work => { wq with queue := rest, pc := .tryPop (workload + 1) }

/-- What a queue's process is configured with. -/
structure Config where
  /-- Whether `g_datalist_id_get_data` finds a creator for a job name. -/
  registered : List Char → Bool
  /-- The setting `discard_unknown_jobs`. -/
  discardUnknownJobs : Bool

/-- The fate of a statement that changes the table. -/
inductive Reply where
  | ok
  | failed (tookEffect : Bool)
  deriving DecidableEq, Repr

/-- The table after a statement with the given fate. -/
def Reply.apply (r : Reply) (before after : JobsTable) : JobsTable :=
  match r with
  | .ok | .failed true => after
  | .failed false => before

/-- What holds of the table with and without the statement holds whatever its fate. -/
theorem Reply.apply_of {P : JobsTable → Prop} (r : Reply) {before after : JobsTable}
    (hb : P before) (ha : P after) : P (r.apply before after) := by
  match r with
  | .ok | .failed true => exact ha
  | .failed false => exact hb

/-- The fate of the `SELECT`: a result set, an iterator whose `begin` returns `NULL`
because `mysql_store_result` failed, or no iterator. -/
inductive FetchReply where
  | ok
  | noResult
  | failed
  deriving DecidableEq, Repr

/-- `Job::real_execute`: `execute` runs only when `load_data` succeeded. -/
def realExecute (loadData : Bool) (execute : Int) : Int := if loadData then execute else 0

/-- One action of a work thread with what its environment decides. -/
inductive Action where
  /-- The loop test on `m_active`. -/
  | check
  /-- The timed pop ran out. -/
  | timeout
  /-- A pop, timed or not. -/
  | pop
  /-- The claiming `UPDATE`. -/
  | claim (stamp : Stamp) (reply : Reply)
  /-- The `SELECT` with its iterator's `begin`. -/
  | fetch (reply : FetchReply)
  /-- Any other `UPDATE`. -/
  | update (reply : Reply)
  /-- The lookup of a fetched row's type; `made` says whether its creator returned a job. -/
  | create (made : Bool)
  /-- The end of a loop. -/
  | done
  /-- `real_execute` on the next job. -/
  | execute (loadData : Bool) (execute : Int)
  deriving DecidableEq, Repr

/-- A `find_jobs` call that issued its claiming `UPDATE`. -/
structure Claim (ι : Type*) where
  lock : List Char
  queue : ι
  workload : Nat
  /-- The ids the statement marked, none if it had no effect. -/
  marked : List JobId
  deriving DecidableEq

/-- The database, and the trace of claims and of job executions, latest first. -/
structure Shared (ι : Type*) where
  table : JobsTable
  claims : List (Claim ι)
  runs : List (JobId × Int)

/-- The lock ids issued so far. -/
def Shared.locks {ι : Type*} (sh : Shared ι) : List (List Char) := sh.claims.map Claim.lock

/-- What the claiming `UPDATE` does to the database and its trace. -/
def Shared.claim {ι : Type*} (sh : Shared ι) (q : ι) (lock : List Char) (workload : Nat)
    (reply : Reply) : Shared ι :=
  { sh with
    table := reply.apply sh.table (Jobs.claim sh.table lock workload)
    claims := ⟨lock, q, workload,
      if reply = .failed false then [] else claimIds sh.table workload⟩ :: sh.claims }

/-- The database after a statement of the given effect. -/
def Shared.write {ι : Type*} (sh : Shared ι) (reply : Reply) (after : JobsTable) : Shared ι :=
  { sh with table := reply.apply sh.table after }

variable {ι : Type*}

/-- The branch of `find_jobs` for one fetched row. -/
def rowPc (cfg : Config) (call : Call) (row : Fetched) (rest : List Fetched)
    (jobs : List JobId) (made : Bool) : Pc :=
  if cfg.registered row.name then
    if made then .mark call row.id rest (jobs ++ [row.id])
    else if cfg.discardUnknownJobs then .discard call row.id true rest jobs
    else .mark call row.id rest jobs
  else if cfg.discardUnknownJobs then .discard call row.id false rest jobs
  else .rows call rest jobs

/-- One step of the thread of queue `q`. -/
def threadStep (cfg : Config) (q : ι) (sh : Shared ι) (wq : WorkQueue) (a : Action) :
    Option (Shared ι × WorkQueue) :=
  match wq.pc, a with
  | .head, .check =>
    some (sh, { wq with pc := if wq.active then .timedPop else .exited })
  | .timedPop, .timeout =>
    if wq.queue = [] then some (sh, { wq with pc := .head }) else none
  | .timedPop, .pop =>
    match wq.queue with
    | [] => none
    | m :: ms => some (sh, wq.receive 0 ms m)
  | .tryPop w, .pop =>
    match wq.queue with
    -- `if( workload <= 0 ) { continue; }` after the coalescing loop
    | [] => some (sh, { wq with pc := if w = 0 then .head else .findJobs w })
    | m :: ms => some (sh, wq.receive w ms m)
  | .findJobs w, .claim stamp reply =>
    -- distinct calls use distinct lock ids
    if lockid stamp ∈ sh.locks then none
    else some (sh.claim q (lockid stamp) w reply,
      { wq with pc := if reply = .ok then .select ⟨lockid stamp, w⟩ else .head })
  | .select c, .fetch .ok =>
    some (sh, { wq with pc := .rows c (fetch sh.table c.lock c.workload) [] })
  | .select c, .fetch .noResult => some (sh, { wq with pc := .rows c [] [] })
  | .select c, .fetch .failed => some (sh, { wq with pc := .release c })
  | .release c, .update reply =>
    some (sh.write reply (Jobs.release sh.table c.lock), { wq with pc := .head })
  | .rows c (row :: rest) jobs, .create made =>
    some (sh, { wq with pc := rowPc cfg c row rest jobs made })
  | .rows c [] jobs, .done => some (sh, { wq with pc := .batch c.workload jobs })
  | .discard c id known rest jobs, .update reply =>
    some (sh.write reply (setError sh.table id),
      { wq with pc := if known then .mark c id rest jobs else .rows c rest jobs })
  | .mark c id rest jobs, .update reply =>
    some (sh.write reply (setProcessing sh.table id), { wq with pc := .rows c rest jobs })
  | .batch w (id :: jobs), .execute loadData execute =>
    some ({ sh with runs := (id, realExecute loadData execute) :: sh.runs },
      { wq with pc := .finish w id (realExecute loadData execute) jobs })
  | .finish w id ret jobs, .update reply =>
    some (sh.write reply (if ret ≠ 0 then setComplete sh.table id else setError sh.table id),
      { wq with pc := .batch (w - 1) jobs, pending := wq.pending - 1 })
  | .batch _ [], .done => some (sh, { wq with pc := .head })
  | _, _ => none

end Workq.Worker
