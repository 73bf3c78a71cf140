import Mathlib.Logic.Function.Basic
import Workq.Core.Run
import Workq.Worker.Queue

/-!
# Any number of work queues over one jobs table

The index type names the queues of all threads, processes and servers. A step is a
client's insert, a main thread's `send_work`, `send_stop` or clearing of `m_active`,
or one action of one work thread. `ThreadStep` lists once what a thread's action can
do, with its guards; every invariant is proved by cases on it and never unfolds
`threadStep` again. `looseStep` is the same system without the premise that distinct calls
use distinct lock ids, so that its runs are all interleavings.
-/

namespace Workq.Worker

open Workq.Core Workq.Jobs

variable {ι : Type*}

/-- The shared database and the queues. -/
structure System (ι : Type*) where
  shared : Shared ι
  queues : ι → WorkQueue

/-- What can happen next. -/
inductive Event (ι : Type*) where
  /-- A client inserts a pending, unlocked row under a fresh id. -/
  | insert (id : JobId) (name : List Char) (data : Option (List Char))
  | sendWork (q : ι)
  | sendStop (q : ι)
  /-- The `m_active` that queue `q` watches is set to false. -/
  | clearActive (q : ι)
  /-- A step of the thread of queue `q`. -/
  | thread (q : ι) (a : Action)

/-- The queue whose thread acts. -/
def Event.actor : Event ι → Option ι
  | .thread q _ => some q
  | _ => none

/-- The program point of a queue's thread. -/
def System.pc (s : System ι) (q : ι) : Pc := (s.queues q).pc

/-- The row under an id. -/
def System.row (s : System ι) (id : JobId) : Option JobRow := s.shared.table.get? id

section Step

variable [DecidableEq ι]

/-- Replace one queue. -/
def System.setQueue (s : System ι) (q : ι) (wq : WorkQueue) : System ι :=
  { s with queues := Function.update s.queues q wq }

/-- The system's step function. -/
def step (cfg : ι → Config) (s : System ι) : Event ι → Option (System ι)
  | .insert id name data =>
    if s.row id = none then
      some { s with shared := { s.shared with
        table := s.shared.table.insert id (newRow name data) } }
    else none
  | .sendWork q => some (s.setQueue q (s.queues q).sendWork)
  | .sendStop q => some (s.setQueue q (s.queues q).sendStop)
  | .clearActive q => some (s.setQueue q { s.queues q with active := false })
  | .thread q a => (threadStep (cfg q) q s.shared (s.queues q) a).map fun r =>
      { shared := r.1, queues := Function.update s.queues q r.2 }

end Step

/-- The step of a thread whatever its lock id: the earlier claims are out of its sight. -/
def looseThreadStep (cfg : Config) (q : ι) (sh : Shared ι) (wq : WorkQueue) (a : Action) :
    Option (Shared ι × WorkQueue) :=
  (threadStep cfg q { sh with claims := [] } wq a).map fun r =>
    ({ r.1 with claims := r.1.claims ++ sh.claims }, r.2)

/-- The system's step function without the premise on lock ids. -/
def looseStep [DecidableEq ι] (cfg : ι → Config) (s : System ι) : Event ι → Option (System ι)
  | .thread q a => (looseThreadStep (cfg q) q s.shared (s.queues q) a).map fun r =>
      { shared := r.1, queues := Function.update s.queues q r.2 }
  | .insert id name data => step cfg s (.insert id name data)
  | .sendWork q => step cfg s (.sendWork q)
  | .sendStop q => step cfg s (.sendStop q)
  | .clearActive q => step cfg s (.clearActive q)

/-- The lock id of a call that claims is new. -/
def Event.NewLock (s : System ι) : Event ι → Prop
  | .thread _ (.claim stamp _) => lockid stamp ∉ s.shared.locks
  | _ => True

instance (s : System ι) (e : Event ι) : Decidable (e.NewLock s) :=
  match e with
  | .thread _ (.claim stamp _) => inferInstanceAs (Decidable (lockid stamp ∉ s.shared.locks))
  | .thread _ .check | .thread _ .timeout | .thread _ .pop | .thread _ (.fetch _)
  | .thread _ (.update _) | .thread _ (.create _) | .thread _ .done | .thread _ (.execute _ _)
  | .insert _ _ _ | .sendWork _ | .sendStop _ | .clearActive _ => inferInstanceAs (Decidable True)

/-- The claims of one queue, latest first. -/
def claimsOf [DecidableEq ι] (q : ι) (claims : List (Claim ι)) : List (Claim ι) :=
  claims.filter fun c => c.queue = q

/-- Everything an action of a thread can do, one constructor for each kind of step. -/
inductive ThreadStep (cfg : Config) (q : ι) (sh : Shared ι) (wq : WorkQueue) :
    Action → Shared ι → WorkQueue → Prop
  | check (hpc : wq.pc = .head) :
      ThreadStep cfg q sh wq .check sh
        { wq with pc := if wq.active then .timedPop else .exited }
  | timeout (hpc : wq.pc = .timedPop) (hq : wq.queue = []) :
      ThreadStep cfg q sh wq .timeout sh { wq with pc := .head }
  | popFirst (m : Message) (ms : List Message) (hpc : wq.pc = .timedPop)
      (hq : wq.queue = m :: ms) : ThreadStep cfg q sh wq .pop sh (wq.receive 0 ms m)
  | popNext (w : Nat) (m : Message) (ms : List Message) (hpc : wq.pc = .tryPop w)
      (hq : wq.queue = m :: ms) : ThreadStep cfg q sh wq .pop sh (wq.receive w ms m)
  | popNone (w : Nat) (hpc : wq.pc = .tryPop w) (hq : wq.queue = []) :
      ThreadStep cfg q sh wq .pop sh { wq with pc := if w = 0 then .head else .findJobs w }
  | claim (w : Nat) (stamp : Stamp) (reply : Reply) (hpc : wq.pc = .findJobs w)
      (hfresh : lockid stamp ∉ sh.locks) :
      ThreadStep cfg q sh wq (.claim stamp reply) (sh.claim q (lockid stamp) w reply)
        { wq with pc := if reply = .ok then .select ⟨lockid stamp, w⟩ else .head }
  | fetchOk (c : Call) (hpc : wq.pc = .select c) :
      ThreadStep cfg q sh wq (.fetch .ok) sh
        { wq with pc := .rows c (fetch sh.table c.lock c.workload) [] }
  | fetchNoResult (c : Call) (hpc : wq.pc = .select c) :
      ThreadStep cfg q sh wq (.fetch .noResult) sh { wq with pc := .rows c [] [] }
  | fetchFailed (c : Call) (hpc : wq.pc = .select c) :
      ThreadStep cfg q sh wq (.fetch .failed) sh { wq with pc := .release c }
  | release (c : Call) (reply : Reply) (hpc : wq.pc = .release c) :
      ThreadStep cfg q sh wq (.update reply) (sh.write reply (Jobs.release sh.table c.lock))
        { wq with pc := .head }
  | create (c : Call) (row : Fetched) (rest : List Fetched) (jobs : List JobId) (made : Bool)
      (hpc : wq.pc = .rows c (row :: rest) jobs) :
      ThreadStep cfg q sh wq (.create made) sh
        { wq with pc := rowPc cfg c row rest jobs made }
  | returnJobs (c : Call) (jobs : List JobId) (hpc : wq.pc = .rows c [] jobs) :
      ThreadStep cfg q sh wq .done sh { wq with pc := .batch c.workload jobs }
  | discard (c : Call) (id : JobId) (known : Bool) (rest : List Fetched) (jobs : List JobId)
      (reply : Reply) (hpc : wq.pc = .discard c id known rest jobs) :
      ThreadStep cfg q sh wq (.update reply) (sh.write reply (setError sh.table id))
        { wq with pc := if known then .mark c id rest jobs else .rows c rest jobs }
  | mark (c : Call) (id : JobId) (rest : List Fetched) (jobs : List JobId) (reply : Reply)
      (hpc : wq.pc = .mark c id rest jobs) :
      ThreadStep cfg q sh wq (.update reply) (sh.write reply (setProcessing sh.table id))
        { wq with pc := .rows c rest jobs }
  | execute (w : Int) (id : JobId) (jobs : List JobId) (loadData : Bool) (execute : Int)
      (hpc : wq.pc = .batch w (id :: jobs)) :
      ThreadStep cfg q sh wq (.execute loadData execute)
        { sh with runs := (id, realExecute loadData execute) :: sh.runs }
        { wq with pc := .finish w id (realExecute loadData execute) jobs }
  | finish (w : Int) (id : JobId) (ret : Int) (jobs : List JobId) (reply : Reply)
      (hpc : wq.pc = .finish w id ret jobs) :
      ThreadStep cfg q sh wq (.update reply)
        (sh.write reply (if ret ≠ 0 then setComplete sh.table id else setError sh.table id))
        { wq with pc := .batch (w - 1) jobs, pending := wq.pending - 1 }
  | batchEnd (w : Int) (hpc : wq.pc = .batch w []) :
      ThreadStep cfg q sh wq .done sh { wq with pc := .head }

/-- The step function does nothing that is not listed. -/
theorem threadStep_cases {cfg : Config} {q : ι} {sh sh' : Shared ι} {wq wq' : WorkQueue}
    {a : Action} (h : threadStep cfg q sh wq a = some (sh', wq')) :
    ThreadStep cfg q sh wq a sh' wq' := by
  unfold threadStep at h
  split at h
  case h_17 => contradiction
  all_goals rename_i hpc
  all_goals try (obtain ⟨rfl, rfl⟩ := Prod.mk.inj (Option.some.inj h))
  case h_1 => exact .check hpc
  case h_2 =>
    split at h
    · obtain ⟨rfl, rfl⟩ := Prod.mk.inj (Option.some.inj h)
      exact .timeout hpc ‹_›
    · contradiction
  case h_3 =>
    split at h
    · contradiction
    · obtain ⟨rfl, rfl⟩ := Prod.mk.inj (Option.some.inj h)
      exact .popFirst _ _ hpc ‹_›
  case h_4 =>
    split at h
    · obtain ⟨rfl, rfl⟩ := Prod.mk.inj (Option.some.inj h)
      exact .popNone _ hpc ‹_›
    · obtain ⟨rfl, rfl⟩ := Prod.mk.inj (Option.some.inj h)
      exact .popNext _ _ _ hpc ‹_›
  case h_5 =>
    split at h
    · contradiction
    · obtain ⟨rfl, rfl⟩ := Prod.mk.inj (Option.some.inj h)
      exact .claim _ _ _ hpc ‹_›
  case h_6 => exact .fetchOk _ hpc
  case h_7 => exact .fetchNoResult _ hpc
  case h_8 => exact .fetchFailed _ hpc
  case h_9 => exact .release _ _ hpc
  case h_10 => exact .create _ _ _ _ _ hpc
  case h_11 => exact .returnJobs _ _ hpc
  case h_12 => exact .discard _ _ _ _ _ _ hpc
  case h_13 => exact .mark _ _ _ _ _ hpc
  case h_14 => exact .execute _ _ _ _ _ hpc
  case h_15 => exact .finish _ _ _ _ _ hpc
  case h_16 => exact .batchEnd _ hpc

section StepCases

variable [DecidableEq ι]

/-- Only the acting thread's program point changes. -/
theorem System.pc_update (s : System ι) (sh : Shared ι) (q : ι) (wq : WorkQueue) :
    (System.mk sh (Function.update s.queues q wq)).pc = Function.update s.pc q wq.pc := by
  funext q'
  by_cases hq : q' = q
  · subst hq
    simp only [System.pc, Function.update_self]
  · simp only [System.pc, Function.update_of_ne hq]

/-- Replacing a queue at the same program point moves no thread. -/
theorem System.pc_setQueue (s : System ι) (q : ι) (wq : WorkQueue)
    (h : wq.pc = s.pc q) : (s.setQueue q wq).pc = s.pc := by
  rw [System.setQueue, s.pc_update, h]
  exact Function.update_eq_self q s.pc

/-- Replacing the queue of one thread is seen by that thread only. -/
theorem System.setQueue_cases (s : System ι) (r : ι) (wq : WorkQueue) (q : ι) :
    (q = r ∧ (s.setQueue r wq).queues q = wq) ∨ (s.setQueue r wq).queues q = s.queues q := by
  by_cases hq : q = r
  · subst hq
    exact Or.inl ⟨rfl, Function.update_self ..⟩
  · exact Or.inr (Function.update_of_ne hq ..)

/-- Everything a step of the system can do to the database and the threads. -/
inductive SystemStep (cfg : ι → Config) (s : System ι) : Event ι → System ι → Prop
  | insert (id : JobId) (name : List Char) (data : Option (List Char))
      (hid : s.row id = none) :
      SystemStep cfg s (.insert id name data)
        ⟨{ s.shared with table := s.shared.table.insert id (newRow name data) }, s.queues⟩
  | send {e : Event ι} {t : System ι} (he : e.actor = none) (hsh : t.shared = s.shared)
      (hpc : t.pc = s.pc) : SystemStep cfg s e t
  | thread (q : ι) (a : Action) (sh : Shared ι) (wq : WorkQueue)
      (h : ThreadStep (cfg q) q s.shared (s.queues q) a sh wq) :
      SystemStep cfg s (.thread q a) ⟨sh, Function.update s.queues q wq⟩

/-- A thread's event is one of the listed thread steps. -/
theorem step_thread {cfg : ι → Config} {s t : System ι} {q : ι} {a : Action}
    (h : step cfg s (.thread q a) = some t) : ∃ sh wq,
      ThreadStep (cfg q) q s.shared (s.queues q) a sh wq ∧
        t = ⟨sh, Function.update s.queues q wq⟩ := by
  obtain ⟨⟨sh, wq⟩, hr, rfl⟩ := Option.map_eq_some_iff.mp h
  exact ⟨sh, wq, threadStep_cases hr, rfl⟩

/-- The system's step function does nothing that is not listed. -/
theorem step_cases {cfg : ι → Config} {s t : System ι} {e : Event ι}
    (h : step cfg s e = some t) : SystemStep cfg s e t := by
  cases e with
  | insert id name data =>
    simp only [step] at h
    split at h
    · obtain rfl := Option.some.inj h
      exact .insert id name data ‹_›
    · contradiction
  | sendWork q | sendStop q | clearActive q =>
    obtain rfl := Option.some.inj h
    exact .send rfl rfl (s.pc_setQueue q _ rfl)
  | thread q a =>
    obtain ⟨sh, wq, hstep, rfl⟩ := step_thread h
    exact .thread q a sh wq hstep

/-- A loose step of a thread is a listed step in which no earlier claim is seen. -/
theorem looseStep_thread {cfg : ι → Config} {s t : System ι} {r : ι} {a : Action}
    (h : looseStep cfg s (.thread r a) = some t) :
    ∃ sh wq, ThreadStep (cfg r) r { s.shared with claims := [] } (s.queues r) a sh wq ∧
      t.shared.claims = sh.claims ++ s.shared.claims ∧
      t.queues = Function.update s.queues r wq := by
  obtain ⟨u, hu, rfl⟩ := Option.map_eq_some_iff.mp h
  obtain ⟨⟨sh, wq⟩, hv, rfl⟩ := Option.map_eq_some_iff.mp hu
  exact ⟨sh, wq, threadStep_cases hv, rfl, rfl⟩

/-- A step of the system is a loose step: a thread takes the same branch when it sees no
earlier claim. -/
theorem looseStep_of_step {cfg : ι → Config} {s t : System ι} {e : Event ι}
    (h : step cfg s e = some t) : looseStep cfg s e = some t := by
  cases e with
  | insert id name data => exact h
  | sendWork q => exact h
  | sendStop q => exact h
  | clearActive q => exact h
  | thread q a =>
    obtain ⟨sh, wq, hstep, rfl⟩ := step_thread h
    rw [looseStep, looseThreadStep]
    cases hstep <;> simp_all [threadStep, Shared.claim, Shared.write, Shared.locks]

/-- A thread stays where it is while others act. -/
theorem pc_foreign_looseStep {cfg : ι → Config} {s t : System ι} {e : Event ι} {q : ι}
    (h : looseStep cfg s e = some t) (he : e.actor ≠ some q) : t.pc q = s.pc q := by
  cases e with
  | insert id name data =>
    simp only [looseStep, step] at h
    split at h
    · obtain rfl := Option.some.inj h
      rfl
    · contradiction
  | sendWork r | sendStop r | clearActive r =>
    obtain rfl := Option.some.inj h
    refine congrFun (s.pc_setQueue r _ ?_) q
    rfl
  | thread r a =>
    obtain ⟨sh, wq, _, _, hqueues⟩ := looseStep_thread h
    have hq : q ≠ r := fun hq => he (congrArg some hq.symm)
    rw [System.pc, hqueues, Function.update_of_ne hq, System.pc]

theorem pc_foreign_step {cfg : ι → Config} {s t : System ι} {e : Event ι} {q : ι}
    (h : step cfg s e = some t) (he : e.actor ≠ some q) : t.pc q = s.pc q :=
  pc_foreign_looseStep (looseStep_of_step h) he

end StepCases

end Workq.Worker
