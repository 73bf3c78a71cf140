import Mathlib.Algebra.BigOperators.Ring.List
import Workq.Worker.Coherence
import Workq.Worker.Tokens

/-!
# A thread's loop goes on and comes to its end

No point of `run` and `find_jobs` waits for anything but the queue, whose timed pop gives up,
so a thread that has not exited can always take a step. Between two tests of `m_active` it
takes only finitely many: what a thread has in hand is weighed so that every step makes it
lighter, a message that is pushed makes it heavier by a constant, and the test with `m_active`
set makes it heavier by one. Once the flag is cleared the test is the last step, and the
joins of `Worker::shutdown` return.
-/

namespace Workq.Worker

open Workq.Core Workq.Jobs

variable {ι : Type*}

/-- The steps that a thread has at most before it is at the head of its loop and through the
test there, when no message is popped any more. -/
def Pc.weight : Pc → Nat
  | .exited => 0
  | .head => 1
  | .timedPop | .release _ => 2
  | .tryPop w => 5 * w + 6
  | .findJobs w => 5 * w + 5
  | .select c => 5 * c.workload + 4
  | .rows _ rest jobs => 5 * rest.length + 2 * jobs.length + 3
  | .mark _ _ rest jobs => 5 * rest.length + 2 * jobs.length + 4
  | .discard _ _ _ rest jobs => 5 * rest.length + 2 * jobs.length + 5
  | .finish _ _ _ jobs => 2 * jobs.length + 3
  | .batch _ jobs => 2 * jobs.length + 2

/-- The weight of a thread with its queue: a message may bring one more row. -/
def WorkQueue.weight (wq : WorkQueue) : Nat := 10 * wq.queue.length + wq.pc.weight

/-- The thread is in its timed pop and there is nothing to pop. -/
structure WorkQueue.Waiting (wq : WorkQueue) : Prop where
  pc : wq.pc = .timedPop
  queue : wq.queue = []

/-- The event is a step of the queue's thread. -/
def Event.acts [DecidableEq ι] (q : ι) (e : Event ι) : Nat := if e.actor = some q then 1 else 0

/-- The event pushes a message to the queue. -/
def Event.pushes [DecidableEq ι] (q : ι) : Event ι → Nat
  | .sendWork r | .sendStop r => if r = q then 1 else 0
  | _ => 0

/-- The event is the loop test of the queue's thread. -/
def Event.checks [DecidableEq ι] (q : ι) : Event ι → Nat
  | .thread r .check => if r = q then 1 else 0
  | _ => 0

section Threads

variable {cfg : Config} {q : ι} {sh sh' : Shared ι} {wq wq' : WorkQueue} {a : Action}

theorem weight_rowPc (cfg : Config) (c : Call) (row : Fetched) (rest : List Fetched)
    (jobs : List JobId) (made : Bool) :
    (rowPc cfg c row rest jobs made).weight < (Pc.rows c (row :: rest) jobs).weight := by
  unfold rowPc
  split
  · split
    · simp only [Pc.weight, List.length_append, List.length_cons, List.length_nil]
      omega
    · split
      · simp only [Pc.weight, List.length_cons]
        omega
      · simp only [Pc.weight, List.length_cons]
        omega
  · split
    · simp only [Pc.weight, List.length_cons]
      omega
    · simp only [Pc.weight, List.length_cons]
      omega

/-- A `SELECT` with a limit brings at most as many rows as the claim was for. -/
theorem fetch_length_le (T : JobsTable) (lock : List Char) (w : Nat) :
    (fetch T lock w).length ≤ w := by
  have hlength : ((fetch T lock w).map Fetched.id).length ≤ w := by
    rw [fetch_ids, Table.length_keysOf_some]
    exact min_le_left _ _
  rwa [List.length_map] at hlength

/-- A popped message is lighter in hand than in the queue. -/
theorem WorkQueue.weight_receive {m : Message} {ms : List Message} {w : Nat}
    (hq : wq.queue = m :: ms) (hpc : wq.pc.weight = 5 * w + 6 ∨ (w = 0 ∧ wq.pc.weight = 2)) :
    (wq.receive w ms m).weight < wq.weight := by
  have hqueue : wq.queue.length = ms.length + 1 := by rw [hq, List.length_cons]
  have hhead : Pc.head.weight = 1 := rfl
  have hnext : (Pc.tryPop (w + 1)).weight = 5 * (w + 1) + 6 := rfl
  cases m with
  | stop =>
    simp only [WorkQueue.weight, WorkQueue.receive, hhead, hqueue]
    omega
  | work =>
    simp only [WorkQueue.weight, WorkQueue.receive, hnext, hqueue]
    omega

/-- Every step makes the thread lighter, but for a loop test with `m_active` set. -/
theorem ThreadStep.weight_lt (h : ThreadStep cfg q sh wq a sh' wq') :
    wq'.weight < wq.weight ∨ (a = .check ∧ wq.active = true ∧ wq'.weight = wq.weight + 1) := by
  cases h with
  | check hpc =>
    cases hactive : wq.active with
    | false => exact Or.inl (by simp [WorkQueue.weight, Pc.weight, hpc])
    | true => exact Or.inr ⟨rfl, rfl, by simp [WorkQueue.weight, Pc.weight, hpc]⟩
  | timeout hpc hq => exact Or.inl (by simp [WorkQueue.weight, Pc.weight, hpc])
  | popFirst m ms hpc hq =>
    exact Or.inl (wq.weight_receive hq (Or.inr ⟨rfl, by rw [hpc]; rfl⟩))
  | popNext w m ms hpc hq => exact Or.inl (wq.weight_receive hq (Or.inl (by rw [hpc]; rfl)))
  | popNone w hpc hq =>
    left
    simp only [WorkQueue.weight, hpc]
    split <;> simp only [Pc.weight] <;> omega
  | claim w stamp reply hpc hfresh =>
    left
    simp only [WorkQueue.weight, hpc]
    split <;> simp only [Pc.weight] <;> omega
  | fetchOk c hpc =>
    left
    have hlength := fetch_length_le sh.table c.lock c.workload
    simp only [WorkQueue.weight, hpc, Pc.weight, List.length_nil]
    omega
  | create c row rest jobs made hpc =>
    left
    have hlt := weight_rowPc cfg c row rest jobs made
    simp only [WorkQueue.weight, hpc]
    omega
  | discard c id known rest jobs reply hpc =>
    left
    simp only [WorkQueue.weight, hpc]
    split <;> simp only [Pc.weight] <;> omega
  | fetchNoResult c hpc | fetchFailed c hpc | release c reply hpc | returnJobs c jobs hpc
  | mark c id rest jobs reply hpc | execute w id jobs loadData execute hpc
  | finish w id ret jobs reply hpc | batchEnd w hpc =>
    left
    simp only [WorkQueue.weight, hpc, Pc.weight, List.length_cons, List.length_nil]
    omega

/-- A thread that has not exited can take a step, with whatever statement or creator it comes
to successful; and only the wait at an empty queue leaves it nothing but to give up. -/
theorem threadStep_enabled (cfg : Config) (q : ι) {stamp : Stamp} (hstamp : lockid stamp ∉ sh.locks)
    (hpc : wq.pc ≠ .exited) : ∃ a r, threadStep cfg q sh wq a = some r ∧ a.Succeeds ∧
      (a = .timeout → wq.Waiting) := by
  have hplain : ∀ a r, threadStep cfg q sh wq a = some r → a.Succeeds → a ≠ .timeout →
      ∃ a r, threadStep cfg q sh wq a = some r ∧ a.Succeeds ∧
        (a = .timeout → wq.Waiting) :=
    fun a r hr hok hne => ⟨a, r, hr, hok, fun h => absurd h hne⟩
  cases hp : wq.pc with
  | head => exact hplain .check _ (by simp only [threadStep, hp]; rfl) trivial Action.noConfusion
  | timedPop =>
    cases hq : wq.queue with
    | nil =>
      exact ⟨.timeout, _, by simp only [threadStep, hp, hq, if_true]; rfl, trivial,
        fun _ => ⟨hp, hq⟩⟩
    | cons m ms =>
      exact hplain .pop _ (by simp only [threadStep, hp, hq]; rfl) trivial Action.noConfusion
  | tryPop w =>
    cases hq : wq.queue with
    | nil =>
      exact hplain .pop _ (by simp only [threadStep, hp, hq]; rfl) trivial Action.noConfusion
    | cons m ms =>
      exact hplain .pop _ (by simp only [threadStep, hp, hq]; rfl) trivial Action.noConfusion
  | findJobs w =>
    exact hplain (.claim stamp .ok) _ (by simp only [threadStep, hp, if_neg hstamp]; rfl)
      rfl Action.noConfusion
  | select c =>
    exact hplain (.fetch .ok) _ (by simp only [threadStep, hp]; rfl) rfl Action.noConfusion
  | rows c rest jobs =>
    cases rest with
    | nil => exact hplain .done _ (by simp only [threadStep, hp]; rfl) trivial Action.noConfusion
    | cons row rest =>
      exact hplain (.create true) _ (by simp only [threadStep, hp]; rfl) rfl Action.noConfusion
  | batch w jobs =>
    cases jobs with
    | nil => exact hplain .done _ (by simp only [threadStep, hp]; rfl) trivial Action.noConfusion
    | cons id jobs =>
      exact hplain (.execute true 1) _ (by simp only [threadStep, hp]; rfl) trivial
        Action.noConfusion
  | release c | discard c id known rest jobs | mark c id rest jobs | finish w id ret jobs =>
    exact hplain (.update .ok) _ (by simp only [threadStep, hp]; rfl) rfl Action.noConfusion
  | exited => exact absurd hp hpc

end Threads

section Runs

variable [DecidableEq ι] {cfg : ι → Config} {q : ι} {s t : System ι}

/-- The weights of all threads account for every step of the system. -/
theorem weight_step {e : Event ι} (h : looseStep cfg s e = some t) :
    e.acts q + (t.queues q).weight ≤ (s.queues q).weight + (10 * e.pushes q + 2 * e.checks q) ∧
      ((s.queues q).active = false → (t.queues q).active = false ∧
        e.acts q + (t.queues q).weight ≤ (s.queues q).weight + 10 * e.pushes q) := by
  cases e with
  | insert id name data =>
    simp only [looseStep, Worker.step] at h
    split at h
    · obtain rfl := Option.some.inj h
      refine ⟨?_, fun hactive => ⟨hactive, ?_⟩⟩ <;> simp [Event.acts, Event.actor]
    · contradiction
  | sendWork r | sendStop r =>
    obtain rfl := Option.some.inj h
    by_cases hr : q = r
    · subst hr
      simp [Event.acts, Event.actor, Event.pushes, Event.checks, System.setQueue,
        WorkQueue.weight, WorkQueue.sendWork, WorkQueue.sendStop, Nat.mul_add, Nat.add_right_comm]
    · simp [Event.acts, Event.actor, System.setQueue, Function.update_of_ne hr]
  | clearActive r =>
    obtain rfl := Option.some.inj h
    by_cases hr : q = r
    · subst hr
      simp [Event.acts, Event.actor, System.setQueue, WorkQueue.weight]
    · simp [Event.acts, Event.actor, System.setQueue, Function.update_of_ne hr]
  | thread r a =>
    obtain ⟨sh, wq, hstep, _, hqueues⟩ := looseStep_thread h
    rw [hqueues]
    by_cases hr : q = r
    · subst hr
      have hactive := hstep.active_eq
      rw [Function.update_self]
      rcases hstep.weight_lt with hlt | ⟨rfl, hon, heq⟩
      · simp only [Event.acts, Event.actor, if_true]
        exact ⟨by omega, fun hoff => ⟨hactive.trans hoff, by omega⟩⟩
      · simp only [Event.acts, Event.actor, Event.checks, if_true]
        refine ⟨by omega, fun hoff => ?_⟩
        rw [hon] at hoff
        contradiction
    · rw [Function.update_of_ne hr]
      have hacts : (Event.thread r a).acts q = 0 := by
        rw [Event.acts, if_neg]
        exact fun h => hr (Option.some.inj h).symm
      rw [hacts]
      exact ⟨by omega, fun hoff => ⟨hoff, by omega⟩⟩

/-- A thread neither hangs nor goes on for ever. Along every run of the queues, whatever the
statements and jobs return, the steps of a thread are at most its weight at the start, ten for
each message pushed to it and two for each test of its loop; once `m_active` is cleared the
tests do not count any more, so that the thread ends; and until it has exited it can always
take a step. -/
theorem thread_ends {es : List (Event ι)} (hrun : exec (looseStep cfg) s es = some t) :
    (es.map (Event.acts q)).sum + (t.queues q).weight ≤ (s.queues q).weight +
      (10 * (es.map (Event.pushes q)).sum + 2 * (es.map (Event.checks q)).sum) ∧
    ((s.queues q).active = false → (es.map (Event.acts q)).sum + (t.queues q).weight ≤
      (s.queues q).weight + 10 * (es.map (Event.pushes q)).sum) ∧
    (t.pc q ≠ .exited → ∃ a u, looseStep cfg t (.thread q a) = some u) := by
  refine ⟨?_, ?_, ?_⟩
  · have hcosts := exec_costs_le (fun _ => True) (fun s : System ι => (s.queues q).weight)
      (Event.acts q) (fun e => 10 * e.pushes q + 2 * e.checks q)
      (fun _ _ _ _ hstep => ⟨trivial, (weight_step hstep).1⟩) trivial hrun
    rwa [List.sum_map_add, List.sum_map_mul_left, List.sum_map_mul_left] at hcosts
  · intro hactive
    have hcosts := exec_costs_le (fun s : System ι => (s.queues q).active = false)
      (fun s => (s.queues q).weight) (Event.acts q) (fun e => 10 * e.pushes q)
      (fun _ _ _ hoff hstep => (weight_step hstep).2 hoff) hactive hrun
    rwa [List.sum_map_mul_left] at hcosts
  · intro hpc
    have hstamp : lockid ⟨0, 0, 0, 0⟩ ∉ ({ t.shared with claims := [] } : Shared ι).locks :=
      List.not_mem_nil
    obtain ⟨a, r, hr, _⟩ := threadStep_enabled (cfg q) q hstamp hpc
    have hloose : (looseStep cfg t (.thread q a)).isSome := by
      rw [looseStep, looseThreadStep, hr]
      rfl
    exact ⟨a, Option.isSome_iff_exists.mp hloose⟩

end Runs

/-- A thread in its timed pop when the flag falls: it takes at most the steps of a token and
of the stop message, and here three before it has exited. -/
theorem thread_ends_after_stop :
    ∃ s t, exec (looseStep fun _ : Unit => Config.runOnly) System.initial
        [.thread () .check, .sendWork (), .clearActive ()] = some s ∧
      exec (looseStep fun _ : Unit => Config.runOnly) s
        [.sendStop (), .thread () .pop, .thread () .pop, .thread () .check] = some t ∧
      t.pc () = .exited ∧ (s.queues ()).active = false ∧
      3 + (t.queues ()).weight ≤ (s.queues ()).weight + 10 := by
  have hstart : ((exec (looseStep fun _ : Unit => Config.runOnly) System.initial
      [.thread () .check, .sendWork (), .clearActive ()]).map
      fun s => (s.queues ()).active) = some false := by decide
  obtain ⟨s, hs, hactive⟩ := Option.map_eq_some_iff.mp hstart
  have hend : ((exec (looseStep fun _ : Unit => Config.runOnly) System.initial
      ([.thread () .check, .sendWork (), .clearActive ()] ++
        [.sendStop (), .thread () .pop, .thread () .pop, .thread () .check])).map
      fun t => t.pc ()) = some .exited := by decide
  obtain ⟨t, ht, hexit⟩ := Option.map_eq_some_iff.mp hend
  obtain ⟨s', hs', ht⟩ := exec_append.mp ht
  obtain rfl := Option.some.inj (hs.symm.trans hs')
  exact ⟨s, t, hs, ht, hexit, hactive, (thread_ends ht).2.1 hactive⟩

end Workq.Worker
