import Workq.Server.Daemon

/-!
# A worker works with its first thread only

`Worker::schedule` looks for a thread with more than ten tokens pending and falls back to the
first one. A thread that starts with no token and a count of at most ten is therefore never
selected: no event of the daemon, in any order, sends it a token, and it never claims a row or
executes a job. The setting `threads` buys idle threads.
-/

namespace Workq.Server

open Workq.Core Workq.Jobs Workq.Worker

variable {K : Type*}

/-- A thread without a token and with a count that `schedule` does not look at. -/
structure Unused (wq : WorkQueue) : Prop where
  light : wq.pending ≤ 10
  tokenless : Message.work ∉ wq.queue
  idle : wq.pc = .head ∨ wq.pc = .timedPop ∨ wq.pc = .exited

section Pools

variable {p : Pool}

/-- When no other thread has more than ten tokens pending, the first one is selected,
whatever its own count is. -/
theorem selected_eq_zero (h : ∀ j, j ≠ 0 → ∀ wq ∈ p.threads[j]?, wq.pending ≤ 10) :
    p.selected = 0 := by
  by_cases hle : ∀ wq ∈ p.threads, wq.pending ≤ 10
  · refine selectThread_of_le ?_ 0 0
    rw [List.forall_mem_map]
    exact hle
  · simp only [not_forall, not_le, exists_prop] at hle
    obtain ⟨largest, hlargest, hmax⟩ := p.selected_of_lt hle
    obtain ⟨wq, hwq, hlt⟩ := hle
    by_contra hne
    exact absurd (h p.selected hne largest hlargest) (not_le.mpr (hlt.trans_le (hmax wq hwq)))

/-- Scheduling leaves all threads but the first as they are. -/
theorem getElem?_schedules (h : ∀ j, j ≠ 0 → ∀ wq ∈ p.threads[j]?, wq.pending ≤ 10) (n : Nat)
    {j : Nat} (hj : j ≠ 0) : (Pool.schedule^[n] p).threads[j]? = p.threads[j]? := by
  induction n generalizing p with
  | zero => rfl
  | succ n ih =>
    have hone : ∀ k, k ≠ 0 → p.schedule.threads[k]? = p.threads[k]? := by
      intro k hk
      rw [p.getElem?_schedule, if_neg]
      rw [selected_eq_zero h]
      exact hk
    rw [Function.iterate_succ_apply, ih, hone j hj]
    intro k hk
    rw [hone k hk]
    exact h k hk

/-- A stop message makes no work. -/
theorem Unused.stop {wq : WorkQueue} (h : Unused wq) :
    Unused { wq with active := false }.sendStop where
  light := h.light
  tokenless := by
    have hqueue := h.tokenless
    simpa [WorkQueue.sendStop] using hqueue
  idle := h.idle

/-- `on_io_work` pushes no token to any thread but the first. -/
theorem onIoWork_narrow (h : ∀ j, j ≠ 0 → ∀ wq ∈ p.threads[j]?, Unused wq) (bytes : Int) {j : Nat}
    (hj : j ≠ 0) {wq : WorkQueue} (hwq : p.threads[j]? = some wq) :
    ∃ wq', (p.onIoWork bytes).1.threads[j]? = some wq' ∧ Unused wq' ∧ wq'.sent = wq.sent := by
  have hlight : ∀ j, j ≠ 0 → ∀ wq ∈ p.threads[j]?, wq.pending ≤ 10 :=
    fun j hj wq hwq => (h j hj wq hwq).light
  unfold Pool.onIoWork
  split
  · have hsame : p.schedule.threads[j]? = some wq :=
      (getElem?_schedules hlight 1 hj).trans hwq
    refine ⟨{ wq with active := false }.sendStop, ?_, (h j hj wq hwq).stop, rfl⟩
    rw [Pool.shutdown, List.getElem?_map, hsame, Option.map_some]
  · refine ⟨wq, ?_, h j hj wq hwq, rfl⟩
    rw [← Function.iterate_succ_apply]
    exact (getElem?_schedules hlight _ hj).trans hwq

end Pools

section Threads

variable {ι : Type*} {cfg : Config} {q : ι} {sh sh' : Shared ι} {wq wq' : WorkQueue} {a : Action}

/-- An unused thread waits and exits, and claims nothing. -/
theorem Unused.threadStep (U : Unused wq) (h : ThreadStep cfg q sh wq a sh' wq') :
    Unused wq' ∧ wq'.sent = wq.sent ∧ sh'.claims = sh.claims := by
  have hno : ∀ {p : Pc}, wq.pc = p → p ≠ .head → p ≠ .timedPop → p ≠ .exited → False := by
    rintro p hpc hhead hpop hexit
    rcases U.idle with h | h | h
    · exact hhead (hpc.symm.trans h)
    · exact hpop (hpc.symm.trans h)
    · exact hexit (hpc.symm.trans h)
  cases h with
  | check hpc =>
    refine ⟨⟨U.light, U.tokenless, ?_⟩, rfl, rfl⟩
    dsimp only
    split
    · exact Or.inr (Or.inl rfl)
    · exact Or.inr (Or.inr rfl)
  | timeout hpc hq => exact ⟨⟨U.light, U.tokenless, Or.inl rfl⟩, rfl, rfl⟩
  | popFirst m ms hpc hq =>
    have htokenless := U.tokenless
    rw [hq, List.mem_cons, not_or] at htokenless
    cases m with
    | work => exact absurd rfl htokenless.1
    | stop => exact ⟨⟨U.light, htokenless.2, Or.inl rfl⟩, rfl, rfl⟩
  | popNext w m ms hpc | popNone w hpc | claim w stamp reply hpc | fetchOk c hpc
  | fetchNoResult c hpc | fetchFailed c hpc | release c reply hpc
  | create c row rest jobs made hpc | returnJobs c jobs hpc
  | discard c id known rest jobs reply hpc | mark c id rest jobs reply hpc
  | execute w id jobs loadData execute hpc | finish w id ret jobs reply hpc | batchEnd w hpc =>
    exact (hno hpc Pc.noConfusion Pc.noConfusion Pc.noConfusion).elim

/-- A thread claims for its own queue. -/
theorem mem_claims_threadStep (h : ThreadStep cfg q sh wq a sh' wq') :
    ∀ c ∈ sh'.claims, c ∈ sh.claims ∨ c.queue = q := by
  cases h with
  | claim w stamp reply hpc hfresh =>
    intro c hc
    rcases List.mem_cons.mp hc with rfl | hc
    · exact Or.inr rfl
    · exact Or.inl hc
  | _ => exact fun c hc => Or.inl hc

end Threads

section Handlers

variable {m : Nat} {hm : 0 < m} {d d' : Daemon K}

/-- What a run leaves of the threads beside the first ones: they are unused, they were sent
no token since the start, and no claim since the start is theirs. -/
structure Narrow (m : Nat) (start d : Daemon K) : Prop where
  unused : ∀ i j, j ≠ 0 → j < m → Unused (d.system.queues (i, j))
  sent : ∀ i j, j ≠ 0 → j < m →
    (d.system.queues (i, j)).sent = (start.system.queues (i, j)).sent
  claims : ∀ c ∈ d.system.shared.claims, c.queue.2 ≠ 0 → c ∈ start.system.shared.claims

/-- The handler of a worker's pipe touches first threads only. -/
theorem Narrow.onIoWork {start : Daemon K} (N : Narrow m start d) (i : Nat) (bytes : Int)
    (hsystem : d'.system = setPool d.system i ((pool hm d.system i).onIoWork bytes).1) :
    Narrow m start d' := by
  have hpool : ∀ j, j < m → (pool hm d.system i).threads[j]? = some (d.system.queues (i, j)) := by
    intro j hj
    rw [pool, List.getElem?_map, List.getElem?_range hj, Option.map_some]
  have hnarrow : ∀ j, j ≠ 0 → ∀ wq ∈ (pool hm d.system i).threads[j]?, Unused wq := by
    intro j hj wq hwq
    have hlt : j < m := by
      obtain ⟨hlt, _⟩ := List.getElem?_eq_some_iff.mp hwq
      rwa [pool, List.length_map, List.length_range] at hlt
    rw [hpool j hlt, Option.mem_some_iff] at hwq
    exact hwq ▸ N.unused i j hj hlt
  have hqueue : ∀ k j, j ≠ 0 → j < m → Unused (d'.system.queues (k, j)) ∧
      (d'.system.queues (k, j)).sent = (d.system.queues (k, j)).sent := by
    intro k j hj hlt
    rw [hsystem]
    by_cases hk : k = i
    · subst hk
      obtain ⟨wq', hwq', U, hsent⟩ := onIoWork_narrow hnarrow bytes hj (hpool j hlt)
      simp only [setPool, if_true, hwq', Option.getD_some]
      exact ⟨U, hsent⟩
    · rw [setPool_other d.system _ hk]
      exact ⟨N.unused k j hj hlt, rfl⟩
  refine ⟨fun k j hj hlt => (hqueue k j hj hlt).1, ?_, ?_⟩
  · intro k j hj hlt
    rw [(hqueue k j hj hlt).2, N.sent k j hj hlt]
  · rw [hsystem]
    exact N.claims

end Handlers

section Events

variable [Field K] [LinearOrder K] {cfg : IdleSettings K} {log10 : K → K}
  {jobs : ThreadId → Config} {m : Nat} {hm : 0 < m} {d d' : Daemon K}

/-- No event wakes another thread than the first. -/
theorem Narrow.step {start : Daemon K} (N : Narrow m start d) {e : DaemonEvent}
    (h : d.step cfg log10 jobs hm e = some d') : Narrow m start d' := by
  cases e with
  | insert id name data =>
    obtain ⟨s, hs, rfl⟩ := Option.map_eq_some_iff.mp h
    simp only [looseStep, Worker.step] at hs
    split at hs
    · obtain rfl := Option.some.inj hs
      exact ⟨N.unused, N.sent, N.claims⟩
    · contradiction
  | server e =>
    obtain rfl := Option.some.inj h
    exact ⟨N.unused, N.sent, N.claims⟩
  | read i n =>
    simp only [Daemon.step] at h
    split at h
    · obtain rfl := Option.some.inj h
      exact N.onIoWork i n rfl
    · contradiction
  | final i bytes =>
    simp only [Daemon.step] at h
    split at h
    · obtain rfl := Option.some.inj h
      exact N.onIoWork i bytes rfl
    · contradiction
  | thread i j a =>
    simp only [Daemon.step] at h
    split at h
    · rename_i hguard
      obtain ⟨s, hs, rfl⟩ := Option.map_eq_some_iff.mp h
      obtain ⟨sh, wq, hstep, hclaims, hqueues⟩ := looseStep_thread hs
      have hqueue : ∀ k l, l ≠ 0 → l < m → Unused (s.queues (k, l)) ∧
          (s.queues (k, l)).sent = (d.system.queues (k, l)).sent := by
        intro k l hl hlt
        rw [hqueues]
        by_cases hkl : (k, l) = (i, j)
        · rw [hkl, Function.update_self]
          obtain ⟨rfl, rfl⟩ := Prod.mk.inj hkl
          obtain ⟨U, hsent, _⟩ := (N.unused k l hl hlt).threadStep hstep
          exact ⟨U, hsent⟩
        · rw [Function.update_of_ne hkl]
          exact ⟨N.unused k l hl hlt, rfl⟩
      refine ⟨fun k l hl hlt => (hqueue k l hl hlt).1, ?_, ?_⟩
      · intro k l hl hlt
        rw [(hqueue k l hl hlt).2, N.sent k l hl hlt]
      · intro c hc hne
        rw [hclaims] at hc
        rcases List.mem_append.mp hc with hc | hc
        · -- a new claim is the acting thread's, and unused threads make none
          rcases mem_claims_threadStep hstep c hc with hnil | hq
          · exact absurd hnil List.not_mem_nil
          · rw [hq] at hne
            obtain ⟨_, _, hnone⟩ := (N.unused i j hne hguard.2).threadStep hstep
            rw [hnone] at hc
            exact absurd hc List.not_mem_nil
        · exact N.claims c hc hne
    · contradiction

/-- A worker uses its first thread only. When all threads but the first of each worker start
without a token and with a count of at most ten, then in every run of the daemon, whatever
the backlog and the first threads' counts, no other thread is ever sent a token, makes a claim
or leaves its wait. -/
theorem only_first_threads_work {es : List DaemonEvent}
    (hstart : ∀ i j, j ≠ 0 → j < m → Unused (d.system.queues (i, j)))
    (hrun : exec (Daemon.step cfg log10 jobs hm) d es = some d') :
    (∀ i j, j ≠ 0 → j < m →
      (d'.system.queues (i, j)).sent = (d.system.queues (i, j)).sent ∧
      (d'.system.pc (i, j) = .head ∨ d'.system.pc (i, j) = .timedPop ∨
        d'.system.pc (i, j) = .exited)) ∧
    ∀ c ∈ d'.system.shared.claims, c.queue.2 ≠ 0 → c ∈ d.system.shared.claims := by
  have N : Narrow m d d' := exec_invariant (P := Narrow m d)
    (fun _ _ _ N hstep => N.step hstep) ⟨hstart, fun _ _ _ _ => rfl, fun _ hc _ => hc⟩ hrun
  refine ⟨?_, N.claims⟩
  intro i j hj hlt
  exact ⟨N.sent i j hj hlt, (N.unused i j hj hlt).idle⟩

end Events

/-- Two threads, and six wake-ups for twelve tokens: the second thread got none of them. -/
theorem only_first_threads_work_twelve_tokens :
    ∃ d', exec (Daemon.step {} powerLog (fun _ => Config.runOnly) Nat.two_pos) Daemon.idle
        ((List.replicate 6 (.server (.connect true .sent))) ++ [.read 0 12]) = some d' ∧
      (d'.system.queues (0, 0)).sent = 12 ∧ (d'.system.queues (0, 1)).sent = 0 := by
  have hrun : (exec (Daemon.step {} powerLog (fun _ => Config.runOnly) Nat.two_pos) Daemon.idle
      ((List.replicate 6 (.server (.connect true .sent))) ++ [.read 0 12])).map
      (fun d => (d.system.queues (0, 0)).sent) = some 12 := by rfl
  obtain ⟨d', hd', hsent⟩ := Option.map_eq_some_iff.mp hrun
  have hunused : ∀ i j, j ≠ 0 → j < 2 → Unused (Daemon.idle.system.queues (i, j)) :=
    fun _ _ _ _ => ⟨show (0 : Int) ≤ 10 by decide, List.not_mem_nil, Or.inl rfl⟩
  obtain ⟨hothers, _⟩ := only_first_threads_work hunused hd'
  exact ⟨d', hd', hsent, (hothers 0 1 Nat.one_ne_zero Nat.one_lt_two).1⟩

end Workq.Server
