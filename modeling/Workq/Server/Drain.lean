import Workq.Server.Daemon
import Workq.Worker.Progress

/-!
# The daemon comes to rest with its work done

When nothing new comes in, the bytes in the pipes and the tokens in the queues are used up:
every step of a thread but the one that gives up its wait, and every read, takes something off
what is due. So the daemon cannot work for ever, and as long as it has not come to rest one
of its processes can go on. At rest nothing is on the way any more, and what was woken for
has been claimed.
-/

namespace Workq.Worker

open Workq.Core Workq.Jobs

variable {ι : Type*}

/-- What is due at a program point, in steps. A thread in its wait owes one step less than one
that has still to get there. -/
def Pc.due : Pc → Nat
  | .exited => 0
  | .timedPop => 1
  | p => p.weight + 1

/-- The steps due of a thread with its queue. -/
def WorkQueue.due (wq : WorkQueue) : Nat := 12 * wq.queue.length + wq.pc.due

theorem Pc.due_le (p : Pc) : p.due ≤ p.weight + 1 := by
  cases p <;> simp [Pc.due, Pc.weight]

theorem Pc.due_eq {p : Pc} (hexit : p ≠ .exited) (hpop : p ≠ .timedPop) :
    p.due = p.weight + 1 := by
  cases p with
  | exited => contradiction
  | timedPop => contradiction
  | _ => rfl

theorem WorkQueue.due_sendWork (wq : WorkQueue) : wq.sendWork.due = wq.due + 12 := by
  simp only [WorkQueue.due, WorkQueue.sendWork, List.length_append, List.length_singleton]
  omega

section Threads

variable {cfg : Config} {q : ι} {sh sh' : Shared ι} {wq wq' : WorkQueue} {a : Action}

theorem ThreadStep.length_queue_le (h : ThreadStep cfg q sh wq a sh' wq') :
    wq'.queue.length ≤ wq.queue.length := by
  cases h with
  | popFirst m ms hpc hq | popNext w m ms hpc hq =>
    rw [hq]
    cases m <;> exact Nat.le_succ _
  | _ => exact le_rfl

/-- Every step but giving up the wait leaves less due. -/
theorem ThreadStep.due_lt (h : ThreadStep cfg q sh wq a sh' wq') (ha : a ≠ .timeout) :
    wq'.due < wq.due := by
  -- past the wait a thread that gets lighter has less due
  have hpast : ∀ {p : Pc}, wq.pc = p → p ≠ .exited → p ≠ .timedPop → a ≠ .check →
      wq'.due < wq.due := by
    rintro p rfl hexit hpop hcheck
    have hlt := h.weight_lt.resolve_right fun hloop => hcheck hloop.1
    have hlength := h.length_queue_le
    have hafter := wq'.pc.due_le
    have hbefore := Pc.due_eq hexit hpop
    simp only [WorkQueue.weight] at hlt
    simp only [WorkQueue.due]
    omega
  cases h with
  | check hpc =>
    simp only [WorkQueue.due, hpc]
    split
    · exact Nat.add_lt_add_left (by decide) _
    · exact Nat.add_lt_add_left (by decide) _
  | timeout => contradiction
  | popFirst m ms hpc hq =>
    have hqueue : wq.queue.length = ms.length + 1 := by rw [hq, List.length_cons]
    have hdue : Pc.timedPop.due = 1 := rfl
    cases m with
    | stop =>
      have hhead : Pc.head.due = 2 := rfl
      simp only [WorkQueue.due, WorkQueue.receive, hpc, hqueue, hdue, hhead]
      omega
    | work =>
      have htry : (Pc.tryPop (0 + 1)).due = 12 := rfl
      simp only [WorkQueue.due, WorkQueue.receive, hpc, hqueue, hdue, htry]
      omega
  | popNext w m ms hpc | popNone w hpc | claim w stamp reply hpc | fetchOk c hpc
  | fetchNoResult c hpc | fetchFailed c hpc | release c reply hpc
  | create c row rest jobs made hpc | returnJobs c jobs hpc
  | discard c id known rest jobs reply hpc | mark c id rest jobs reply hpc
  | execute w id jobs loadData execute hpc | finish w id ret jobs reply hpc | batchEnd w hpc =>
    exact hpast hpc Pc.noConfusion Pc.noConfusion Action.noConfusion

/-- Giving up the wait makes one step due, the loop test that ends the idle round. -/
theorem ThreadStep.due_timeout (h : ThreadStep cfg q sh wq .timeout sh' wq') :
    wq'.due = wq.due + 1 := by
  cases h with
  | timeout hpc hq =>
    simp only [WorkQueue.due, hpc]
    rfl

end Threads

end Workq.Worker

namespace Workq.Server

open Workq.Core Workq.Jobs Workq.Worker

variable {K : Type*} [Field K] [LinearOrder K]

/-- The event is work on what is there: a read, or a step of a thread other than giving up
its wait, with no claim without effect. -/
def DaemonEvent.Works : DaemonEvent → Prop
  | .read _ _ => True
  | .thread _ _ a => a ≠ .timeout ∧ a.Lands
  | _ => False

/-- The event brings nothing new: it is work, or a thread gives up its wait. -/
def DaemonEvent.GoesOn : DaemonEvent → Prop
  | .read _ _ => True
  | .thread _ _ a => a.Lands
  | _ => False

/-- A thread gives up its wait. -/
def DaemonEvent.idles : DaemonEvent → Bool
  | .thread _ _ .timeout => true
  | _ => false

/-- What is due of all threads; a byte in a pipe is a token and its read. -/
def Daemon.due (d : Daemon K) (m : Nat) : Nat :=
  ∑ q ∈ d.threads m, (d.system.queues q).due +
    13 * ∑ i ∈ Finset.range d.server.dispatcher.numPids, (d.pipes i).length

/-- No worker has gone down, and no thread has left its loop or will. -/
structure Daemon.Up (d : Daemon K) (m : Nat) : Prop where
  running : ∀ i < d.server.dispatcher.numPids, d.running i = true
  threads : ∀ q ∈ d.threads m,
    (d.system.queues q).active = true ∧ (d.system.queues q).pc ≠ .exited

/-- Nothing is left to read or to pop, and all threads wait. -/
structure Daemon.AtRest (d : Daemon K) (m : Nat) : Prop where
  pipes : ∀ i < d.server.dispatcher.numPids, d.pipes i = []
  threads : ∀ q ∈ d.threads m, (d.system.queues q).Waiting

theorem DaemonEvent.GoesOn.lands {e : DaemonEvent} (h : e.GoesOn) : e.Lands := by
  cases e with
  | read i n => trivial
  | thread i j a => exact h
  | insert id name data => exact h.elim
  | server e => exact h.elim
  | final i bytes => exact h.elim

/-- Work is what goes on without being idle. -/
theorem DaemonEvent.works_iff {e : DaemonEvent} : e.Works ↔ e.GoesOn ∧ e.idles = false := by
  cases e with
  | thread i j a => cases a <;> simp [Works, GoesOn, idles]
  | read i n => simp [Works, GoesOn, idles]
  | insert id name data => simp [Works, GoesOn]
  | server e => simp [Works, GoesOn]
  | final i bytes => simp [Works, GoesOn]

/-- An active thread does not exit. -/
theorem alive_threadStep {cfg : Config} {q : ThreadId} {sh sh' : Shared ThreadId}
    {wq wq' : WorkQueue} {a : Action} (h : ThreadStep cfg q sh wq a sh' wq')
    (hwq : wq.active = true ∧ wq.pc ≠ .exited) : wq'.active = true ∧ wq'.pc ≠ .exited := by
  refine ⟨h.active_eq.trans hwq.1, ?_⟩
  cases h with
  | check hpc =>
    rw [if_pos hwq.1]
    exact Pc.noConfusion
  | popFirst m ms hpc hq | popNext w m ms hpc hq =>
    cases m <;> exact Pc.noConfusion
  | create c row rest jobs made hpc =>
    unfold rowPc
    split
    · split
      · exact Pc.noConfusion
      · split <;> exact Pc.noConfusion
    · split <;> exact Pc.noConfusion
  | popNone w hpc hq | claim w stamp reply hpc hfresh | discard c id known rest jobs reply hpc =>
    dsimp only
    split <;> exact Pc.noConfusion
  | _ => exact Pc.noConfusion

section Events

variable {cfg : IdleSettings K} {log10 : K → K} {jobs : ThreadId → Config} {m : Nat} {hm : 0 < m}
  {d d' : Daemon K}

theorem Daemon.Up.step (U : d.Up m) {e : DaemonEvent} (he : e.Lands)
    (h : d.step cfg log10 jobs hm e = some d') : d'.Up m := by
  refine ⟨?_, Daemon.forall_queues_step (fun _ hwq => hwq) alive_threadStep he h U.threads⟩
  cases e with
  | insert id name data =>
    obtain ⟨s, _, rfl⟩ := Option.map_eq_some_iff.mp h
    exact U.running
  | server e =>
    obtain rfl := Option.some.inj h
    intro i hi
    rw [(newWakeups_handle cfg log10 d.server e).1] at hi
    exact U.running i hi
  | read i n =>
    obtain ⟨_, _, _, rfl⟩ := Daemon.step_read h
    exact U.running
  | final i bytes => exact he.elim
  | thread i j a =>
    obtain ⟨_, _, _, _, _, rfl⟩ := Daemon.step_thread h
    exact U.running

theorem Daemon.Up.exec (U : d.Up m) {es : List DaemonEvent} (hes : ∀ e ∈ es, e.Lands)
    (hrun : Core.exec (Daemon.step cfg log10 jobs hm) d es = some d') : d'.Up m :=
  exec_preserves (C := fun _ e => e.Lands) (P := fun d : Daemon K => d.Up m)
    (fun _ _ _ he U hstep => U.step he hstep) (allSteps_of_forall hes d) U hrun

/-- What a thread's step makes of what is due. -/
theorem Daemon.due_thread {i j : Nat} {a : Action}
    (h : d.step cfg log10 jobs hm (.thread i j a) = some d') :
    ∃ sh wq, ThreadStep (jobs (i, j)) (i, j) { d.system.shared with claims := [] }
        (d.system.queues (i, j)) a sh wq ∧
      d'.due m + (d.system.queues (i, j)).due = d.due m + wq.due := by
  obtain ⟨hmem, sh, wq, claims, hstep, rfl⟩ := Daemon.step_thread h
  refine ⟨sh, wq, hstep, ?_⟩
  have hafter := sum_update WorkQueue.due d.system.queues hmem wq
  have hbefore := Finset.add_sum_erase _ (fun q => (d.system.queues q).due) hmem
  simp only [Daemon.due]
  change ∑ q ∈ d.threads m, (Function.update d.system.queues (i, j) wq q).due +
    13 * ∑ i ∈ Finset.range d.server.dispatcher.numPids, (d.pipes i).length + _ = _
  rw [hafter, ← hbefore]
  omega

/-- Work takes something off what is due, and giving up the wait adds the loop test that ends
the idle round. -/
theorem Daemon.due_step {e : DaemonEvent} (he : e.GoesOn)
    (h : d.step cfg log10 jobs hm e = some d') :
    1 + d'.due m ≤ d.due m + 2 * e.idles.toNat := by
  cases e with
  | read i n =>
    obtain ⟨hi, hpos, hle, rfl⟩ := Daemon.step_read h
    have hdues := sum_setPool hm WorkQueue.due d.system hi (length_schedules_pool hm d.system i n)
    have hpipes := sum_length_drop d.pipes hi hle
    rw [poolTotal_schedules WorkQueue.due_sendWork] at hdues
    simp only [Daemon.due, Daemon.threads, Finset.sum_product]
    omega
  | thread i j a =>
    obtain ⟨sh, wq, hstep, hdue⟩ := Daemon.due_thread h
    by_cases ha : a = .timeout
    · subst ha
      have htimeout := hstep.due_timeout
      have hidle : (DaemonEvent.thread i j .timeout).idles.toNat = 1 := rfl
      omega
    · have hlt := hstep.due_lt ha
      omega
  | insert id name data => exact he.elim
  | server e => exact he.elim
  | final i bytes => exact he.elim

/-- Where no work can go on, the daemon is at rest. -/
theorem Daemon.Up.atRest (U : d.Up m)
    (hstuck : ∀ e : DaemonEvent, e.Works → d.step cfg log10 jobs hm e = none) : d.AtRest m := by
  refine ⟨?_, ?_⟩
  · intro i hi
    by_contra hne
    have hpos : 1 ≤ (d.pipes i).length := List.length_pos_iff.mpr hne
    have hread := hstuck (.read i 1) trivial
    simp only [Daemon.step] at hread
    rw [if_pos ⟨hi, U.running i hi, le_rfl, by decide, hpos⟩] at hread
    contradiction
  · rintro ⟨i, j⟩ hq
    obtain ⟨hi, hj⟩ := Finset.mem_product.mp hq
    rw [Finset.mem_range] at hi hj
    have hstamp : lockid ⟨0, 0, 0, 0⟩ ∉
        ({ d.system.shared with claims := [] } : Shared ThreadId).locks := List.not_mem_nil
    obtain ⟨a, r, hr, hok, hwait⟩ := threadStep_enabled (jobs (i, j)) (i, j) hstamp
      (U.threads (i, j) hq).2
    by_cases ha : a = .timeout
    · exact hwait ha
    · have hlands : a.Lands := by
        cases a with
        | claim stamp reply =>
          obtain rfl : reply = .ok := hok
          exact Reply.noConfusion
        | _ => trivial
      have hthread := hstuck (.thread i j a) ⟨ha, hlands⟩
      simp only [Daemon.step, looseStep, looseThreadStep, hr] at hthread
      rw [if_pos ⟨hi, hj⟩] at hthread
      contradiction

/-- The daemon drains. Let no worker go down and every claim take effect, and let the daemon
go on from any state it has reached with nothing new coming in. Then it can come to rest; the
number of its steps is at most what is due and two for each time that a thread gives up its
wait, once for this and once for the loop test after it; it is at rest as soon as no other step
is possible; and at rest, with all wake-ups written, no row is left that could be claimed. -/
theorem daemon_drains {es : List DaemonEvent} (hes : ∀ e ∈ es, e.Lands)
    (hstart : backlog d.system.shared.table ≤ d.unsignalled)
    (hstop : ∀ q ∈ d.threads m, Message.stop ∉ (d.system.queues q).queue) (hup : d.Up m)
    (hrun : exec (Daemon.step cfg log10 jobs hm) d es = some d') :
    (∃ fs u, (∀ f ∈ fs, f.Works) ∧ exec (Daemon.step cfg log10 jobs hm) d' fs = some u ∧
      u.AtRest m) ∧
    ∀ fs u, (∀ f ∈ fs, f.GoesOn) → exec (Daemon.step cfg log10 jobs hm) d' fs = some u →
      fs.length + u.due m ≤ d'.due m + 2 * fs.countP DaemonEvent.idles ∧
      ((∀ f : DaemonEvent, f.Works → u.step cfg log10 jobs hm f = none) → u.AtRest m) ∧
      (u.AtRest m → u.unsignalled = 0 →
        ∀ id r, u.system.row id = some r → claimable id r = false) := by
  have hup' := hup.exec hes hrun
  refine ⟨?_, ?_⟩
  · have hwork : ∀ (d : Daemon K) (e : DaemonEvent) (d' : Daemon K), d.Up m → e.Works →
        d.step cfg log10 jobs hm e = some d' → d'.Up m ∧ d'.due m < d.due m := by
      intro d e d' U he hstep
      obtain ⟨hgoes, hidle⟩ := DaemonEvent.works_iff.mp he
      have hdue := Daemon.due_step hgoes hstep
      rw [hidle, Bool.toNat_false] at hdue
      exact ⟨U.step hgoes.lands hstep, by omega⟩
    obtain ⟨fs, u, hfs, hu, hstuck⟩ := exists_exec_maximal (C := DaemonEvent.Works)
      (fun d : Daemon K => d.Up m) (fun d => d.due m) hwork hup'
    have hlands : ∀ f ∈ fs, f.Lands := fun f hf => (DaemonEvent.works_iff.mp (hfs f hf)).1.lands
    exact ⟨fs, u, hfs, hu, (hup'.exec hlands hu).atRest hstuck⟩
  · intro fs u hfs hu
    have hlands : ∀ f ∈ fs, f.Lands := fun f hf => (hfs f hf).lands
    have hall : ∀ e ∈ es ++ fs, e.Lands := by
      intro e he
      exact (List.mem_append.mp he).elim (hes e) (hlands e)
    have C : u.Covered m :=
      Daemon.Covered.exec hall hstart hstop (exec_append.mpr ⟨d', hrun, hu⟩)
    refine ⟨?_, (hup'.exec hlands hu).atRest, ?_⟩
    · have hcosts := exec_costs_le_of_forall (C := DaemonEvent.GoesOn) (fun d : Daemon K => d.Up m)
        (fun d => d.due m) (fun _ => 1) (fun e => 2 * e.idles.toNat)
        (fun _ _ _ U he hstep => ⟨U.step he.lands hstep, Daemon.due_step he hstep⟩) hup' hfs hu
      rw [List.sum_map_mul_left, sum_toNat_eq_countP] at hcosts
      simpa using hcosts
    · intro hrest hsignalled id r hr
      refine C.unclaimable hsignalled hrest.pipes ?_ hr
      intro q hq
      obtain ⟨hpc, hqueue⟩ := hrest.threads q hq
      refine ⟨hqueue, ?_⟩
      rw [System.pc, hpc]
      exact ⟨rfl, rfl⟩

end Events

/-- One job and its wake-up: the daemon comes to rest in at most 28 steps. -/
theorem daemon_drains_one_job :
    ∃ d' fs u, exec (Daemon.step {} powerLog (fun _ => Config.runOnly) Nat.one_pos) Daemon.idle
        [.insert 1 "run".toList none, .server (.connect true .sent)] = some d' ∧
      exec (Daemon.step {} powerLog (fun _ => Config.runOnly) Nat.one_pos) d' fs = some u ∧
      u.AtRest 1 ∧ fs.length ≤ 28 := by
  have hrun : (exec (Daemon.step {} powerLog (fun _ => Config.runOnly) Nat.one_pos) Daemon.idle
      [.insert 1 "run".toList none, .server (.connect true .sent)]).map
        (fun d => d.due 1) = some 28 := by rfl
  obtain ⟨d', hd', hdue⟩ := Option.map_eq_some_iff.mp hrun
  have hes : ∀ e ∈ [.insert 1 "run".toList none, .server (.connect true .sent)],
      DaemonEvent.Lands e := by
    simp [DaemonEvent.Lands]
  have hup : Daemon.idle.Up 1 := ⟨fun _ _ => rfl, fun _ _ => ⟨rfl, Pc.noConfusion⟩⟩
  have hbacklog : backlog Daemon.idle.system.shared.table ≤ Daemon.idle.unsignalled := by decide
  obtain ⟨⟨fs, u, hfs, hu, hrest⟩, hall⟩ :=
    daemon_drains hes hbacklog (fun q _ => List.not_mem_nil) hup hd'
  have hgoes : ∀ f ∈ fs, f.GoesOn := fun f hf => (DaemonEvent.works_iff.mp (hfs f hf)).1
  have hidle : fs.countP DaemonEvent.idles = 0 := by
    rw [List.countP_eq_zero]
    exact fun f hf => Bool.eq_false_iff.mp (DaemonEvent.works_iff.mp (hfs f hf)).2
  have hlength := (hall fs u hgoes hu).1
  rw [hdue, hidle] at hlength
  exact ⟨d', fs, u, hd', hu, hrest, le_of_add_le_left hlength⟩

end Workq.Server
