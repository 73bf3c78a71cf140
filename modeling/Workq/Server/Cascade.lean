import Workq.Core.Run
import Workq.Server.Channel

/-!
# How the workers go down after their server

A worker keeps the write ends of the channels opened before its own, and hands them down to the
processes of its run jobs, which nothing closes them in. So the end of a channel is seen only
when the server and all later workers are gone, and with them every process that a job of a
later worker has left behind and that still holds the write end. When the server dies and every
worker exits as soon as `on_io_work` finds the end of its pipe, the workers go down one by one,
the last one first; a worker or a job that hangs keeps all earlier workers from noticing.
-/

namespace Workq.Server

open Workq.Core

/-- The ends left after some processes have exited. -/
def Descriptors.after (d : Descriptors) (exits : List Process) : Descriptors :=
  (exits.map Closing.exit).foldl Descriptors.close d

/-- The server and the workers that have been started. -/
def Descriptors.processes (d : Descriptors) : List Process :=
  .server :: (List.range d.workers.length).map .worker

/-- A process that a worker's run job has started, or one that descends from it. -/
structure JobProcess where
  worker : Nat
  ends : Finset PipeEnd
  deriving DecidableEq

/-- The server and its workers, the processes of their jobs that have not exited, and the
server and workers that have, in their order. -/
structure Household where
  ends : Descriptors
  jobs : List JobProcess
  gone : List Process
  deriving DecidableEq

/-- What can happen after `start_workers`. -/
inductive HouseholdEvent where
  /-- The server or a worker exits. -/
  | exit (p : Process)
  /-- A thread of a worker forks the process of a run job. -/
  | runJob (i : Nat)
  /-- A job's process forks. -/
  | fork (k : Nat)
  /-- A job's process closes one of the ends that it has inherited. -/
  | close (k : Nat) (e : PipeEnd)
  /-- A job's process exits. -/
  | jobExit (k : Nat)
  deriving DecidableEq

/-- Nobody holds the write end any more. -/
def Household.Eof (s : Household) (i : Nat) (pipe : Pipe) : Prop :=
  s.ends.Eof i pipe ∧ ∀ k ∈ s.jobs, ⟨i, pipe, .write⟩ ∉ k.ends

instance (s : Household) (i : Nat) (pipe : Pipe) : Decidable (s.Eof i pipe) :=
  inferInstanceAs (Decidable (_ ∧ _))

/-- One event, whatever the reason for an exit. -/
def Household.next (s : Household) : HouseholdEvent → Option Household
  | .exit p =>
    if p ∈ s.ends.processes ∧ p ∉ s.gone then
      some { s with ends := s.ends.close (.exit p), gone := s.gone ++ [p] }
    else none
  | .runJob i =>
    -- `fork` copies the descriptors, and none of them is closed by `execve`
    if i < s.ends.workers.length ∧ .worker i ∉ s.gone then
      some { s with jobs := s.jobs ++ [⟨i, s.ends.held (.worker i)⟩] }
    else none
  | .fork k => (s.jobs[k]?).map fun job => { s with jobs := s.jobs ++ [job] }
  | .close k e => (s.jobs[k]?).map fun job =>
      { s with jobs := s.jobs.set k { job with ends := job.ends.erase e } }
  | .jobExit k => (s.jobs[k]?).map fun _ => { s with jobs := s.jobs.eraseIdx k }

/-- One event when the server exits at any time, and a worker when its read finds the end of
its pipe. -/
def Household.downfall (s : Household) (e : HouseholdEvent) : Option Household :=
  match e with
  | .exit (.worker i) => if s.Eof i .serverSend then s.next e else none
  | _ => s.next e

/-- After `start_workers`. -/
def Household.start (d : Descriptors) : Household := ⟨d, [], []⟩

/-- The event closes nothing in a job's process. -/
def HouseholdEvent.Keeps : HouseholdEvent → Prop
  | .close _ _ => False
  | _ => True

/-- The workers below a given number, the last one first. -/
def workersDown : Nat → List Process
  | 0 => []
  | n + 1 => .worker n :: workersDown n

/-- Nothing that is still to exit before the process holds it up. -/
def Due (n : Nat) (gone : List Process) : Process → Prop
  | .server => .server ∉ gone
  | .worker i => i < n ∧ .worker i ∉ gone ∧ .server ∈ gone ∧ ∀ j, i < j → j < n → .worker j ∈ gone

section Exits

variable {n : Nat} {d : Descriptors}

/-- A process that exits holds nothing, and the others hold what they held. -/
theorem Descriptors.held_exit (d : Descriptors) (dead p : Process) :
    (d.close (.exit dead)).held p = if p = dead then ∅ else d.held p := by
  cases dead with
  | server => cases p <;> rfl
  | worker i =>
    cases p with
    | server => rfl
    | worker j =>
      simp only [Descriptors.close, Descriptors.held, List.getD_eq_getElem?_getD,
        List.getElem?_set, Process.worker.injEq]
      by_cases hij : i = j
      · subst hij
        simp only [if_true]
        split <;> rfl
      · rw [if_neg hij, if_neg (Ne.symm hij)]

theorem Descriptors.held_after (d : Descriptors) (exits : List Process) (p : Process) :
    (d.after exits).held p = if p ∈ exits then ∅ else d.held p := by
  induction exits generalizing d with
  | nil => rfl
  | cons dead exits ih =>
    have hstep : (d.after (dead :: exits)).held p = ((d.close (.exit dead)).after exits).held p :=
      rfl
    rw [hstep, ih, Descriptors.held_exit]
    by_cases hmem : p ∈ exits
    · rw [if_pos hmem, if_pos (List.mem_cons_of_mem dead hmem)]
    · by_cases hp : p = dead
      · rw [if_neg hmem, if_pos hp, if_pos (hp ▸ List.mem_cons_self ..)]
      · rw [if_neg hmem, if_neg hp, if_neg]
        rw [List.mem_cons, not_or]
        exact ⟨hp, hmem⟩

/-- Of the server and the workers nobody holds the write end exactly when the server and all
workers started after it are gone. -/
theorem Started.eof_after_iff (h : Started n d) (exits : List Process) {i : Nat} (hi : i < n) :
    (d.after exits).Eof i .serverSend ↔
      .server ∈ exits ∧ ∀ j, i < j → j < n → .worker j ∈ exits := by
  have hheld : ∀ p, ⟨i, .serverSend, .write⟩ ∈ (d.after exits).held p ↔
      p ∉ exits ∧ ((p = .server ∧ i < n) ∨ ∃ j, p = .worker j ∧ i < j ∧ j < n) := by
    intro p
    rw [d.held_after, ← h.holds_write_iff]
    by_cases hp : p ∈ exits
    · simp [hp]
    · simp [hp]
  rw [Descriptors.eof_iff]
  constructor
  · intro hnone
    refine ⟨?_, ?_⟩
    · by_contra hserver
      exact hnone .server ((hheld .server).mpr ⟨hserver, Or.inl ⟨rfl, hi⟩⟩)
    · intro j hij hj
      by_contra hworker
      exact hnone (.worker j) ((hheld _).mpr ⟨hworker, Or.inr ⟨j, rfl, hij, hj⟩⟩)
  · rintro ⟨hserver, hworkers⟩ p hp
    obtain ⟨hgone, ⟨rfl, _⟩ | ⟨j, rfl, hij, hj⟩⟩ := (hheld p).mp hp
    · exact hgone hserver
    · exact hgone (hworkers j hij hj)

/-- What is left of the order after some of it is the same order of fewer workers. -/
theorem workersDown_split {n : Nat} {gone left : List Process} (h : workersDown n = gone ++ left) :
    ∃ k ≤ n, left = workersDown k ∧ ∀ p, p ∈ gone ↔ ∃ j, p = .worker j ∧ k ≤ j ∧ j < n := by
  induction n generalizing gone with
  | zero =>
    obtain ⟨rfl, rfl⟩ := List.append_eq_nil_iff.mp h.symm
    refine ⟨0, le_rfl, rfl, ?_⟩
    intro p
    simp
  | succ n ih =>
    cases gone with
    | nil =>
      refine ⟨n + 1, le_rfl, h.symm, ?_⟩
      intro p
      simp only [List.not_mem_nil, false_iff]
      rintro ⟨j, _, hle, hlt⟩
      omega
    | cons dead gone =>
      rw [workersDown, List.cons_append, List.cons.injEq] at h
      obtain ⟨rfl, h⟩ := h
      obtain ⟨k, hk, hleft, hmem⟩ := ih h
      refine ⟨k, hk.trans (Nat.le_succ n), hleft, ?_⟩
      intro p
      rw [List.mem_cons, hmem]
      constructor
      · rintro (rfl | ⟨j, hp, hle, hlt⟩)
        · exact ⟨n, rfl, hk, Nat.lt_succ_self n⟩
        · exact ⟨j, hp, hle, hlt.trans (Nat.lt_succ_self n)⟩
      · rintro ⟨j, rfl, hle, hlt⟩
        rcases Nat.lt_succ_iff_lt_or_eq.mp hlt with hlt | rfl
        · exact Or.inr ⟨j, rfl, hle, hlt⟩
        · exact Or.inl rfl

/-- Who is due next is decided by the order alone. -/
theorem due_iff {gone left : List Process} (horder : .server :: workersDown n = gone ++ left)
    (p : Process) : Due n gone p ↔ left.head? = some p := by
  cases gone with
  | nil =>
    obtain rfl : .server :: workersDown n = left := horder
    cases p with
    | server => simp [Due]
    | worker i => simp [Due]
  | cons first gone =>
    rw [List.cons_append, List.cons.injEq] at horder
    obtain ⟨rfl, horder⟩ := horder
    obtain ⟨k, hk, rfl, hmem⟩ := workersDown_split horder
    cases p with
    | server =>
      have hleft : (workersDown k).head? ≠ some .server := by
        cases k <;> simp [workersDown]
      exact iff_of_false (fun hdue => hdue (List.mem_cons_self ..)) hleft
    | worker i =>
      have hleft : (workersDown k).head? = some (.worker i) ↔ k = i + 1 := by
        cases k with
        | zero => simp [workersDown]
        | succ k => simp [workersDown]
      have hgone : ∀ j, .worker j ∈ (Process.server :: gone) ↔ k ≤ j ∧ j < n := by
        intro j
        simp [hmem]
      rw [hleft]
      simp only [Due, hgone, List.mem_cons_self, true_and]
      constructor
      · rintro ⟨hi, hnot, hlater⟩
        by_cases hlast : i + 1 < n
        · have := (hlater (i + 1) (Nat.lt_succ_self i) hlast).1
          omega
        · omega
      · rintro rfl
        exact ⟨by omega, by omega, fun j hij hj => ⟨by omega, hj⟩⟩

end Exits

section Jobs

variable {n : Nat} {d : Descriptors} {s t : Household} {e : HouseholdEvent}

theorem mem_processes {d : Descriptors} {p : Process} : p ∈ d.processes ↔
    p = .server ∨ ∃ i < d.workers.length, p = .worker i := by
  simp [Descriptors.processes, eq_comm]

/-- What holds of the household in every run: nobody has more than it was started with, and a
job's process has no more than its worker. -/
structure Household.Inherited (n : Nat) (d : Descriptors) (s : Household) : Prop where
  ends : s.ends = d.after s.gone
  gone : ∀ p ∈ s.gone, p = .server ∨ ∃ i < n, p = .worker i
  jobs : ∀ k ∈ s.jobs, k.worker < n ∧ k.ends ⊆ d.held (.worker k.worker)

theorem Household.Inherited.start (n : Nat) (d : Descriptors) : (start d).Inherited n d where
  ends := rfl
  gone _ hp := absurd hp List.not_mem_nil
  jobs _ hk := absurd hk List.not_mem_nil

theorem Descriptors.length_after (d : Descriptors) (exits : List Process) :
    (d.after exits).workers.length = d.workers.length := by
  induction exits generalizing d with
  | nil => rfl
  | cons dead exits ih =>
    have hstep : d.after (dead :: exits) = (d.close (.exit dead)).after exits := rfl
    rw [hstep, ih]
    cases dead with
    | server => rfl
    | worker i => exact List.length_set ..

/-- A worker that is not gone hands down all that it was started with. -/
theorem Household.Inherited.held (I : s.Inherited n d) {p : Process} (hp : p ∉ s.gone) :
    s.ends.held p = d.held p := by
  rw [I.ends, d.held_after, if_neg hp]

/-- What holds of the processes of jobs holds after an event, if it holds of those that a worker
forks and is not lost by closing an end. -/
theorem Household.forall_jobs_step {P : JobProcess → Prop} (hall : ∀ k ∈ s.jobs, P k)
    (hrun : ∀ i, e = .runJob i → i < s.ends.workers.length → .worker i ∉ s.gone →
      P ⟨i, s.ends.held (.worker i)⟩)
    (hclose : ∀ i closed, e = .close i closed → ∀ k, P k →
      P { k with ends := k.ends.erase closed })
    (h : s.next e = some t) : ∀ k ∈ t.jobs, P k := by
  cases e with
  | exit p =>
    simp only [Household.next] at h
    split at h
    · obtain rfl := Option.some.inj h
      exact hall
    · contradiction
  | runJob i =>
    simp only [Household.next] at h
    split at h
    · rename_i hi
      obtain rfl := Option.some.inj h
      intro k hk
      rcases List.mem_append.mp hk with hk | hk
      · exact hall k hk
      · obtain rfl := List.mem_singleton.mp hk
        exact hrun i rfl hi.1 hi.2
    · contradiction
  | fork i =>
    obtain ⟨job, hjob, rfl⟩ := Option.map_eq_some_iff.mp h
    intro k hk
    rcases List.mem_append.mp hk with hk | hk
    · exact hall k hk
    · obtain rfl := List.mem_singleton.mp hk
      exact hall k (List.mem_of_getElem? hjob)
  | close i closed =>
    obtain ⟨job, hjob, rfl⟩ := Option.map_eq_some_iff.mp h
    intro k hk
    rcases List.mem_or_eq_of_mem_set hk with hk | rfl
    · exact hall k hk
    · exact hclose i closed rfl job (hall job (List.mem_of_getElem? hjob))
  | jobExit i =>
    obtain ⟨job, hjob, rfl⟩ := Option.map_eq_some_iff.mp h
    exact fun k hk => hall k (List.mem_of_mem_eraseIdx hk)

/-- Only the exit of the server or of a worker changes who is gone and what the others hold. -/
theorem Household.gone_step (h : s.next e = some t) : (t.ends = s.ends ∧ t.gone = s.gone) ∨
    ∃ p, e = .exit p ∧ p ∈ s.ends.processes ∧ p ∉ s.gone ∧
      t.ends = s.ends.close (.exit p) ∧ t.gone = s.gone ++ [p] := by
  cases e with
  | exit p =>
    simp only [Household.next] at h
    split at h
    · rename_i hp
      obtain rfl := Option.some.inj h
      exact Or.inr ⟨p, rfl, hp.1, hp.2, rfl, rfl⟩
    · contradiction
  | runJob i =>
    simp only [Household.next] at h
    split at h
    · obtain rfl := Option.some.inj h
      exact Or.inl ⟨rfl, rfl⟩
    · contradiction
  | fork i | close i closed | jobExit i =>
    obtain ⟨job, hjob, rfl⟩ := Option.map_eq_some_iff.mp h
    exact Or.inl ⟨rfl, rfl⟩

/-- There are as many workers as have been started. -/
theorem Household.Inherited.mem_processes (I : s.Inherited n d) (hlength : d.workers.length = n)
    {p : Process} : p ∈ s.ends.processes ↔ p = .server ∨ ∃ i < n, p = .worker i := by
  rw [Server.mem_processes, I.ends, d.length_after, hlength]

theorem Household.Inherited.step (I : s.Inherited n d) (hlength : d.workers.length = n)
    (h : s.next e = some t) : t.Inherited n d := by
  have hjobs : ∀ k ∈ t.jobs, k.worker < n ∧ k.ends ⊆ d.held (.worker k.worker) := by
    refine Household.forall_jobs_step I.jobs ?_ ?_ h
    · intro i _ hi hnot
      rw [I.ends, d.length_after, hlength] at hi
      exact ⟨hi, (I.held hnot).subset⟩
    · intro _ closed _ k hk
      exact ⟨hk.1, (Finset.erase_subset ..).trans hk.2⟩
  rcases Household.gone_step h with ⟨hends, hgone⟩ | ⟨p, _, hp, _, hends, hgone⟩
  · exact ⟨hends.trans (hgone ▸ I.ends), hgone ▸ I.gone, hjobs⟩
  · refine ⟨?_, ?_, hjobs⟩
    · simp only [hends, hgone, I.ends, Descriptors.after, List.map_append, List.map_singleton,
        List.foldl_append, List.foldl_cons, List.foldl_nil]
    · rw [hgone]
      intro q hq
      rcases List.mem_append.mp hq with hq | hq
      · exact I.gone q hq
      · obtain rfl := List.mem_singleton.mp hq
        exact (I.mem_processes hlength).mp hp

/-- As long as jobs close nothing, a job's process has all that its worker had. -/
structure Household.Kept (n : Nat) (d : Descriptors) (s : Household) : Prop
    extends s.Inherited n d where
  kept : ∀ k ∈ s.jobs, k.ends = d.held (.worker k.worker)

theorem Household.Kept.step (K : s.Kept n d) (hlength : d.workers.length = n)
    (hkeeps : e.Keeps) (h : s.next e = some t) : t.Kept n d := by
  refine ⟨K.toInherited.step hlength h, Household.forall_jobs_step K.kept ?_ ?_ h⟩
  · exact fun i _ _ hnot => K.toInherited.held hnot
  · rintro i closed rfl
    exact hkeeps.elim

/-- When a worker finds the end of its pipe. -/
theorem Household.Inherited.eof_iff (I : s.Inherited n d) (h : Started n d) {i : Nat}
    (hi : i < n) : s.Eof i .serverSend ↔
      .server ∈ s.gone ∧ (∀ j, i < j → j < n → .worker j ∈ s.gone) ∧
        ∀ k ∈ s.jobs, i < k.worker → ⟨i, .serverSend, .write⟩ ∉ k.ends := by
  rw [Household.Eof, I.ends, h.eof_after_iff s.gone hi, and_assoc]
  refine and_congr_right fun _ => and_congr_right fun _ => ?_
  constructor
  · exact fun hall k hk _ => hall k hk
  · intro hall k hk hheld
    obtain ⟨hlt, hsub⟩ := I.jobs k hk
    have hbefore := (h.holds_write_iff i _).mp (hsub hheld)
    simp only [reduceCtorEq, false_and, false_or, Process.worker.injEq, exists_eq_left'] at hbefore
    exact hall k hk hbefore.1 hheld

/-- A step of the downfall is an event of the household, and who exits is due. -/
theorem Household.downfall_cases (I : s.Inherited n d) (h : Started n d)
    (hstep : s.downfall e = some t) : s.next e = some t ∧
      (t.gone = s.gone ∨ ∃ p, t.gone = s.gone ++ [p] ∧ Due n s.gone p) := by
  have hnext : s.next e = some t := by
    unfold Household.downfall at hstep
    split at hstep
    · split at hstep
      · exact hstep
      · contradiction
    · exact hstep
  refine ⟨hnext, ?_⟩
  rcases Household.gone_step hnext with ⟨_, hgone⟩ | ⟨p, rfl, hp, hnot, _, hgone⟩
  · exact Or.inl hgone
  · refine Or.inr ⟨p, hgone, ?_⟩
    cases p with
    | server => exact hnot
    | worker i =>
      simp only [Household.downfall] at hstep
      split at hstep
      · rename_i heof
        have hi : i < n := by
          obtain hserver | ⟨j, hj, hij⟩ := (I.mem_processes h.length).mp hp
          · contradiction
          · obtain rfl := Process.worker.inj hij
            exact hj
        obtain ⟨hserver, hlater, _⟩ := (I.eof_iff h hi).mp heof
        exact ⟨hi, hnot, hserver, hlater⟩
      · contradiction

/-- The household in a downfall, whose exits are the beginning of one order. -/
structure Household.Falling (n : Nat) (d : Descriptors) (s : Household) : Prop
    extends s.Inherited n d where
  order : s.gone <+: .server :: workersDown n

theorem Household.Falling.step (F : s.Falling n d) (h : Started n d)
    (hstep : s.downfall e = some t) : t.Falling n d := by
  obtain ⟨hnext, hgone⟩ := Household.downfall_cases F.toInherited h hstep
  refine ⟨F.toInherited.step h.length hnext, ?_⟩
  rcases hgone with hgone | ⟨p, hgone, hdue⟩
  · rw [hgone]
    exact F.order
  · obtain ⟨left, horder⟩ := F.order
    have hhead := (due_iff horder.symm p).mp hdue
    obtain ⟨rest, rfl⟩ := List.head?_eq_some_iff.mp hhead
    exact ⟨rest, by rw [hgone, ← horder, List.append_assoc, List.singleton_append]⟩

end Jobs

/-- A job of the second worker outlives it and the server: the first worker does not notice. -/
example : ∃ d s, startWorkers 2 = some d ∧ exec Household.next (.start d)
    [.runJob 1, .exit .server, .exit (.worker 1)] = some s ∧ ¬ s.Eof 0 .serverSend := by
  refine ⟨_, _, rfl, rfl, ?_⟩
  decide

end Workq.Server
