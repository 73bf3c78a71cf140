import Workq.Worker.Ownership

/-!
# Shutdown of a worker

`Worker::shutdown` clears `m_active` and then pushes one stop message to each of its
threads, while these go on anywhere in `run`. A thread looks at the flag only at the head
of its loop, so it can be on its way to one more `find_jobs` call when the flag falls; a
popped stop message drops the tokens popped with it and sends the thread back to the head,
where it finds the flag already cleared. Lock ids do not matter here, so the runs are all
interleavings.
-/

namespace Workq.Worker

open Workq.Core Workq.Jobs

variable {ι : Type*}

/-- A system with one worker's shutdown in it: the threads that have still to be sent their
stop message, `none` before the shutdown. -/
structure Stopping (ι : Type*) where
  system : System ι
  unstopped : Option (List ι)

/-- What can happen next. -/
inductive StoppingEvent (ι : Type*) where
  /-- Anything but a signal to the worker's threads. -/
  | run (e : Event ι)
  /-- `m_active = false`. -/
  | clear
  /-- The next `send_stop`. -/
  | stop

/-- The event clears a flag or sends a stop message to one of the threads. -/
def Event.signals [DecidableEq ι] (threads : List ι) : Event ι → Bool
  | .sendStop q | .clearActive q => q ∈ threads
  | _ => false

/-- Every thread of the worker sees `m_active` cleared. -/
def System.clear [DecidableEq ι] (threads : List ι) (s : System ι) : System ι :=
  { s with queues := fun q =>
      if q ∈ threads then { s.queues q with active := false } else s.queues q }

/-- The step function of the system with the worker's threads. -/
def Stopping.step [DecidableEq ι] (cfg : ι → Config) (threads : List ι) (p : Stopping ι) :
    StoppingEvent ι → Option (Stopping ι)
  | .run e =>
    if e.signals threads then none
    else (looseStep cfg p.system e).map fun s => { p with system := s }
  | .clear =>
    match p.unstopped with
    | none => some ⟨p.system.clear threads, some threads⟩
    | some _ => none
  | .stop =>
    match p.unstopped with
    | some (q :: qs) => some ⟨p.system.setQueue q (p.system.queues q).sendStop, some qs⟩
    | _ => none

/-- In `find_jobs`, before its first statement. -/
def Pc.starting : Pc → Bool
  | .findJobs _ => true
  | _ => false

/-- How many `find_jobs` calls the thread can start before it looks at `m_active`. -/
def Pc.polling : Pc → Nat
  | .timedPop | .tryPop _ => 1
  | _ => 0

/-- The thread of queue `q` starts a `find_jobs` call. -/
def startsFindJobs (q : ι) (p p' : Stopping ι) : Bool :=
  (p'.system.pc q).starting && !(p.system.pc q).starting

/-- The claims of one queue, latest first. -/
def Stopping.claimsOf [DecidableEq ι] (p : Stopping ι) (q : ι) : List (Claim ι) :=
  Worker.claimsOf q p.system.shared.claims

section Thread

variable {cfg : Config} {q : ι} {sh sh' : Shared ι} {wq wq' : WorkQueue} {a : Action}

theorem starting_rowPc (cfg : Config) (c : Call) (row : Fetched) (rest : List Fetched)
    (jobs : List JobId) (made : Bool) :
    (rowPc cfg c row rest jobs made).starting = false ∧
      (rowPc cfg c row rest jobs made).polling = 0 := by
  unfold rowPc
  split
  · split
    · exact ⟨rfl, rfl⟩
    · split <;> exact ⟨rfl, rfl⟩
  · split <;> exact ⟨rfl, rfl⟩

/-- The thread never touches the flag. -/
theorem ThreadStep.active_eq (h : ThreadStep cfg q sh wq a sh' wq') :
    wq'.active = wq.active := by
  cases h with
  | popFirst m ms hpc hq | popNext w m ms hpc hq => cases m <;> rfl
  | _ => rfl

/-- With the flag cleared, each start of `find_jobs` uses up the way to it. -/
theorem ThreadStep.polling_le (h : ThreadStep cfg q sh wq a sh' wq')
    (hactive : wq.active = false) :
    (wq'.pc.starting && !wq.pc.starting).toNat + wq'.pc.polling ≤ wq.pc.polling := by
  cases h with
  | check hpc => simp [hactive, Pc.starting, Pc.polling]
  | popFirst m ms hpc hq | popNext w m ms hpc hq =>
    cases m <;> simp [WorkQueue.receive, hpc, Pc.starting, Pc.polling]
  | popNone w hpc hq =>
    simp only [hpc]
    split <;> simp [Pc.starting, Pc.polling]
  | claim w stamp reply hpc hfresh =>
    dsimp only
    split <;> simp [Pc.starting, Pc.polling]
  | create c row rest jobs made hpc =>
    obtain ⟨hs, hp⟩ := starting_rowPc cfg c row rest jobs made
    simp [hs, hp]
  | discard c id known rest jobs reply hpc =>
    dsimp only
    split <;> simp [Pc.starting, Pc.polling]
  | _ => simp [Pc.starting, Pc.polling]

/-- What holds of a queue before and during its worker's shutdown: a stop message is sent
only when the flag is cleared, and the thread that popped it is done. -/
structure Stoppable (wq : WorkQueue) : Prop where
  inactive : .stop ∈ wq.queue ∨ wq.stopSeen = true → wq.active = false
  halted : wq.stopSeen = true → wq.pc = .head ∨ wq.pc = .exited

/-- A thread in the middle of its loop has popped no stop message. -/
theorem Stoppable.not_stopSeen (S : Stoppable wq) (hhead : wq.pc ≠ .head)
    (hexit : wq.pc ≠ .exited) : wq.stopSeen = false := by
  by_contra hseen
  rcases S.halted (Bool.eq_true_of_not_eq_false hseen) with h | h
  · exact hhead h
  · exact hexit h

/-- A step that leaves the messages alone needs its thread to be in the loop. -/
theorem Stoppable.move (S : Stoppable wq) (hhead : wq.pc ≠ .head) (hexit : wq.pc ≠ .exited)
    (hactive : wq'.active = wq.active) (hqueue : wq'.queue = wq.queue)
    (hseen : wq'.stopSeen = wq.stopSeen) : Stoppable wq' where
  inactive h := by
    rw [hqueue, hseen] at h
    rw [hactive]
    exact S.inactive h
  halted h := by
    rw [hseen, S.not_stopSeen hhead hexit] at h
    contradiction

/-- A popped message is a token of the batch, or it ends the thread. -/
theorem Stoppable.receive (S : Stoppable wq) (hhead : wq.pc ≠ .head) (hexit : wq.pc ≠ .exited)
    (w : Nat) {m : Message} {ms : List Message} (hqueue : wq.queue = m :: ms) :
    Stoppable (wq.receive w ms m) := by
  have hseen := S.not_stopSeen hhead hexit
  cases m with
  | stop =>
    have hactive := S.inactive (Or.inl (hqueue ▸ List.mem_cons_self ..))
    exact ⟨fun _ => hactive, fun _ => Or.inl rfl⟩
  | work =>
    constructor
    · rintro (hms | h)
      · exact S.inactive (Or.inl (hqueue ▸ List.mem_cons_of_mem _ hms))
      · exact absurd (hseen.symm.trans h) Bool.false_ne_true
    · intro h
      exact absurd (hseen.symm.trans h) Bool.false_ne_true

theorem Stoppable.step (S : Stoppable wq) (h : ThreadStep cfg q sh wq a sh' wq') :
    Stoppable wq' := by
  cases h with
  | check hpc =>
    refine ⟨S.inactive, ?_⟩
    intro hseen
    have hactive := S.inactive (Or.inr hseen)
    exact Or.inr (if_neg (by rw [hactive]; decide))
  | popFirst m ms hpc hq | popNext w m ms hpc hq =>
    exact S.receive (by rw [hpc]; exact Pc.noConfusion) (by rw [hpc]; exact Pc.noConfusion) _ hq
  | timeout hpc | popNone w hpc | claim w stamp reply hpc | fetchOk c hpc | fetchNoResult c hpc
  | fetchFailed c hpc | release c reply hpc | create c row rest jobs made hpc
  | returnJobs c jobs hpc | discard c id known rest jobs reply hpc | mark c id rest jobs reply hpc
  | execute w id jobs loadData execute hpc | finish w id ret jobs reply hpc | batchEnd w hpc =>
    exact S.move (by rw [hpc]; exact Pc.noConfusion) (by rw [hpc]; exact Pc.noConfusion) rfl rfl rfl

/-- Only the claiming `UPDATE` adds a claim, and it needs a started call. -/
theorem ThreadStep.claims_eq (h : ThreadStep cfg q sh wq a sh' wq') (hpc : wq.pc.starting = false) :
    sh'.claims = sh.claims := by
  cases h with
  | claim w stamp reply hclaim => rw [hclaim] at hpc; contradiction
  | _ => rfl

/-- Popping a message leaves the database alone. -/
theorem ThreadStep.shared_eq_of_pop (h : ThreadStep cfg q sh wq .pop sh' wq') : sh' = sh := by
  cases h <;> rfl

/-- A popped stop message is not forgotten. -/
theorem ThreadStep.stopSeen_mono (h : ThreadStep cfg q sh wq a sh' wq')
    (hseen : wq.stopSeen = true) : wq'.stopSeen = true := by
  cases h with
  | popFirst m ms hpc hq | popNext w m ms hpc hq =>
    cases m with
    | stop => rfl
    | work => exact hseen
  | _ => exact hseen

end Thread

section Invariant

variable {threads : List ι} {p : Stopping ι} {q : ι}

/-- The queue of a thread, as the system has it. -/
def Stopping.queue (p : Stopping ι) (q : ι) : WorkQueue := p.system.queues q

/-- The thread has popped its stop message. -/
def Stopping.stopSeen (p : Stopping ι) (q : ι) : Bool := (p.queue q).stopSeen

/-- The invariant of a worker's shutdown. -/
structure Orderly (threads : List ι) (p : Stopping ι) : Prop where
  cleared : p.unstopped ≠ none → ∀ q ∈ threads, (p.queue q).active = false
  stoppable : ∀ q ∈ threads, Stoppable (p.queue q)

/-- A worker in operation: no shutdown yet and no stop message sent or popped. -/
structure Operating (threads : List ι) (p : Stopping ι) : Prop where
  unstopped : p.unstopped = none
  queues : ∀ q ∈ threads, .stop ∉ (p.queue q).queue ∧ p.stopSeen q = false

theorem Operating.orderly (h : Operating threads p) : Orderly threads p where
  cleared hun := absurd h.unstopped hun
  stoppable q hq := by
    obtain ⟨hstop, hseen⟩ := h.queues q hq
    constructor
    · rintro (hm | hs)
      · exact absurd hm hstop
      · exact absurd (hseen.symm.trans hs) Bool.false_ne_true
    · intro hs
      exact absurd (hseen.symm.trans hs) Bool.false_ne_true

/-- A thread that popped its stop message is done with `find_jobs`. -/
theorem Orderly.done (O : Orderly threads p) (hq : q ∈ threads) (hseen : p.stopSeen q = true) :
    (p.system.pc q).starting = false ∧ (p.system.pc q).polling = 0 := by
  rcases (O.stoppable q hq).halted hseen with h | h
  · exact ⟨congrArg Pc.starting h, congrArg Pc.polling h⟩
  · exact ⟨congrArg Pc.starting h, congrArg Pc.polling h⟩

end Invariant

section Process

variable [DecidableEq ι] {cfg : ι → Config} {threads : List ι} {p p' : Stopping ι}
  {e : StoppingEvent ι} {q : ι}

/-- Everything a step can do to the queue and the claims of one of the worker's threads. -/
inductive QueueStep (cfg : Config) (q : ι) (p : Stopping ι) (e : StoppingEvent ι)
    (p' : Stopping ι) : Prop
  | other (hqueue : p'.queue q = p.queue q) (hclaims : p'.claimsOf q = p.claimsOf q)
  | sendWork (hqueue : p'.queue q = (p.queue q).sendWork)
      (hclaims : p'.claimsOf q = p.claimsOf q)
  | clear (hqueue : p'.queue q = { p.queue q with active := false })
      (hclaims : p'.claimsOf q = p.claimsOf q)
  | stop (hqueue : p'.queue q = (p.queue q).sendStop) (hcleared : p.unstopped ≠ none)
      (hclaims : p'.claimsOf q = p.claimsOf q)
  | thread (a : Action) (sh : Shared ι) (he : e = .run (.thread q a))
      (h : ThreadStep cfg q { p.system.shared with claims := [] } (p.queue q) a sh (p'.queue q))
      (hclaims : p'.system.shared.claims = sh.claims ++ p.system.shared.claims)

/-- A thread's claims are its own. -/
theorem ThreadStep.claimsOf_other {c : Config} {r : ι} {sh sh' : Shared ι} {wq wq' : WorkQueue}
    {a : Action} (h : ThreadStep c r sh wq a sh' wq') (hq : q ≠ r) :
    claimsOf q sh'.claims = claimsOf q sh.claims := by
  cases h with
  | claim w stamp reply hpc hfresh =>
    rw [Shared.claim, claimsOf, List.filter_cons_of_neg (by simpa using Ne.symm hq), claimsOf]
  | _ => rfl

/-- An event of the running system is one of the listed steps for each thread. -/
theorem Stopping.step_run {e : Event ι} (hq : q ∈ threads)
    (h : Stopping.step cfg threads p (.run e) = some p') :
    QueueStep (cfg q) q p (.run e) p' ∧ p'.unstopped = p.unstopped := by
  simp only [Stopping.step] at h
  split at h
  · contradiction
  rename_i hsignals
  obtain ⟨s, hs, rfl⟩ := Option.map_eq_some_iff.mp h
  refine ⟨?_, rfl⟩
  cases e with
  | insert id name data =>
    simp only [looseStep, Worker.step] at hs
    split at hs
    · obtain rfl := Option.some.inj hs
      exact .other rfl rfl
    · contradiction
  | sendWork r =>
    obtain rfl := Option.some.inj hs
    rcases p.system.setQueue_cases r (p.system.queues r).sendWork q with ⟨rfl, hset⟩ | hset
    · exact .sendWork hset rfl
    · exact .other hset rfl
  | sendStop r =>
    obtain rfl := Option.some.inj hs
    rcases p.system.setQueue_cases r (p.system.queues r).sendStop q with ⟨rfl, _⟩ | hset
    · exact absurd (decide_eq_true hq) hsignals
    · exact .other hset rfl
  | clearActive r =>
    obtain rfl := Option.some.inj hs
    rcases p.system.setQueue_cases r { p.system.queues r with active := false } q with
      ⟨rfl, _⟩ | hset
    · exact absurd (decide_eq_true hq) hsignals
    · exact .other hset rfl
  | thread r a =>
    obtain ⟨sh, wq, hstep, hclaims, hqueues⟩ := looseStep_thread hs
    by_cases hr : q = r
    · subst hr
      refine .thread a sh rfl ?_ hclaims
      simp only [Stopping.queue, hqueues, Function.update_self]
      exact hstep
    · refine .other ?_ ?_
      · simp only [Stopping.queue, hqueues, Function.update_of_ne hr]
      · simp only [Stopping.claimsOf, hclaims, Worker.claimsOf, List.filter_append]
        rw [← Worker.claimsOf, hstep.claimsOf_other hr]
        rfl

/-- Every step is one of the listed ones, and the shutdown begins with clearing the flag. -/
theorem Stopping.step_cases (hq : q ∈ threads) (h : Stopping.step cfg threads p e = some p') :
    QueueStep (cfg q) q p e p' ∧ (p'.unstopped ≠ none →
      p.unstopped ≠ none ∨ (p'.queue q).active = false) ∧
      (p.unstopped ≠ none → p'.unstopped ≠ none) := by
  cases e with
  | run e =>
    obtain ⟨hstep, hun⟩ := Stopping.step_run hq h
    rw [hun]
    exact ⟨hstep, Or.inl, id⟩
  | clear =>
    simp only [Stopping.step] at h
    split at h
    · obtain rfl := Option.some.inj h
      have hqueue : Stopping.queue ⟨p.system.clear threads, some threads⟩ q =
          { p.queue q with active := false } := if_pos hq
      refine ⟨.clear hqueue rfl, fun _ => Or.inr ?_, fun _ => Option.some_ne_none threads⟩
      rw [hqueue]
    · contradiction
  | stop =>
    simp only [Stopping.step] at h
    split at h
    · rename_i r rs hun
      obtain rfl := Option.some.inj h
      have hcleared : p.unstopped ≠ none := by
        rw [hun]
        exact Option.some_ne_none _
      refine ⟨?_, fun _ => Or.inl hcleared, fun _ => Option.some_ne_none rs⟩
      rcases p.system.setQueue_cases r (p.system.queues r).sendStop q with ⟨rfl, hset⟩ | hset
      · exact .stop hset hcleared rfl
      · exact .other hset rfl
    · contradiction

/-- No step sets a cleared flag again. -/
theorem QueueStep.inactive {c : Config} (h : QueueStep c q p e p')
    (hactive : (p.queue q).active = false) : (p'.queue q).active = false := by
  cases h with
  | other hqueue => rw [hqueue]; exact hactive
  | sendWork hqueue | stop hqueue => rw [hqueue]; exact hactive
  | clear hqueue => rw [hqueue]
  | thread a sh he hstep => rw [hstep.active_eq]; exact hactive

/-- Each listed step keeps a queue stoppable. -/
theorem QueueStep.stoppable {c : Config} (h : QueueStep c q p e p') (S : Stoppable (p.queue q))
    (hcleared : p.unstopped ≠ none → (p.queue q).active = false) : Stoppable (p'.queue q) := by
  cases h with
  | other hqueue => rw [hqueue]; exact S
  | sendWork hqueue =>
    rw [hqueue]
    refine ⟨?_, S.halted⟩
    rintro (hstop | hseen)
    · rcases List.mem_append.mp hstop with hstop | hstop
      · exact S.inactive (Or.inl hstop)
      · exact absurd (List.mem_singleton.mp hstop) Message.noConfusion
    · exact S.inactive (Or.inr hseen)
  | clear hqueue => rw [hqueue]; exact ⟨fun _ => rfl, S.halted⟩
  | stop hqueue hun => rw [hqueue]; exact ⟨fun _ => hcleared hun, S.halted⟩
  | thread a sh he hstep => exact S.step hstep

theorem Orderly.step (O : Orderly threads p) (h : Stopping.step cfg threads p e = some p') :
    Orderly threads p' where
  cleared hun q hq := by
    obtain ⟨hstep, hclear, _⟩ := Stopping.step_cases hq h
    rcases hclear hun with hp | hactive
    · exact hstep.inactive (O.cleared hp q hq)
    · exact hactive
  stoppable q hq := by
    obtain ⟨hstep, _, _⟩ := Stopping.step_cases hq h
    exact hstep.stoppable (O.stoppable q hq) fun hun => O.cleared hun q hq

/-- With the flag cleared, each start of `find_jobs` uses up the thread's way to it. -/
theorem QueueStep.polling_le {c : Config} (h : QueueStep c q p e p')
    (hactive : (p.queue q).active = false) :
    (startsFindJobs q p p').toNat + (p'.system.pc q).polling ≤ (p.system.pc q).polling := by
  have hsame : p'.system.pc q = p.system.pc q →
      (startsFindJobs q p p').toNat + (p'.system.pc q).polling ≤ (p.system.pc q).polling := by
    intro hpc
    rw [startsFindJobs, hpc, Bool.and_not_self]
    exact Nat.le_of_eq (Nat.zero_add _)
  cases h with
  | other hqueue | sendWork hqueue | clear hqueue | stop hqueue =>
    have hpc := congrArg WorkQueue.pc hqueue
    exact hsame hpc
  | thread a sh he hstep => exact hstep.polling_le hactive

/-- A queue whose thread is not about to claim keeps its claims. -/
theorem QueueStep.claimsOf_eq {c : Config} (h : QueueStep c q p e p')
    (hpc : (p.system.pc q).starting = false) : p'.claimsOf q = p.claimsOf q := by
  cases h with
  | other _ hclaims | sendWork _ hclaims | clear _ hclaims | stop _ _ hclaims => exact hclaims
  | thread a sh he hstep hclaims =>
    rw [Stopping.claimsOf, hclaims, hstep.claims_eq hpc]
    rfl

/-- The step is a pop if it is one of the thread of queue `q`. -/
def StoppingEvent.onlyPops (q : ι) : StoppingEvent ι → Bool
  | .run (.thread r a) => r ≠ q ∨ a = .pop
  | _ => true

/-- Popping messages claims nothing. -/
theorem QueueStep.claimsOf_eq_of_pop {c : Config} (h : QueueStep c q p e p')
    (he : e.onlyPops q = true) : p'.claimsOf q = p.claimsOf q := by
  cases h with
  | other _ hclaims | sendWork _ hclaims | clear _ hclaims | stop _ _ hclaims => exact hclaims
  | thread a sh hthread hstep hclaims =>
    subst hthread
    obtain rfl : a = .pop := (of_decide_eq_true he).resolve_left fun hne => hne rfl
    rw [Stopping.claimsOf, hclaims, hstep.shared_eq_of_pop]
    rfl

theorem QueueStep.stopSeen_mono {c : Config} (h : QueueStep c q p e p')
    (hseen : p.stopSeen q = true) : p'.stopSeen q = true := by
  cases h with
  | other hqueue | sendWork hqueue | clear hqueue | stop hqueue =>
    have hs := congrArg WorkQueue.stopSeen hqueue
    exact hs.trans hseen
  | thread a sh he hstep => exact hstep.stopSeen_mono hseen

/-- Shutdown is bounded. In every state that a worker in operation reaches, each of its
threads starts at most one more `find_jobs` call once `m_active` is cleared and none once it
has popped its stop message, and the tokens popped together with the stop message claim no
row, however the run goes on. -/
theorem shutdown_bounded {p₀ : Stopping ι} {es₀ : List (StoppingEvent ι)}
    (hop : Operating threads p₀) (hrun : exec (Stopping.step cfg threads) p₀ es₀ = some p)
    (hq : q ∈ threads) :
    (p.unstopped ≠ none → ∀ es,
      countSteps (Stopping.step cfg threads) (startsFindJobs q) p es ≤ 1) ∧
    (p.stopSeen q = true → ∀ es,
      countSteps (Stopping.step cfg threads) (startsFindJobs q) p es = 0) ∧
    (∀ es es' t u, (∀ e ∈ es, e.onlyPops q = true) →
      exec (Stopping.step cfg threads) p es = some t → t.stopSeen q = true →
      exec (Stopping.step cfg threads) t es' = some u → u.claimsOf q = p.claimsOf q) := by
  have horderly : ∀ {p p' : Stopping ι} {es}, Orderly threads p →
      exec (Stopping.step cfg threads) p es = some p' → Orderly threads p' := fun O h =>
    exec_invariant (fun _ _ _ O hstep => O.step hstep) O h
  have O := horderly hop.orderly hrun
  have hstarts : (p.queue q).active = false → ∀ es, countSteps (Stopping.step cfg threads)
      (startsFindJobs q) p es ≤ (p.system.pc q).polling := by
    intro hactive es
    refine countSteps_le (fun p : Stopping ι => (p.queue q).active = false)
      (fun p => (p.system.pc q).polling) ?_ hactive es
    intro p e p' hactive hstep
    obtain ⟨hcases, _⟩ := Stopping.step_cases hq hstep
    exact ⟨hcases.inactive hactive, hcases.polling_le hactive⟩
  refine ⟨?_, ?_, ?_⟩
  · intro hun es
    refine (hstarts (O.cleared hun q hq) es).trans ?_
    cases p.system.pc q <;> simp [Pc.polling]
  · intro hseen es
    have hle := hstarts ((O.stoppable q hq).inactive (Or.inr hseen)) es
    rw [(O.done hq hseen).2] at hle
    exact Nat.le_zero.mp hle
  · intro es es' t u hpops ht hseen hu
    have hbatch : t.claimsOf q = p.claimsOf q :=
      exec_preserves (C := fun _ e => e.onlyPops q = true)
        (P := fun t => t.claimsOf q = p.claimsOf q)
        (fun _ _ _ he hP hstep =>
          ((Stopping.step_cases hq hstep).1.claimsOf_eq_of_pop he).trans hP)
        (allSteps_of_forall hpops p) rfl ht
    have hrest : Orderly threads u ∧ u.stopSeen q = true ∧ u.claimsOf q = t.claimsOf q := by
      refine exec_invariant (P := fun u => Orderly threads u ∧ u.stopSeen q = true ∧
        u.claimsOf q = t.claimsOf q) ?_ ⟨horderly O ht, hseen, rfl⟩ hu
      rintro v e v' ⟨O, hseen, hclaims⟩ hstep
      obtain ⟨hcases, _⟩ := Stopping.step_cases hq hstep
      exact ⟨O.step hstep, hcases.stopSeen_mono hseen,
        (hcases.claimsOf_eq (O.done hq hseen).1).trans hclaims⟩
    exact hrest.2.2.trans hbatch

end Process

/-- A thread waits in its pop when the flag falls, with a token and then the stop message in
its queue: it pops both and starts no call any more. -/
theorem shutdown_bounded_one_token :
    ∃ p, exec (Stopping.step (fun _ : Unit => Config.runOnly) [()]) ⟨System.initial, none⟩
        [.run (.sendWork ()), .run (.thread () .check), .clear, .stop,
          .run (.thread () .pop), .run (.thread () .pop)] = some p ∧
      p.unstopped ≠ none ∧ p.stopSeen () = true ∧ ∀ es,
        countSteps (Stopping.step (fun _ => Config.runOnly) [()]) (startsFindJobs ()) p es = 0 := by
  have hop : Operating [()] (⟨System.initial, none⟩ : Stopping Unit) :=
    ⟨rfl, fun _ _ => ⟨List.not_mem_nil, rfl⟩⟩
  have hrun : (exec (Stopping.step (fun _ : Unit => Config.runOnly) [()]) ⟨System.initial, none⟩
      [.run (.sendWork ()), .run (.thread () .check), .clear, .stop,
        .run (.thread () .pop), .run (.thread () .pop)]).map
      (fun p => (p.unstopped, p.stopSeen ())) = some (some [], true) := by decide
  obtain ⟨p, hp, hend⟩ := Option.map_eq_some_iff.mp hrun
  obtain ⟨hun, hseen⟩ := Prod.mk.inj hend
  have hne : p.unstopped ≠ none := by
    rw [hun]
    exact Option.some_ne_none []
  exact ⟨p, hp, hne, hseen, (shutdown_bounded hop hp (List.mem_singleton_self ())).2.1 hseen⟩

end Workq.Worker
