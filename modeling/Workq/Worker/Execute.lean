import Workq.Worker.JobTypes
import Workq.Worker.Schedule

/-!
# The life of a worker process

After loading its jobs `Worker::execute` calls `run`, which starts the work threads and then
serves its channel until `on_signal_stop` has joined them; the job libraries are finalized and
closed when `run` returns. `run` also returns when a thread cannot be started, and then nobody
stops or joins the threads started before it: they go on with the code of the jobs while it is
unloaded under them.
-/

namespace Workq.Worker

open Workq.Core Workq.Jobs

variable {ι κ : Type*}

/-- A worker process when it calls `run`. -/
structure Launch (ι κ : Type*) where
  threads : List ι
  nodup : threads.Nodup
  nonempty : threads ≠ []
  /-- Whether `initialize` and `g_thread_create` succeed for a thread. -/
  starts : ι → Bool
  /-- `job_modules`. -/
  modules : List (Option (Library κ))

/-- Where the main thread is. -/
inductive Stage (ι : Type*) where
  /-- In the loop of `run` over the threads still to be started. -/
  | starting (rest : List ι)
  /-- In `ev_loop`. -/
  | looping
  /-- In `shutdown`, with the threads still to be joined; `lost` if the parent went down. -/
  | joining (lost : Bool) (rest : List ι)
  /-- In the last loop of `execute`, at an index of `job_modules`. -/
  | unloading (i : Nat)
  | exited (success : Bool)
  deriving DecidableEq

/-- What `execute` does to a job library when `run` has returned. -/
inductive ModuleCall where
  | finalize (i : Nat)
  | close (i : Nat)
  deriving DecidableEq, Repr

/-- The process with the system that its threads are part of. -/
structure Process (ι : Type*) where
  system : System ι
  stage : Stage ι
  /-- The threads that `g_thread_create` has started. -/
  started : List ι
  calls : List ModuleCall

/-- What can happen next. -/
inductive ProcessEvent (ι : Type*) where
  /-- A client, or another process. -/
  | other (e : Event ι)
  | thread (q : ι) (a : Action)
  /-- The main thread's next step outside of `ev_loop`. -/
  | main
  | onIoWork (bytes : Int)
  | onSignalStop

/-- The queue that an event is about. -/
def Event.queue? : Event ι → Option ι
  | .insert _ _ _ => none
  | .sendWork q | .sendStop q | .clearActive q | .thread q _ => some q

/-- The calls for one entry of `job_modules`; `g_module_symbol` and `g_module_close` do
nothing with NULL. -/
def unloadCalls (i : Nat) : Option (Library κ) → List ModuleCall
  | none => []
  | some lib => (if lib.hasFinalize then [.finalize i] else []) ++ [.close i]

/-- The main thread outside of `ev_loop`. -/
def Process.main (w : Launch ι κ) (p : Process ι) : Option (Process ι) :=
  match p.stage with
  | .starting [] => some { p with stage := .looping }
  | .starting (q :: rest) =>
    if w.starts q then some { p with stage := .starting rest, started := p.started ++ [q] }
    else some { p with stage := .unloading 0 }
  | .looping => none
  | .joining lost [] =>
    -- `on_io_work` ends with `exit(EXIT_FAILURE)`, `on_signal_stop` goes back to `run`
    some { p with stage := if lost then .exited false else .unloading 0 }
  | .joining lost (q :: rest) =>
    if p.system.pc q = .exited then some { p with stage := .joining lost rest } else none
  | .unloading i =>
    match w.modules[i]? with
    | none => some { p with stage := .exited true }
    | some m => some { p with stage := .unloading (i + 1), calls := p.calls ++ unloadCalls i m }
  | .exited _ => none

section Step

variable [DecidableEq ι]

/-- `m_threads` of the worker. -/
def Launch.pool (w : Launch ι κ) (s : System ι) : Pool where
  threads := w.threads.map s.queues
  nonempty := by
    rw [ne_eq, List.map_eq_nil_iff]
    exact w.nonempty

/-- The system after the main thread has touched its threads. -/
def Launch.setPool (w : Launch ι κ) (s : System ι) (p : Pool) : System ι :=
  { s with queues := fun q => p.threads[w.threads.idxOf q]?.getD (s.queues q) }

/-- One event of the process and what is around it. -/
def Process.step (cfg : ι → Config) (w : Launch ι κ) (p : Process ι) :
    ProcessEvent ι → Option (Process ι)
  | .other e =>
    if ∃ q ∈ w.threads, e.queue? = some q then none
    else (looseStep cfg p.system e).map fun s => { p with system := s }
  | .thread q a =>
    match p.stage with
    | .exited _ => none
    | _ =>
      if q ∈ p.started then
        (looseStep cfg p.system (.thread q a)).map fun s => { p with system := s }
      else none
  | .main => p.main w
  | .onIoWork bytes =>
    -- what `read` can return for the 80 bytes it asks for
    if p.stage = .looping ∧ -1 ≤ bytes ∧ bytes ≤ 80 then
      let (pool, alive) := (w.pool p.system).onIoWork bytes
      some { p with
        system := w.setPool p.system pool
        stage := if alive then .looping else .joining true w.threads }
    else none
  | .onSignalStop =>
    if p.stage = .looping then
      some { p with
        system := w.setPool p.system (w.pool p.system).shutdown
        stage := .joining false w.threads }
    else none

end Step

/-- The process at its call of `run`. -/
def Process.launch (w : Launch ι κ) (s : System ι) : Process ι :=
  ⟨s, .starting w.threads, [], []⟩

section Pools

variable {w : Launch ι κ} {s : System ι}

theorem Pool.pcs_schedule (p : Pool) :
    p.schedule.threads.map WorkQueue.pc = p.threads.map WorkQueue.pc := by
  apply List.ext_getElem?
  intro i
  rw [List.getElem?_map, List.getElem?_map, p.getElem?_schedule]
  split
  · rw [Option.map_map]
    rfl
  · rfl

theorem Pool.pcs_shutdown (p : Pool) :
    p.shutdown.threads.map WorkQueue.pc = p.threads.map WorkQueue.pc := by
  rw [Pool.shutdown, List.map_map]
  rfl

/-- The handler of the channel moves no thread. -/
theorem Pool.pcs_onIoWork (p : Pool) (bytes : Int) :
    (p.onIoWork bytes).1.threads.map WorkQueue.pc = p.threads.map WorkQueue.pc := by
  have hschedules : ∀ n (p : Pool), (Pool.schedule^[n] p).threads.map WorkQueue.pc =
      p.threads.map WorkQueue.pc := by
    intro n
    induction n with
    | zero => exact fun _ => rfl
    | succ n ih =>
      intro p
      rw [Function.iterate_succ_apply, ih, p.pcs_schedule]
  unfold Pool.onIoWork
  split
  · rw [Pool.pcs_shutdown, Pool.pcs_schedule]
  · rw [hschedules, Pool.pcs_schedule]

/-- The main thread moves no thread. -/
theorem Launch.pc_setPool [DecidableEq ι] {p : Pool}
    (hp : p.threads.map WorkQueue.pc = (w.pool s).threads.map WorkQueue.pc) :
    (w.setPool s p).pc = s.pc := by
  funext q
  have hget := congrArg (fun l : List Pc => l[w.threads.idxOf q]?) hp
  simp only [Launch.pool, List.getElem?_map, Option.map_map] at hget
  simp only [System.pc, Launch.setPool]
  cases hq : p.threads[w.threads.idxOf q]? with
  | none => rfl
  | some wq =>
    rw [hq, Option.map_some] at hget
    obtain ⟨q', hq', hpc⟩ := Option.map_eq_some_iff.mp hget.symm
    obtain ⟨hlt, rfl⟩ := List.getElem?_eq_some_iff.mp hq'
    rw [List.getElem_idxOf] at hpc
    exact hpc.symm

end Pools

/-- A thread that has exited takes no step. -/
theorem ThreadStep.pc_ne_exited {c : Config} {q : ι} {sh sh' : Shared ι} {wq wq' : WorkQueue}
    {a : Action} (h : ThreadStep c q sh wq a sh' wq') : wq.pc ≠ .exited := by
  cases h <;> simp only [*, ne_eq, reduceCtorEq, not_false_eq_true]

/-- Everything the main thread can do outside of `ev_loop`. -/
inductive MainStep (w : Launch ι κ) (p : Process ι) : Process ι → Prop
  | loop (hstage : p.stage = .starting []) : MainStep w p { p with stage := .looping }
  | start (q : ι) (rest : List ι) (hstage : p.stage = .starting (q :: rest))
      (hq : w.starts q = true) :
      MainStep w p { p with stage := .starting rest, started := p.started ++ [q] }
  /-- `run` returns 1. -/
  | giveUp (q : ι) (rest : List ι) (hstage : p.stage = .starting (q :: rest))
      (hq : w.starts q = false) : MainStep w p { p with stage := .unloading 0 }
  | joined (lost : Bool) (hstage : p.stage = .joining lost []) :
      MainStep w p { p with stage := if lost then .exited false else .unloading 0 }
  | join (lost : Bool) (q : ι) (rest : List ι) (hstage : p.stage = .joining lost (q :: rest))
      (hq : p.system.pc q = .exited) : MainStep w p { p with stage := .joining lost rest }
  | unload (i : Nat) (m : Option (Library κ)) (hstage : p.stage = .unloading i)
      (hm : w.modules[i]? = some m) :
      MainStep w p { p with stage := .unloading (i + 1), calls := p.calls ++ unloadCalls i m }
  | exit (i : Nat) (hstage : p.stage = .unloading i) (hi : w.modules[i]? = none) :
      MainStep w p { p with stage := .exited true }

theorem Process.main_cases {w : Launch ι κ} {p p' : Process ι} (h : p.main w = some p') :
    MainStep w p p' := by
  unfold Process.main at h
  split at h
  case h_1 hstage =>
    obtain rfl := Option.some.inj h
    exact .loop hstage
  case h_2 q rest hstage =>
    split at h
    · obtain rfl := Option.some.inj h
      exact .start q rest hstage ‹_›
    · rename_i hq
      obtain rfl := Option.some.inj h
      exact .giveUp q rest hstage (Bool.eq_false_of_not_eq_true hq)
  case h_4 lost hstage =>
    obtain rfl := Option.some.inj h
    exact .joined lost hstage
  case h_5 lost q rest hstage =>
    split at h
    · obtain rfl := Option.some.inj h
      exact .join lost q rest hstage ‹_›
    · contradiction
  case h_6 i hstage =>
    split at h
    · obtain rfl := Option.some.inj h
      exact .exit i hstage ‹_›
    · obtain rfl := Option.some.inj h
      exact .unload i _ hstage ‹_›
  case h_3 | h_7 => contradiction

section Steps

variable [DecidableEq ι] {cfg : ι → Config} {w : Launch ι κ} {p p' : Process ι}
  {e : ProcessEvent ι}

/-- A thread that has exited stays so. -/
theorem exited_step {s t : System ι} {e : Event ι} {q : ι} (h : looseStep cfg s e = some t)
    (hq : s.pc q = .exited) : t.pc q = .exited := by
  by_cases he : e.actor = some q
  · cases e with
    | thread q' a =>
      obtain rfl := Option.some.inj he
      obtain ⟨sh, wq, hstep, _⟩ := looseStep_thread h
      exact absurd hq hstep.pc_ne_exited
    | insert | sendWork | sendStop | clearActive => contradiction
  · rw [pc_foreign_looseStep h he, hq]

/-- Everything an event of the process can do. -/
inductive ProcessMove (cfg : ι → Config) (w : Launch ι κ) (p : Process ι) :
    ProcessEvent ι → Process ι → Prop
  | system (e : ProcessEvent ι) (e' : Event ι) (s : System ι)
      (hevent : e = .other e' ∨ ∃ q a, e = .thread q a ∧ e' = .thread q a ∧ q ∈ p.started)
      (hstep : looseStep cfg p.system e' = some s) :
      ProcessMove cfg w p e { p with system := s }
  | main (p' : Process ι) (hmain : MainStep w p p') : ProcessMove cfg w p .main p'
  | onIoWork (bytes : Int) (hlooping : p.stage = .looping) :
      ProcessMove cfg w p (.onIoWork bytes)
        { p with
          system := w.setPool p.system ((w.pool p.system).onIoWork bytes).1
          stage := if ((w.pool p.system).onIoWork bytes).2 then .looping
            else .joining true w.threads }
  | onSignalStop (hlooping : p.stage = .looping) :
      ProcessMove cfg w p .onSignalStop
        { p with
          system := w.setPool p.system (w.pool p.system).shutdown
          stage := .joining false w.threads }

theorem Process.step_moves (h : p.step cfg w e = some p') : ProcessMove cfg w p e p' := by
  cases e with
  | other e =>
    simp only [Process.step] at h
    split at h
    · contradiction
    · obtain ⟨s, hs, rfl⟩ := Option.map_eq_some_iff.mp h
      exact .system _ e s (Or.inl rfl) hs
  | thread q a =>
    simp only [Process.step] at h
    split at h
    · contradiction
    · split at h
      · obtain ⟨s, hs, rfl⟩ := Option.map_eq_some_iff.mp h
        exact .system _ (.thread q a) s (Or.inr ⟨q, a, rfl, rfl, ‹_›⟩) hs
      · contradiction
  | main => exact .main p' (Process.main_cases h)
  | onIoWork bytes =>
    simp only [Process.step] at h
    split at h
    · rename_i hlooping
      obtain rfl := Option.some.inj h
      exact .onIoWork bytes hlooping.1
    · contradiction
  | onSignalStop =>
    simp only [Process.step] at h
    split at h
    · obtain rfl := Option.some.inj h
      exact .onSignalStop ‹_›
    · contradiction

/-- What a step of the process does to the database and the threads is an event of the system,
or nothing. -/
theorem Process.system_cases (h : p.step cfg w e = some p') :
    (p'.system.shared = p.system.shared ∧ p'.system.pc = p.system.pc) ∨
      ∃ e', looseStep cfg p.system e' = some p'.system ∧
        (e = .other e' ∨ ∃ q a, e = .thread q a ∧ e' = .thread q a ∧ q ∈ p.started) := by
  cases Process.step_moves h with
  | system e e' s hevent hstep => exact Or.inr ⟨e', hstep, hevent⟩
  | main p' hmain => exact Or.inl (by cases hmain <;> exact ⟨rfl, rfl⟩)
  | onIoWork bytes hlooping =>
    exact Or.inl ⟨rfl, Launch.pc_setPool ((w.pool p.system).pcs_onIoWork bytes)⟩
  | onSignalStop hlooping => exact Or.inl ⟨rfl, Launch.pc_setPool (w.pool p.system).pcs_shutdown⟩

/-- No step of the process brings a thread back. -/
theorem Process.exited_step (h : p.step cfg w e = some p') {q : ι} (hq : p.system.pc q = .exited) :
    p'.system.pc q = .exited := by
  rcases Process.system_cases h with ⟨_, hpc⟩ | ⟨e', hstep, _⟩
  · rw [hpc, hq]
  · exact Worker.exited_step hstep hq

/-- Everything a step of the process can do. -/
inductive ProcessStep (w : Launch ι κ) (p p' : Process ι) : Prop
  /-- The system moves on and no thread comes back. -/
  | run (hstage : p'.stage = p.stage) (hstarted : p'.started = p.started)
      (hcalls : p'.calls = p.calls)
      (hexited : ∀ q, p.system.pc q = .exited → p'.system.pc q = .exited)
  /-- A handler of the event loop, which the worker may leave to join its threads. -/
  | handle (hlooping : p.stage = .looping)
      (hstage : p'.stage = .looping ∨ ∃ lost, p'.stage = .joining lost w.threads)
      (hstarted : p'.started = p.started) (hcalls : p'.calls = p.calls)
  | main (h : MainStep w p p')

theorem Process.step_cases (h : p.step cfg w e = some p') : ProcessStep w p p' := by
  cases Process.step_moves h with
  | system e e' s hevent hstep => exact .run rfl rfl rfl fun q => Worker.exited_step hstep
  | main p' hmain => exact .main hmain
  | onIoWork bytes hlooping =>
    refine .handle hlooping ?_ rfl rfl
    dsimp only
    split
    · exact Or.inl rfl
    · exact Or.inr ⟨true, rfl⟩
  | onSignalStop hlooping => exact .handle hlooping (Or.inr ⟨false, rfl⟩) rfl rfl

end Steps

/-- The calls for a whole list of modules. -/
def allUnloadCalls : Nat → List (Option (Library κ)) → List ModuleCall
  | _, [] => []
  | i, m :: ms => unloadCalls i m ++ allUnloadCalls (i + 1) ms

/-- What the main thread has done when it is at a stage. -/
def Arrived (w : Launch ι κ) (p : Process ι) : Stage ι → Prop
  | .starting rest =>
    p.calls = [] ∧ p.started ++ rest = w.threads ∧ ∀ q ∈ p.started, w.starts q = true
  | .looping => p.calls = [] ∧ p.started = w.threads
  | .joining _ rest => p.calls = [] ∧ ∀ q ∈ p.started, q ∈ rest ∨ p.system.pc q = .exited
  | .unloading i =>
    p.calls ++ allUnloadCalls i (w.modules.drop i) = allUnloadCalls 0 w.modules
  | .exited success => p.calls = if success then allUnloadCalls 0 w.modules else []

/-- The main thread is past its threads. -/
def Stage.past : Stage ι → Bool
  | .unloading _ | .exited _ => true
  | _ => false

section Invariant

variable {w : Launch ι κ} {p p' : Process ι}

/-- The main thread gets to its next stage with what it needs there. -/
theorem Arrived.main (A : Arrived w p p.stage) (h : MainStep w p p') : Arrived w p' p'.stage := by
  cases h with
  | loop hstage =>
    rw [hstage] at A
    exact ⟨A.1, by rw [← A.2.1, List.append_nil]⟩
  | start q rest hstage hq =>
    rw [hstage] at A
    obtain ⟨hcalls, hthreads, hstarts⟩ := A
    refine ⟨hcalls, by rw [← hthreads, List.append_assoc]; rfl, ?_⟩
    intro q' hq'
    rcases List.mem_append.mp hq' with hq' | hq'
    · exact hstarts q' hq'
    · rw [List.mem_singleton.mp hq', hq]
  | giveUp q rest hstage hq =>
    rw [hstage] at A
    simp only [Arrived, A.1, List.drop_zero, List.nil_append]
  | joined lost hstage =>
    rw [hstage] at A
    cases lost with
    | true => exact A.1
    | false =>
      simp only [Arrived, A.1, List.drop_zero, List.nil_append, Bool.false_eq_true, if_false]
  | join lost q rest hstage hq =>
    rw [hstage] at A
    refine ⟨A.1, ?_⟩
    intro q' hq'
    rcases A.2 q' hq' with hmem | hpc
    · rcases List.mem_cons.mp hmem with rfl | hmem
      · exact Or.inr hq
      · exact Or.inl hmem
    · exact Or.inr hpc
  | unload i m hstage hm =>
    rw [hstage] at A
    obtain ⟨hlt, rfl⟩ := List.getElem?_eq_some_iff.mp hm
    simp only [Arrived, List.drop_eq_getElem_cons hlt, allUnloadCalls] at A
    simpa only [Arrived, List.append_assoc] using A
  | exit i hstage hi =>
    rw [hstage] at A
    have hdrop : w.modules.drop i = [] :=
      List.drop_eq_nil_iff.mpr (List.getElem?_eq_none_iff.mp hi)
    simpa only [Arrived, hdrop, allUnloadCalls, List.append_nil, if_true] using A

/-- Once the libraries are being unloaded every thread has exited. -/
def Joined (p : Process ι) : Prop :=
  p.stage.past = true → ∀ q ∈ p.started, p.system.pc q = .exited

/-- Every thread starts, or already the first one fails. -/
def Launch.Whole (w : Launch ι κ) : Prop :=
  (∀ q ∈ w.threads, w.starts q = true) ∨ ∃ q rest, w.threads = q :: rest ∧ w.starts q = false

/-- In a whole launch no thread runs when one fails to start. -/
theorem Launch.Whole.started_eq_nil (hw : w.Whole) {started rest : List ι} {q : ι}
    (hthreads : started ++ q :: rest = w.threads) (hstarts : ∀ q ∈ started, w.starts q = true)
    (hq : w.starts q = false) : started = [] := by
  rcases hw with hall | ⟨q₀, rest₀, hw, hq₀⟩
  · have hmem : q ∈ w.threads := by
      rw [← hthreads]
      exact List.mem_append_right _ (List.mem_cons_self ..)
    rw [hall q hmem] at hq
    contradiction
  · cases started with
    | nil => rfl
    | cons q' started =>
      rw [hw, List.cons_append, List.cons.injEq] at hthreads
      have hstart := hstarts q' (List.mem_cons_self ..)
      rw [hthreads.1, hq₀] at hstart
      contradiction

/-- In a whole launch the main thread goes past joined threads only. -/
theorem Joined.main (hw : w.Whole) (A : Arrived w p p.stage) (J : Joined p)
    (h : MainStep w p p') : Joined p' := by
  intro hpast
  cases h with
  | loop | start | join => contradiction
  | giveUp q rest hstage hq =>
    rw [hstage] at A
    intro q' hq'
    rw [hw.started_eq_nil A.2.1 A.2.2 hq] at hq'
    contradiction
  | joined lost hstage =>
    rw [hstage] at A
    intro q hq
    exact (A.2 q hq).resolve_left List.not_mem_nil
  | unload i m hstage hm | exit i hstage hi => exact J (by rw [hstage]; rfl)

/-- Libraries are unloaded by a main thread that is past its threads. -/
theorem Arrived.past_of_calls (A : Arrived w p p.stage) (hcalls : p.calls ≠ []) :
    p.stage.past = true := by
  cases hstage : p.stage with
  | starting rest | looping | joining lost rest =>
    rw [hstage] at A
    exact absurd A.1 hcalls
  | unloading i | exited success => rfl

theorem allUnloadCalls_eq_nil {ms : List (Option (Library κ))} (h : ∀ m ∈ ms, m = none)
    (i : Nat) : allUnloadCalls i ms = [] := by
  induction ms generalizing i with
  | nil => rfl
  | cons m ms ih =>
    rw [List.forall_mem_cons] at h
    rw [allUnloadCalls, h.1, ih h.2]
    rfl

/-- Without an open library nothing is unloaded. -/
theorem Arrived.calls_eq_nil (A : Arrived w p p.stage) (h : ∀ m ∈ w.modules, m = none) :
    p.calls = [] := by
  have hall := allUnloadCalls_eq_nil h 0
  cases hstage : p.stage with
  | starting rest | looping | joining lost rest =>
    rw [hstage] at A
    exact A.1
  | unloading i =>
    rw [hstage, Arrived, hall, List.append_eq_nil_iff] at A
    exact A.1
  | exited success =>
    rw [hstage, Arrived, hall, ite_self] at A
    exact A

/-- The main thread stays where it is while no thread comes back. -/
theorem Arrived.run (A : Arrived w p p.stage) (hstage : p'.stage = p.stage)
    (hstarted : p'.started = p.started) (hcalls : p'.calls = p.calls)
    (hexited : ∀ q, p.system.pc q = .exited → p'.system.pc q = .exited) :
    Arrived w p' p'.stage := by
  rw [hstage]
  cases hp : p.stage with
  | starting rest | looping | unloading i | exited success =>
    rw [hp] at A
    simpa only [Arrived, hstarted, hcalls] using A
  | joining lost rest =>
    rw [hp] at A
    simp only [Arrived, hstarted, hcalls]
    exact ⟨A.1, fun q hq => (A.2 q hq).imp_right (hexited q)⟩

theorem Joined.run (J : Joined p) (hstage : p'.stage = p.stage)
    (hstarted : p'.started = p.started)
    (hexited : ∀ q, p.system.pc q = .exited → p'.system.pc q = .exited) : Joined p' := by
  intro hpast q hq
  rw [hstage] at hpast
  rw [hstarted] at hq
  exact hexited q (J hpast q hq)

end Invariant

section Runs

variable [DecidableEq ι] {cfg : ι → Config} {w : Launch ι κ} {p p' : Process ι}

/-- Every step keeps what the main thread has done. -/
theorem Arrived.step {e : ProcessEvent ι} (A : Arrived w p p.stage)
    (h : p.step cfg w e = some p') : Arrived w p' p'.stage := by
  cases Process.step_cases h with
  | run hstage hstarted hcalls hexited => exact A.run hstage hstarted hcalls hexited
  | handle hlooping hstage hstarted hcalls =>
    rw [hlooping] at A
    rcases hstage with hstage | ⟨lost, hstage⟩ <;> rw [hstage]
    · exact ⟨hcalls.trans A.1, hstarted.trans A.2⟩
    · refine ⟨hcalls.trans A.1, ?_⟩
      intro q hq
      rw [hstarted, A.2] at hq
      exact Or.inl hq
  | main hmain => exact A.main hmain

/-- In a whole launch every step leaves the libraries to the threads. -/
theorem Joined.step {e : ProcessEvent ι} (hw : w.Whole) (A : Arrived w p p.stage) (J : Joined p)
    (h : p.step cfg w e = some p') : Joined p' := by
  cases Process.step_cases h with
  | run hstage hstarted hcalls hexited => exact J.run hstage hstarted hexited
  | handle hlooping hstage hstarted hcalls =>
    intro hpast
    rcases hstage with hstage | ⟨lost, hstage⟩ <;> rw [hstage] at hpast <;> contradiction
  | main hmain => exact J.main hw A hmain

/-- A main thread that has exited stays so. -/
theorem Process.gone_step {e : ProcessEvent ι} {success : Bool} (hp : p.stage = .exited success)
    (h : p.step cfg w e = some p') : p'.stage = .exited success := by
  cases Process.step_cases h with
  | run hstage hstarted hcalls hexited => rw [hstage, hp]
  | handle hlooping hstage hstarted hcalls =>
    rw [hp] at hlooping
    contradiction
  | main hmain => cases hmain <;> simp_all only [reduceCtorEq]

/-- The main thread only starts threads of its own. -/
theorem Process.started_step {e : ProcessEvent ι} (A : Arrived w p p.stage)
    (hown : ∀ q ∈ p.started, q ∈ w.threads) (h : p.step cfg w e = some p') :
    p.started ⊆ p'.started ∧ ∀ q ∈ p'.started, q ∈ w.threads := by
  cases Process.step_cases h with
  | run hstage hstarted hcalls hexited => exact ⟨hstarted ▸ List.Subset.refl _, hstarted ▸ hown⟩
  | handle hlooping hstage hstarted hcalls =>
    exact ⟨hstarted ▸ List.Subset.refl _, hstarted ▸ hown⟩
  | main hmain =>
    cases hmain with
    | start q rest hstage hq =>
      rw [hstage] at A
      refine ⟨List.subset_append_left _ _, ?_⟩
      intro q' hq'
      rcases List.mem_append.mp hq' with hq' | hq'
      · exact hown q' hq'
      · rw [List.mem_singleton.mp hq', ← A.2.1]
        exact List.mem_append_right _ (List.mem_cons_self ..)
    | loop | giveUp | joined | join | unload | exit => exact ⟨List.Subset.refl _, hown⟩

/-- The main thread starts the threads one by one. -/
theorem exec_starting {threads rest : List ι} (hstage : p.stage = .starting (threads ++ rest))
    (h : ∀ q ∈ threads, w.starts q = true) :
    exec (Process.step cfg w) p (List.replicate threads.length .main) =
      some { p with stage := .starting rest, started := p.started ++ threads } := by
  induction threads generalizing p with
  | nil =>
    rw [List.nil_append] at hstage
    rw [List.append_nil, ← hstage]
    rfl
  | cons q threads ih =>
    rw [List.forall_mem_cons] at h
    have hmain : p.step cfg w .main =
        some { p with stage := .starting (threads ++ rest), started := p.started ++ [q] } := by
      simp only [Process.step, Process.main, hstage, List.cons_append, h.1, if_true]
    rw [List.length_cons, List.replicate_succ, exec_cons, hmain, Option.bind_some, ih rfl h.2]
    simp only [List.append_assoc, List.singleton_append]

/-- The main thread gets to the first library that is open. -/
theorem exists_unload (cfg : ι → Config) {ms : List (Option (Library κ))} {i : Nat}
    (hstage : p.stage = .unloading i) (hms : w.modules.drop i = ms) (hopen : ∃ m ∈ ms, m ≠ none) :
    ∃ es p', exec (Process.step cfg w) p es = some p' ∧ p'.calls ≠ [] ∧
      p'.started = p.started ∧ p'.system = p.system := by
  induction ms generalizing p i with
  | nil =>
    obtain ⟨m, hm, _⟩ := hopen
    contradiction
  | cons m ms ih =>
    have hget : w.modules[i]? = some m := by
      rw [← Nat.add_zero i, ← List.getElem?_drop, hms]
      rfl
    have hmain : p.step cfg w .main =
        some { p with stage := .unloading (i + 1), calls := p.calls ++ unloadCalls i m } := by
      simp only [Process.step, Process.main, hstage, hget]
    cases m with
    | some lib =>
      have hrun : exec (Process.step cfg w) p [.main] = some { p with
          stage := .unloading (i + 1), calls := p.calls ++ unloadCalls i (some lib) } := by
        rw [exec_cons, hmain, Option.bind_some, exec_nil]
      refine ⟨[.main], _, hrun, ?_, rfl, rfl⟩
      simp [unloadCalls]
    | none =>
      have hrest : w.modules.drop (i + 1) = ms := by
        rw [← List.drop_drop, hms]
        rfl
      have hopen' : ∃ m ∈ ms, m ≠ none := by
        obtain ⟨m, hm, hne⟩ := hopen
        exact ⟨m, (List.mem_cons.mp hm).resolve_left hne, hne⟩
      obtain ⟨es, p', hrun, hcalls, hstarted, hsystem⟩ := ih (p :=
        { p with stage := .unloading (i + 1), calls := p.calls ++ unloadCalls i none })
        rfl hrest hopen'
      exact ⟨.main :: es, p', by rw [exec_cons, hmain]; exact hrun, hcalls, hstarted, hsystem⟩

/-- When a later thread cannot be started, the libraries are unloaded under the first one. -/
theorem exists_unload_under_thread (cfg : ι → Config) (s : System ι) {first q : ι}
    {before rest : List ι}
    (hthreads : w.threads = first :: before ++ q :: rest)
    (hbefore : ∀ q ∈ first :: before, w.starts q = true) (hq : w.starts q = false)
    (hopen : ∃ m ∈ w.modules, m ≠ none) :
    ∃ es p, exec (Process.step cfg w) (.launch w s) es = some p ∧ p.calls ≠ [] ∧
      first ∈ p.started ∧ p.system = s := by
  have hstart : exec (Process.step cfg w) (.launch w s)
      (List.replicate (first :: before).length .main) =
        some ⟨s, .starting (q :: rest), first :: before, []⟩ :=
    exec_starting (congrArg Stage.starting hthreads) hbefore
  have hgiveUp : Process.step cfg w ⟨s, .starting (q :: rest), first :: before, []⟩ .main =
      some ⟨s, .unloading 0, first :: before, []⟩ := by
    simp only [Process.step, Process.main, hq, Bool.false_eq_true, if_false]
  obtain ⟨es, p, hrun, hcalls, hstarted, hsystem⟩ :=
    exists_unload cfg (p := ⟨s, .unloading 0, first :: before, []⟩) rfl List.drop_zero hopen
  refine ⟨_, p, exec_append.mpr ⟨_, hstart, exec_cons_eq_some.mpr ⟨_, hgiveUp, hrun⟩⟩, hcalls,
    ?_, hsystem⟩
  rw [hstarted]
  exact List.mem_cons_self ..

/-- No job library is finalized or closed under a thread that runs, in any run of the worker
and of the processes around it, exactly if all its threads can be started, or already the
first one cannot, or no library was opened. -/
theorem modules_outlive_threads_iff (cfg : ι → Config) (w : Launch ι κ) {s : System ι}
    (hs : ∀ q ∈ w.threads, s.pc q = .head) :
    (∀ es p, exec (Process.step cfg w) (.launch w s) es = some p → p.calls ≠ [] →
        ∀ q ∈ p.started, p.system.pc q = .exited) ↔
      (∀ q ∈ w.threads, w.starts q = true) ∨
        (∃ q rest, w.threads = q :: rest ∧ w.starts q = false) ∨ ∀ m ∈ w.modules, m = none := by
  constructor
  · intro hsafe
    by_contra hcon
    simp only [not_or, not_exists, not_and, not_forall] at hcon
    obtain ⟨⟨q₀, hq₀, hfail₀⟩, hhead, m, hm, hopen⟩ := hcon
    -- the first thread that cannot be started, with those that run before it
    have hfind : (w.threads.find? fun q => !w.starts q).isSome := by
      rw [List.find?_isSome]
      exact ⟨q₀, hq₀, by simpa using hfail₀⟩
    obtain ⟨q, hq⟩ := Option.isSome_iff_exists.mp hfind
    obtain ⟨hfail, before, rest, hthreads, hbefore⟩ := List.find?_eq_some_iff_append.mp hq
    simp only [Bool.not_not, Bool.not_eq_true'] at hfail hbefore
    cases before with
    | nil => exact hhead q rest hthreads hfail
    | cons first before =>
      obtain ⟨es, p, hrun, hcalls, hmem, hsystem⟩ :=
        exists_unload_under_thread cfg s hthreads hbefore hfail ⟨m, hm, hopen⟩
      have hexited := hsafe es p hrun hcalls first hmem
      have hfirst : first ∈ w.threads := by
        rw [hthreads]
        exact List.mem_cons_self ..
      rw [hsystem, hs first hfirst] at hexited
      contradiction
  · intro hw es p hrun hcalls
    have hlaunch : Arrived w (.launch w s) (Process.launch w s).stage :=
      ⟨rfl, rfl, fun q hq => absurd hq List.not_mem_nil⟩
    have hstart : Joined (Process.launch w s) := fun hpast => by contradiction
    rcases or_assoc.mpr hw with hwhole | hnone
    · have hwhole : w.Whole := hwhole
      obtain ⟨A, J⟩ := exec_invariant (P := fun p => Arrived w p p.stage ∧ Joined p)
        (fun _ _ _ h hstep => ⟨h.1.step hstep, h.2.step hwhole h.1 hstep⟩) ⟨hlaunch, hstart⟩ hrun
      exact J (A.past_of_calls hcalls)
    · have A : Arrived w p p.stage := exec_invariant (P := fun p => Arrived w p p.stage)
        (fun _ _ _ A hstep => A.step hstep) hlaunch hrun
      exact absurd (A.calls_eq_nil hnone) hcalls

end Runs

/-- Two threads, of which the second cannot be started, and one library. -/
def halfLaunch : Launch Bool Unit where
  threads := [false, true]
  nodup := by decide
  nonempty := by decide
  starts q := !q
  modules := [none, some ⟨some (), true, true⟩]

/-- The library is unloaded under the first thread. -/
theorem modules_outlive_threads_iff_half :
    ∃ es p, exec (Process.step (fun _ => Config.runOnly) halfLaunch)
        (.launch halfLaunch System.initial) es = some p ∧ p.calls ≠ [] ∧
      ∃ q ∈ p.started, p.system.pc q ≠ .exited := by
  have hiff := modules_outlive_threads_iff (fun _ => Config.runOnly) halfLaunch
    (s := System.initial) (fun _ _ => rfl)
  have hnot : ¬ ((∀ q ∈ halfLaunch.threads, halfLaunch.starts q = true) ∨
      (∃ q rest, halfLaunch.threads = q :: rest ∧ halfLaunch.starts q = false) ∨
        ∀ m ∈ halfLaunch.modules, m = none) := by
    rintro (hall | ⟨q, rest, hthreads, hq⟩ | hnone)
    · exact absurd (hall true (by decide)) (by decide)
    · obtain ⟨rfl, _⟩ := List.cons.inj hthreads
      contradiction
    · exact Option.some_ne_none _ (hnone (some ⟨some (), true, true⟩) (by decide))
  rw [← hiff] at hnot
  simp only [not_forall] at hnot
  obtain ⟨es, p, hrun, hcalls, q, hq, hpc⟩ := hnot
  exact ⟨es, p, hrun, hcalls, q, hq, hpc⟩

end Workq.Worker
