import Mathlib.Data.Prod.Lex
import Workq.Server.Shutdown
import Workq.Worker.Progress

/-!
# The shutdown can always come to its end

Nothing that `Server::shutdown` waits for can hold it up for ever. The worker that it waits for
has caught the signal or is gone; a worker that has caught it comes out of its loop, joins its
threads, and each of them ends, since `m_active` is cleared before the first is joined. What is
still to be done is measured by the server's place in its loop, then by the main thread's stage,
then by the weight of the thread that is being joined.
-/

namespace Workq.Server

open Workq.Core Workq.Jobs Workq.Worker

variable {ω ι κ : Type*}

/-- A step of a worker that it takes without a message, its statements and creators
successful. -/
def ProcessEvent.Own : ProcessEvent ι → Prop
  | .main | .onSignalStop => True
  | .thread _ a => a.Succeeds
  | .other _ | .onIoWork _ => False

/-- A step of the server's loop, or one that a worker takes without a message. -/
def CrewEvent.Own : CrewEvent ω ι → Prop
  | .kill | .wait => True
  | .worker _ e => ProcessEvent.Own e
  | .insert _ _ _ | .signal _ _ | .shutdown => False

/-- The stages that the main thread has still to go through. -/
def stagesLeft (w : Launch ι κ) : Stage ι → Nat
  | .starting rest => rest.length + w.threads.length + w.modules.length + 5
  | .looping => w.threads.length + w.modules.length + 4
  | .joining _ rest => rest.length + w.modules.length + 3
  | .unloading i => w.modules.length - i + 1
  | .exited _ => 0

/-- What the thread that is being joined has still to do. -/
def joinLeft (s : System ι) : Stage ι → Nat
  | .joining _ (q :: _) => (s.queues q).weight
  | _ => 0

/-- What a worker has still to do before it is gone. -/
def Main.left (w : Launch ι κ) (s : System ι) (m : Main ι) : ℕ ×ₗ ℕ :=
  toLex (stagesLeft w m.stage, joinLeft s m.stage)

/-- The server's steps up to the end of its loop. -/
def ServerStage.left : ServerStage ω → Nat
  | .serving | .stopped => 0
  | .signalling rest => 2 * rest.length + 1
  | .waiting _ rest => 2 * rest.length + 2

/-- What is still to be done before the server has stopped. -/
def Crew.left (launch : ω → Launch ι κ) (c : Crew ω ι) : ℕ ×ₗ ℕ ×ₗ ℕ :=
  toLex (c.server.left, match c.server with
    | .waiting w _ => (c.workers w).left (launch w) c.system
    | _ => toLex (0, 0))

section Workers

variable [DecidableEq ι] {cfg : ι → Config} {w : Launch ι κ} {p p' : Worker.Process ι}
  {e : ProcessEvent ι} {m : Main ι} {s s' : System ι}

/-- `m_active` stays cleared. -/
theorem active_step {e : Event ι} (h : looseStep cfg s e = some s') {q : ι}
    (hoff : (s.queues q).active = false) : (s'.queues q).active = false :=
  ((weight_step h).2 hoff).1

/-- The main thread leaves the threads of other workers alone. -/
theorem queues_setPool_of_not_mem {p : Pool} (hp : p.threads.length = w.threads.length) {q : ι}
    (hq : q ∉ w.threads) : (w.setPool s p).queues q = s.queues q := by
  simp only [Launch.setPool, List.idxOf_eq_length hq, ← hp, List.getElem?_length,
    Option.getD_none]

/-- `Worker::shutdown` clears the flag of every thread. -/
theorem active_setPool {p : Pool} (hp : p.threads.length = w.threads.length) {q : ι}
    (hq : q ∈ w.threads) : ((w.setPool s p.shutdown).queues q).active = false := by
  have hlt : w.threads.idxOf q < p.threads.length := hp ▸ List.idxOf_lt_length_iff.mpr hq
  simp only [Launch.setPool, Pool.shutdown, List.getElem?_map, List.getElem?_eq_getElem hlt,
    Option.map_some, Option.getD_some]
  rfl

omit [DecidableEq ι] in
theorem length_pool (w : Launch ι κ) (s : System ι) :
    (w.pool s).threads.length = w.threads.length := List.length_map ..

/-- No step sets the flag of a thread, unless its worker is in its loop. -/
theorem Process.active_step (h : p.step cfg w e = some p') {q : ι}
    (hq : q ∉ w.threads ∨ p.stage ≠ .looping) (hoff : (p.system.queues q).active = false) :
    (p'.system.queues q).active = false := by
  cases Process.step_moves h with
  | system e e' s hevent hstep => exact Server.active_step hstep hoff
  | main p' hmain => cases hmain <;> exact hoff
  | onIoWork bytes hlooping =>
    have hlength := ((w.pool p.system).length_onIoWork bytes).trans (length_pool w p.system)
    rw [queues_setPool_of_not_mem hlength (hq.resolve_right (not_not_intro hlooping)), hoff]
  | onSignalStop hlooping =>
    have hlength := (w.pool p.system).length_shutdown.trans (length_pool w p.system)
    rw [queues_setPool_of_not_mem hlength (hq.resolve_right (not_not_intro hlooping)), hoff]

/-- The flags are cleared when the worker comes out of its loop. -/
theorem Process.cleared_step (h : p.step cfg w e = some p') (hlooping : p.stage = .looping)
    (hleft : p'.stage ≠ .looping) {q : ι} (hq : q ∈ w.threads) :
    (p'.system.queues q).active = false := by
  cases Process.step_moves h with
  | system e e' s hevent hstep => exact absurd hlooping hleft
  | main p' hmain => cases hmain <;> simp_all only [reduceCtorEq]
  | onIoWork bytes _ =>
    by_cases hend : bytes = -1 ∨ bytes = 0
    · have hlength := (w.pool p.system).length_schedule.trans (length_pool w p.system)
      simp only [Pool.onIoWork, if_pos hend]
      exact active_setPool hlength hq
    · simp only [Pool.onIoWork, if_neg hend, if_true, ne_eq, not_true_eq_false] at hleft
  | onSignalStop _ => exact active_setPool (length_pool w p.system) hq

end Workers

section Invariant

variable {w : Launch ι κ} {m : Main ι} {s s' : System ι}

/-- What holds of a worker in every run; the flag is cleared before the first join. -/
structure Main.Ending (w : Launch ι κ) (s : System ι) (m : Main ι) : Prop
    extends Main.Steady w s m where
  cleared : ∀ lost rest, m.stage = .joining lost rest → ∀ q ∈ w.threads,
    (s.queues q).active = false

theorem Main.Ending.start (w : Launch ι κ) (s : System ι) :
    Main.Ending w s ⟨.starting w.threads, [], [], false, false⟩ where
  toSteady := .start w s
  cleared lost rest hstage := by contradiction

/-- The rest of the daemon brings none of its threads back and sets none of its flags. -/
theorem Main.Ending.world (E : m.Ending w s)
    (hexited : ∀ q, s.pc q = .exited → s'.pc q = .exited)
    (hoff : ∀ q ∈ w.threads, (s.queues q).active = false → (s'.queues q).active = false) :
    m.Ending w s' where
  toSteady := E.toSteady.world hexited
  cleared lost rest hstage q hq := hoff q hq (E.cleared lost rest hstage q hq)

/-- A signal leaves the main thread where it is. -/
theorem Main.Ending.signal (E : m.Ending w s) (g : Signal) : (m.signal g).Ending w s where
  toSteady := E.toSteady.signal g
  cleared lost rest hstage := by
    rw [Main.stage_signal] at hstage
    exact E.cleared lost rest hstage

/-- A step of the worker itself. -/
theorem Main.Ending.step [DecidableEq ι] {cfg : ι → Config} {e : ProcessEvent ι}
    {p : Worker.Process ι} (E : m.Ending w s) (h : (m.process s).step cfg w e = some p) :
    (m.after p).Ending w p.system where
  toSteady := E.toSteady.step h
  cleared lost rest hstage q hq := by
    have hjoining : p.stage = .joining lost rest := hstage
    by_cases hlooping : m.stage = .looping
    · refine Process.cleared_step h hlooping ?_ hq
      rw [hjoining]
      exact nofun
    · have hbefore : ∃ rest', m.stage = .joining lost rest' := by
        cases Process.step_cases h with
        | run hsame => exact ⟨rest, hsame.symm.trans hjoining⟩
        | handle hloop => exact absurd hloop hlooping
        | main hmain =>
          cases hmain with
          | join lost' q' rest' hstage' hq' =>
            obtain ⟨rfl, rfl⟩ := Stage.joining.inj hjoining
            exact ⟨q' :: rest', hstage'⟩
          | joined lost' => cases lost' <;> contradiction
          | loop | start | giveUp | unload | exit => contradiction
      obtain ⟨rest', hbefore⟩ := hbefore
      exact Process.active_step h (Or.inr hlooping) (E.cleared lost rest' hbefore q hq)

end Invariant

section Runs

variable [DecidableEq ω] [DecidableEq ι] {cfg : ι → Config} {launch : ω → Launch ι κ}
  {pids : List ω} {c c' : Crew ω ι} {e : CrewEvent ω ι}

/-- The worker has been told to stop, or needs not. -/
def Main.Told (m : Main ι) : Prop := m.gone = true ∨ m.signalled = true

omit [DecidableEq ι] in
/-- A signal is caught or ends the process. -/
theorem Main.told_signal (m : Main ι) (g : Signal) : (m.signal g).Told := by
  unfold Main.signal
  split
  · exact Or.inl ‹_›
  · split
    · exact Or.inr rfl
    · exact Or.inl rfl

/-- A worker that has been told stays so. -/
theorem Crew.told_step (h : c.step cfg launch pids e = some c') {w : ω}
    (htold : (c.workers w).Told) : (c'.workers w).Told := by
  refine Crew.forall_workers_step (P := fun w _ m => (c.workers w).Told → m.Told)
    h ?_ ?_ ?_ ?_ ?_ w htold
  case refine_3 => exact fun w g _ _ => Main.told_signal _ g
  case refine_4 => exact fun w e p _ hstep => Or.imp_left (Main.gone_after hstep)
  all_goals exact fun _ => by simp only [imp_self, implies_true]

/-- What holds of the daemon in every run. -/
structure Crew.Ending (launch : ω → Launch ι κ) (c : Crew ω ι) : Prop where
  main : ∀ w, (c.workers w).Ending (launch w) c.system
  told : ∀ w rest, c.server = .waiting w rest → (c.workers w).Told

omit [DecidableEq ω] [DecidableEq ι] in
theorem Crew.Ending.start (launch : ω → Launch ι κ) (s : System ι) :
    (Crew.start launch s).Ending launch where
  main w := .start (launch w) s
  told w rest hserver := by contradiction

theorem Crew.Ending.step
    (hdisjoint : ∀ w w' q, q ∈ (launch w).threads → q ∈ (launch w').threads → w = w')
    (E : c.Ending launch) (h : c.step cfg launch pids e = some c') : c'.Ending launch where
  main := by
    refine Crew.forall_workers_step h E.main ?_ ?_ ?_ ?_
    · exact fun w id name data s hstep => (E.main w).world (fun q => Worker.exited_step hstep)
        fun q _ => active_step hstep
    · exact fun w g _ => (E.main w).signal g
    · exact fun w e p _ hstep => (E.main w).step hstep
    · intro w w' e p hw hstep
      refine (E.main w).world (fun q => Process.exited_step hstep) ?_
      exact fun q hq => Process.active_step hstep (Or.inl fun hq' => hw (hdisjoint w w' q hq hq'))
  told := by
    have hkeep : ∀ w rest, c.server = .waiting w rest → (c'.workers w).Told :=
      fun w rest hserver => Crew.told_step h (E.told w rest hserver)
    cases Crew.step_cases h with
    | insert | worker | signal => exact hkeep
    | shutdown | finish | wait =>
      intro w rest hserver
      contradiction
    | kill w rest hserver =>
      intro w' rest' hwaiting
      obtain ⟨rfl, rfl⟩ := ServerStage.waiting.inj hwaiting
      simp only [Crew.signal, Function.update_self]
      exact Main.told_signal _ _

end Runs

end Workq.Server
