import Workq.Worker.Execute
import Workq.Worker.Outcome

/-!
# The daemon goes down

`Server::shutdown` sends SIGUSR2 to one worker after the other and waits for each to be gone
before it turns to the next. A worker catches the signal only while it serves its loop: before
that, and again once `on_signal_stop` has stopped the watchers, the signal has its default
action, which ends the process with all its threads wherever they are; and so has every signal
but SIGUSR2 and SIGINT at any time. An orderly end leaves no claimed job halfway; a signal at
the wrong moment does, such as the server's after a Ctrl-C that had reached the workers too.
-/

namespace Workq.Server

open Workq.Core Workq.Jobs Workq.Worker

variable {ω ι κ : Type*}

/-- A signal to a worker. -/
inductive Signal where
  /-- SIGUSR2 or SIGINT, the signals that a worker watches. -/
  | watched
  /-- Any other signal whose default action ends a process. -/
  | fatal
  deriving DecidableEq, Repr

/-- A worker process: its main thread, and the signals that it got. -/
structure Main (ι : Type*) where
  stage : Worker.Stage ι
  started : List ι
  calls : List ModuleCall
  /-- A signal was caught. -/
  signalled : Bool
  /-- A signal has ended the process. -/
  killed : Bool

/-- Where the server is. -/
inductive ServerStage (ω : Type*) where
  | serving
  /-- In the loop of `shutdown`, with the workers still to be signalled. -/
  | signalling (rest : List ω)
  /-- In `waitpid`. -/
  | waiting (w : ω) (rest : List ω)
  | stopped
  deriving DecidableEq

/-- The server, its workers and the jobs table. -/
structure Crew (ω ι : Type*) where
  system : System ι
  workers : ω → Main ι
  server : ServerStage ω

/-- What can happen next. -/
inductive CrewEvent (ω ι : Type*) where
  /-- A client inserts a row. -/
  | insert (id : JobId) (name : List Char) (data : Option (List Char))
  | worker (w : ω) (e : ProcessEvent ι)
  /-- SIGINT from the terminal, or any signal sent by hand. -/
  | signal (w : ω) (g : Signal)
  /-- SIGTERM or SIGINT reaches the server. -/
  | shutdown
  /-- The server's next `kill`, or the end of its loop. -/
  | kill
  /-- `waitpid` returns. -/
  | wait

/-- The worker in the system of all. -/
def Main.process (m : Main ι) (s : System ι) : Worker.Process ι :=
  ⟨s, m.stage, m.started, m.calls⟩

/-- The worker after a step of its process. -/
def Main.after (m : Main ι) (p : Worker.Process ι) : Main ι :=
  { m with stage := p.stage, started := p.started, calls := p.calls }

/-- `waitpid` returns for the worker. -/
def Main.gone (m : Main ι) : Bool :=
  m.killed || match m.stage with
    | .exited _ => true
    | _ => false

/-- The signal is watched and its watcher is started; a worker that has lost its parent does
not come back to its loop, and a signal that it catches is lost. -/
def Main.catches (m : Main ι) (g : Signal) : Bool :=
  match g, m.stage with
  | .watched, .looping | .watched, .joining true _ => true
  | _, _ => false

/-- A signal is sent to the worker. -/
def Main.signal (m : Main ι) (g : Signal) : Main ι :=
  if m.gone then m
  else if m.catches g then { m with signalled := true }
  else { m with killed := true }

/-- The events that a worker process can have by itself. -/
def Main.allows (m : Main ι) : ProcessEvent ι → Bool
  | .other _ => false
  | .onSignalStop => !m.killed && m.signalled
  | _ => !m.killed

section Step

variable [DecidableEq ω]

/-- A signal is sent to a worker. -/
def Crew.signal (c : Crew ω ι) (w : ω) (g : Signal) : Crew ω ι :=
  { c with workers := Function.update c.workers w ((c.workers w).signal g) }

/-- A worker process has taken a step. -/
def Crew.setProcess (c : Crew ω ι) (w : ω) (p : Worker.Process ι) : Crew ω ι :=
  { c with system := p.system, workers := Function.update c.workers w ((c.workers w).after p) }

/-- One event. -/
def Crew.step [DecidableEq ι] (cfg : ι → Config) (launch : ω → Launch ι κ) (pids : List ω)
    (c : Crew ω ι) : CrewEvent ω ι → Option (Crew ω ι)
  | .insert id name data =>
    (looseStep cfg c.system (.insert id name data)).map fun s => { c with system := s }
  | .worker w e =>
    if (c.workers w).allows e then
      (((c.workers w).process c.system).step cfg (launch w) e).map (c.setProcess w)
    else none
  | .signal w g => some (c.signal w g)
  | .shutdown =>
    match c.server with
    | .serving => some { c with server := .signalling pids }
    | _ => none
  | .kill =>
    match c.server with
    | .signalling (w :: rest) => some { c.signal w .watched with server := .waiting w rest }
    | .signalling [] => some { c with server := .stopped }
    | _ => none
  | .wait =>
    match c.server with
    | .waiting w rest =>
      if (c.workers w).gone then some { c with server := .signalling rest } else none
    | _ => none

end Step

/-- The daemon when its workers call `run`. -/
def Crew.start (launch : ω → Launch ι κ) (s : System ι) : Crew ω ι :=
  ⟨s, fun w => ⟨.starting (launch w).threads, [], [], false, false⟩, .serving⟩

/-- The signal, sent to the worker now, ends no thread in the middle of its work. -/
def Main.Spared (s : System ι) (m : Main ι) (g : Signal) : Prop :=
  m.gone = true ∨ m.catches g = true ∨ ∀ q ∈ m.started, s.pc q = .exited

/-- The signal that an event sends, with its worker. -/
def Crew.target (c : Crew ω ι) : CrewEvent ω ι → Option (ω × Signal)
  | .signal w g => some (w, g)
  | .kill =>
    match c.server with
    | .signalling (w :: _) => some (w, .watched)
    | _ => none
  | _ => none

/-- The event sends no signal, or one that spares the threads. -/
def Crew.Spares (c : Crew ω ι) (e : CrewEvent ω ι) : Prop :=
  ∀ w g, c.target e = some (w, g) → (c.workers w).Spared c.system g

instance [DecidableEq ι] (s : System ι) (m : Main ι) (g : Signal) : Decidable (m.Spared s g) :=
  inferInstanceAs (Decidable (_ ∨ _ ∨ ∀ q ∈ m.started, s.pc q = .exited))

instance [DecidableEq ι] (c : Crew ω ι) (e : CrewEvent ω ι) : Decidable (c.Spares e) :=
  match h : c.target e with
  | none => isTrue fun w g hw => absurd (h.symm.trans hw) (Option.some_ne_none (w, g)).symm
  | some (w, g) => decidable_of_iff ((c.workers w).Spared c.system g)
    ⟨fun hspared _ _ hw => by cases h.symm.trans hw; exact hspared, fun hs => hs w g h⟩

/-- A worker is gone only when all its threads have exited. -/
def Crew.Finished (c : Crew ω ι) : Prop :=
  ∀ w, (c.workers w).gone = true → ∀ q ∈ (c.workers w).started, c.system.pc q = .exited

/-- Everything a step of the daemon can do. -/
inductive CrewStep [DecidableEq ω] [DecidableEq ι] (cfg : ι → Config) (launch : ω → Launch ι κ)
    (pids : List ω) (c : Crew ω ι) : CrewEvent ω ι → Crew ω ι → Prop
  | insert (id : JobId) (name : List Char) (data : Option (List Char)) (s : System ι)
      (hstep : looseStep cfg c.system (.insert id name data) = some s) :
      CrewStep cfg launch pids c (.insert id name data) { c with system := s }
  | worker (w : ω) (e : ProcessEvent ι) (p : Worker.Process ι)
      (hallows : (c.workers w).allows e = true)
      (hstep : ((c.workers w).process c.system).step cfg (launch w) e = some p) :
      CrewStep cfg launch pids c (.worker w e) (c.setProcess w p)
  | signal (w : ω) (g : Signal) : CrewStep cfg launch pids c (.signal w g) (c.signal w g)
  | shutdown (hserver : c.server = .serving) :
      CrewStep cfg launch pids c .shutdown { c with server := .signalling pids }
  | kill (w : ω) (rest : List ω) (hserver : c.server = .signalling (w :: rest)) :
      CrewStep cfg launch pids c .kill { c.signal w .watched with server := .waiting w rest }
  | finish (hserver : c.server = .signalling []) :
      CrewStep cfg launch pids c .kill { c with server := .stopped }
  | wait (w : ω) (rest : List ω) (hserver : c.server = .waiting w rest)
      (hgone : (c.workers w).gone = true) :
      CrewStep cfg launch pids c .wait { c with server := .signalling rest }

theorem Crew.step_cases [DecidableEq ω] [DecidableEq ι] {cfg : ι → Config}
    {launch : ω → Launch ι κ} {pids : List ω} {c c' : Crew ω ι} {e : CrewEvent ω ι}
    (h : c.step cfg launch pids e = some c') : CrewStep cfg launch pids c e c' := by
  cases e with
  | insert id name data =>
    obtain ⟨s, hs, rfl⟩ := Option.map_eq_some_iff.mp h
    exact .insert id name data s hs
  | worker w e =>
    simp only [Crew.step] at h
    split at h
    · obtain ⟨p, hp, rfl⟩ := Option.map_eq_some_iff.mp h
      exact .worker w e p ‹_› hp
    · contradiction
  | signal w g =>
    obtain rfl := Option.some.inj h
    exact .signal w g
  | shutdown =>
    simp only [Crew.step] at h
    split at h
    · obtain rfl := Option.some.inj h
      exact .shutdown ‹_›
    · contradiction
  | kill =>
    simp only [Crew.step] at h
    split at h
    · obtain rfl := Option.some.inj h
      exact .kill _ _ ‹_›
    · obtain rfl := Option.some.inj h
      exact .finish ‹_›
    · contradiction
  | wait =>
    simp only [Crew.step] at h
    split at h
    · split at h
      · obtain rfl := Option.some.inj h
        exact .wait _ _ ‹_› ‹_›
      · contradiction
    · contradiction

section Workers

variable {w : Launch ι κ} {m : Main ι} {s s' : System ι}

/-- The main thread joins threads that it has started. -/
def Joining (p : Worker.Process ι) : Prop :=
  match p.stage with
  | .joining _ rest => rest ⊆ p.started
  | _ => True

theorem Joining.step [DecidableEq ι] {cfg : ι → Config} {e : ProcessEvent ι}
    {p p' : Worker.Process ι} (A : Arrived w p p.stage) (J : Joining p)
    (h : p.step cfg w e = some p') : Joining p' := by
  unfold Joining at J ⊢
  cases Process.step_cases h with
  | run hstage hstarted hcalls hexited =>
    rw [hstage, hstarted]
    exact J
  | handle hlooping hstage hstarted hcalls =>
    rw [hlooping] at A
    rcases hstage with hstage | ⟨lost, hstage⟩ <;> rw [hstage]
    · trivial
    · rw [hstarted, A.2]
      exact List.Subset.refl _
  | main hmain =>
    cases hmain with
    | join lost q rest hstage hq =>
      rw [hstage] at J
      exact fun q' hq' => J (List.mem_cons_of_mem q hq')
    | joined lost hstage => cases lost <;> trivial
    | loop | start | giveUp | unload | exit => trivial

/-- What holds of a worker in every run. -/
structure Main.Steady (w : Launch ι κ) (s : System ι) (m : Main ι) : Prop where
  arrived : Arrived w (m.process s) m.stage
  staff : ∀ q ∈ m.started, q ∈ w.threads
  joining : Joining (m.process s)

/-- What holds of a worker whose threads are spared: it goes past its threads, and is gone, only
after they have exited. -/
structure Main.Sound (w : Launch ι κ) (s : System ι) (m : Main ι) : Prop
    extends Main.Steady w s m where
  joined : Joined (m.process s)
  finished : m.gone = true → ∀ q ∈ m.started, s.pc q = .exited

theorem Main.Steady.start (w : Launch ι κ) (s : System ι) :
    Main.Steady w s ⟨.starting w.threads, [], [], false, false⟩ where
  arrived := ⟨rfl, rfl, fun _ hq => absurd hq List.not_mem_nil⟩
  staff _ hq := absurd hq List.not_mem_nil
  joining := trivial

theorem Main.Sound.start (w : Launch ι κ) (s : System ι) :
    Main.Sound w s ⟨.starting w.threads, [], [], false, false⟩ where
  toSteady := .start w s
  joined hpast := by contradiction
  finished _ q hq := absurd hq List.not_mem_nil

/-- The rest of the daemon brings none of its threads back. -/
theorem Main.Steady.world (S : m.Steady w s)
    (hexited : ∀ q, s.pc q = .exited → s'.pc q = .exited) : m.Steady w s' where
  arrived :=
    S.arrived.run (rfl : (m.process s').stage = (m.process s).stage) rfl rfl hexited
  staff := S.staff
  joining := S.joining

theorem Main.Sound.world (S : m.Sound w s)
    (hexited : ∀ q, s.pc q = .exited → s'.pc q = .exited) : m.Sound w s' where
  toSteady := S.toSteady.world hexited
  joined := S.joined.run (rfl : (m.process s').stage = (m.process s).stage) rfl hexited
  finished hgone q hq := hexited q (S.finished hgone q hq)

/-- The main thread is past its threads when its process exits. -/
theorem Main.past_of_gone (hkilled : m.killed = false) (hgone : m.gone = true) :
    m.stage.past = true := by
  rw [Main.gone, hkilled, Bool.false_or] at hgone
  split at hgone
  · rename_i hstage
    rw [hstage]
    rfl
  · contradiction

theorem Main.allows_killed {e : ProcessEvent ι} (h : m.allows e = true) : m.killed = false := by
  cases e with
  | other e => contradiction
  | onSignalStop =>
    simp only [Main.allows, Bool.and_eq_true, Bool.not_eq_true'] at h
    exact h.1
  | thread q a | main | onIoWork bytes =>
    simpa only [Main.allows, Bool.not_eq_true'] using h

/-- A step of the worker itself. -/
theorem Main.Steady.step [DecidableEq ι] {cfg : ι → Config} {e : ProcessEvent ι}
    {p : Worker.Process ι} (S : m.Steady w s) (h : (m.process s).step cfg w e = some p) :
    (m.after p).Steady w p.system where
  arrived := S.arrived.step h
  staff := (Process.started_step S.arrived S.staff h).2
  joining := S.joining.step S.arrived h

theorem Main.Sound.step [DecidableEq ι] {cfg : ι → Config} {e : ProcessEvent ι}
    {p : Worker.Process ι} (hw : w.Whole) (S : m.Sound w s) (hallows : m.allows e = true)
    (h : (m.process s).step cfg w e = some p) : (m.after p).Sound w p.system where
  toSteady := S.toSteady.step h
  joined := S.joined.step hw S.arrived h
  finished hgone := S.joined.step hw S.arrived h
    (Main.past_of_gone (m := m.after p) (Main.allows_killed hallows) hgone)

/-- A signal leaves the main thread where it is. -/
theorem Main.Steady.signal (S : m.Steady w s) (g : Signal) : (m.signal g).Steady w s := by
  unfold Main.signal
  split
  · exact S
  · split <;> exact ⟨S.arrived, S.staff, S.joining⟩

/-- A signal that spares the worker's threads. -/
theorem Main.Sound.signal (S : m.Sound w s) {g : Signal} (hspared : m.Spared s g) :
    (m.signal g).Sound w s := by
  refine ⟨S.toSteady.signal g, ?_, ?_⟩ <;> unfold Main.signal <;> split
  · exact S.joined
  · split <;> exact S.joined
  · exact S.finished
  · rename_i hgone
    split
    · exact S.finished
    · exact fun _ => (hspared.resolve_left hgone).resolve_left ‹_›

@[simp] theorem Main.stage_signal (m : Main ι) (g : Signal) : (m.signal g).stage = m.stage := by
  unfold Main.signal
  split
  · rfl
  · split <;> rfl

@[simp] theorem Main.started_signal (m : Main ι) (g : Signal) :
    (m.signal g).started = m.started := by
  unfold Main.signal
  split
  · rfl
  · split <;> rfl

/-- A signal that does not spare them ends the process under them. -/
theorem Main.gone_of_not_spared {g : Signal} (hspared : ¬ m.Spared s g) :
    (m.signal g).gone = true ∧ (m.signal g).started = m.started ∧
      ∃ q ∈ m.started, s.pc q ≠ .exited := by
  simp only [Main.Spared, not_or, not_forall] at hspared
  obtain ⟨hgone, hcatches, q, hq, hpc⟩ := hspared
  rw [Main.signal, if_neg hgone, if_neg hcatches]
  exact ⟨rfl, rfl, q, hq, hpc⟩

/-- A worker that is gone stays so. -/
theorem Main.gone_signal (h : m.gone = true) (g : Signal) : m.signal g = m := if_pos h

theorem Main.gone_after [DecidableEq ι] {cfg : ι → Config} {e : ProcessEvent ι}
    {p : Worker.Process ι} (h : (m.process s).step cfg w e = some p) (hgone : m.gone = true) :
    (m.after p).gone = true := by
  rw [Main.gone, Bool.or_eq_true] at hgone ⊢
  refine hgone.imp_right ?_
  intro hstage
  split at hstage
  · rename_i success hexited
    have hstays := Process.gone_step (p := m.process s) hexited h
    simp only [Main.after, hstays]
  · contradiction

end Workers

section Runs

variable [DecidableEq ω] [DecidableEq ι] {cfg : ι → Config} {launch : ω → Launch ι κ}
  {pids : List ω} {c c' : Crew ω ι} {e : CrewEvent ω ι}

/-- What a step does to the database and the threads is an event of the system, or nothing. -/
theorem Crew.system_cases (h : c.step cfg launch pids e = some c') :
    (c'.system.shared = c.system.shared ∧ c'.system.pc = c.system.pc) ∨
      ∃ e', looseStep cfg c.system e' = some c'.system ∧
        ((∃ id name data, e' = .insert id name data) ∨
          ∃ w q a, e = .worker w (.thread q a) ∧ e' = .thread q a ∧ q ∈ (c.workers w).started) := by
  cases Crew.step_cases h with
  | insert id name data s hstep => exact Or.inr ⟨_, hstep, Or.inl ⟨id, name, data, rfl⟩⟩
  | worker w e p hallows hstep =>
    rcases Process.system_cases hstep with hsame | ⟨e', hstep', rfl | ⟨q, a, rfl, rfl, hq⟩⟩
    · exact Or.inl hsame
    · contradiction
    · exact Or.inr ⟨_, hstep', Or.inr ⟨w, q, a, rfl, rfl, hq⟩⟩
  | signal | shutdown | kill | finish | wait => exact Or.inl ⟨rfl, rfl⟩

/-- What a worker has with the database and the threads, from what a client's row, a signal, and
a step of its own and of another worker keep of it. -/
theorem Crew.forall_workers_step {P : ω → System ι → Main ι → Prop}
    (h : c.step cfg launch pids e = some c') (hP : ∀ w, P w c.system (c.workers w))
    (hinsert : ∀ w id name data s, looseStep cfg c.system (.insert id name data) = some s →
      P w s (c.workers w))
    (hsignal : ∀ w g, c.target e = some (w, g) → P w c.system ((c.workers w).signal g))
    (hown : ∀ w e p, (c.workers w).allows e = true →
      ((c.workers w).process c.system).step cfg (launch w) e = some p →
        P w p.system ((c.workers w).after p))
    (hother : ∀ w w' e p, w ≠ w' →
      ((c.workers w').process c.system).step cfg (launch w') e = some p →
        P w p.system (c.workers w)) (w : ω) :
    P w c'.system (c'.workers w) := by
  have hsignals : ∀ w' g, c.target e = some (w', g) →
      P w c.system ((c.signal w' g).workers w) := by
    intro w' g htarget
    by_cases hw : w = w'
    · subst hw
      simpa only [Crew.signal, Function.update_self] using hsignal w g htarget
    · simpa only [Crew.signal, Function.update_of_ne hw] using hP w
  cases Crew.step_cases h with
  | insert id name data s hstep => exact hinsert w id name data s hstep
  | shutdown | finish | wait => exact hP w
  | signal w' g => exact hsignals w' g rfl
  | kill w' rest hserver => exact hsignals w' .watched (by simp only [Crew.target, hserver])
  | worker w' e p hallows hstep =>
    by_cases hw : w = w'
    · subst hw
      simpa only [Crew.setProcess, Function.update_self] using hown w e p hallows hstep
    · simpa only [Crew.setProcess, Function.update_of_ne hw] using hother w w' e p hw hstep

/-- A worker that is gone stays so. -/
theorem Crew.gone_step (h : c.step cfg launch pids e = some c') {w : ω}
    (hgone : (c.workers w).gone = true) : (c'.workers w).gone = true := by
  refine Crew.forall_workers_step (P := fun w _ m => (c.workers w).gone = true → m.gone = true)
    h ?_ ?_ ?_ ?_ ?_ w hgone
  case refine_3 =>
    intro w g _ hgone
    rw [Main.gone_signal hgone, hgone]
  case refine_4 => exact fun w e p _ hstep => Main.gone_after hstep
  all_goals exact fun _ => by simp only [imp_self, implies_true]

/-- The workers are sound, and only threads that a worker has started leave the head of their
loop. -/
structure Crew.Sound (launch : ω → Launch ι κ) (c : Crew ω ι) : Prop where
  main : ∀ w, (c.workers w).Sound (launch w) c.system
  moved : ∀ q, c.system.pc q ≠ .head → ∃ w, q ∈ (c.workers w).started

omit [DecidableEq ω] [DecidableEq ι] in
theorem Crew.Sound.start {s : System ι} (hs : ∀ q, s.pc q = .head) :
    (Crew.start launch s).Sound launch where
  main w := .start (launch w) s
  moved q hq := absurd (hs q) hq

/-- No step takes a thread off the started ones. -/
theorem Crew.Sound.started_step (S : c.Sound launch) (h : c.step cfg launch pids e = some c')
    (w : ω) : (c.workers w).started ⊆ (c'.workers w).started := by
  refine Crew.forall_workers_step (P := fun w _ m => (c.workers w).started ⊆ m.started)
    h ?_ ?_ ?_ ?_ ?_ w
  case refine_3 =>
    intro w g _
    rw [Main.started_signal]
    exact List.Subset.refl _
  case refine_4 =>
    exact fun w e p _ hstep => (Process.started_step (S.main w).arrived (S.main w).staff hstep).1
  all_goals intros; exact List.Subset.refl _

/-- Every step that spares the threads keeps the workers sound. -/
theorem Crew.Sound.step (hwhole : ∀ w, (launch w).Whole) (S : c.Sound launch)
    (hspares : c.Spares e) (h : c.step cfg launch pids e = some c') : c'.Sound launch := by
  constructor
  case main =>
    refine Crew.forall_workers_step h S.main ?_ ?_ ?_ ?_
    · exact fun w id name data s hstep => (S.main w).world fun q => Worker.exited_step hstep
    · exact fun w g htarget => (S.main w).signal (hspares w g htarget)
    · exact fun w e p hallows hstep => (S.main w).step (hwhole w) hallows hstep
    · exact fun w w' e p _ hstep => (S.main w).world fun q => Process.exited_step hstep
  case moved =>
    intro q hq
    have hbefore : c.system.pc q ≠ .head → ∃ w, q ∈ (c'.workers w).started := by
      intro hq
      obtain ⟨w, hw⟩ := S.moved q hq
      exact ⟨w, S.started_step h w hw⟩
    rcases Crew.system_cases h with ⟨_, hpc⟩ | ⟨e', hstep, hevent⟩
    · exact hbefore (hpc ▸ hq)
    · by_cases hactor : e'.actor = some q
      · rcases hevent with ⟨id, name, data, rfl⟩ | ⟨w, q', a, rfl, rfl, hq'⟩
        · contradiction
        · obtain rfl := Option.some.inj hactor
          exact ⟨w, S.started_step h w hq'⟩
      · exact hbefore (pc_foreign_looseStep hstep hactor ▸ hq)

/-- A step that does not spare the threads of a worker ends it under them. -/
theorem Crew.not_finished_step (hspares : ¬ c.Spares e) :
    ∃ c', c.step cfg launch pids e = some c' ∧ ¬ c'.Finished := by
  simp only [Crew.Spares, not_forall] at hspares
  obtain ⟨w, g, htarget, hspared⟩ := hspares
  obtain ⟨hgone, hstarted, q, hq, hpc⟩ := Main.gone_of_not_spared hspared
  have hbroken : ∀ c' : Crew ω ι, c'.system = c.system →
      c'.workers w = (c.workers w).signal g → ¬ c'.Finished := by
    intro c' hsystem hworker hfinished
    refine hpc ?_
    rw [← hsystem]
    refine hfinished w (hworker ▸ hgone) q ?_
    rw [hworker, hstarted]
    exact hq
  have hself : (c.signal w g).workers w = (c.workers w).signal g := Function.update_self ..
  cases e with
  | insert | worker | shutdown | wait => contradiction
  | signal w' g' =>
    cases htarget
    exact ⟨_, rfl, hbroken _ rfl hself⟩
  | kill =>
    simp only [Crew.target] at htarget
    split at htarget
    · rename_i rest hserver
      cases htarget
      exact ⟨{ c.signal w .watched with server := .waiting w rest },
        by simp only [Crew.step, hserver], hbroken _ rfl hself⟩
    · contradiction

/-- In every run of the daemon in which the threads of every worker can be started, a worker is
gone only after all its threads have exited, if and only if each signal finds its worker gone,
or is watched for at that moment, or finds no thread that is still at work. -/
theorem workers_finish_iff (cfg : ι → Config) (pids : List ω) (hwhole : ∀ w, (launch w).Whole)
    {s : System ι} (hs : ∀ q, s.pc q = .head) (events : List (CrewEvent ω ι)) :
    (∀ fs, fs <+: events → ∀ c, exec (Crew.step cfg launch pids) (.start launch s) fs = some c →
        c.Finished) ↔
      AllSteps (Crew.step cfg launch pids) Crew.Spares (.start launch s) events :=
  forall_reached_iff_allSteps (I := Crew.Sound launch) (fun _ S w => (S.main w).finished)
    (fun _ _ _ S hspares h => S.step hwhole hspares h)
    (fun _ _ _ hspares => Crew.not_finished_step hspares) (.start hs) events

/-- The statement or creator of the event succeeds, and the lock id of a call is new. -/
def Crew.Succeeds (c : Crew ω ι) : CrewEvent ω ι → Prop
  | .worker _ (.thread q a) => a.Succeeds ∧ (Event.thread q a).NewLock c.system
  | _ => True

instance (c : Crew ω ι) (e : CrewEvent ω ι) : Decidable (c.Succeeds e) :=
  match e with
  | .worker _ (.thread q a) =>
    inferInstanceAs (Decidable (a.Succeeds ∧ (Event.thread q a).NewLock c.system))
  | .worker _ (.other _) | .worker _ .main | .worker _ (.onIoWork _) | .worker _ .onSignalStop
  | .insert _ _ _ | .signal _ _ | .shutdown | .kill | .wait => inferInstanceAs (Decidable True)

/-- How far the server is in its loop over the workers. -/
def Crew.Awaited (pids : List ω) (c : Crew ω ι) : Prop :=
  match c.server with
  | .serving => True
  | .signalling rest => ∃ done, pids = done ++ rest ∧ ∀ w ∈ done, (c.workers w).gone = true
  | .waiting w rest =>
    ∃ done, pids = done ++ w :: rest ∧ ∀ w ∈ done, (c.workers w).gone = true
  | .stopped => ∀ w ∈ pids, (c.workers w).gone = true

/-- The server gets on only when a worker is gone. -/
theorem Crew.Awaited.step (A : c.Awaited pids) (h : c.step cfg launch pids e = some c') :
    c'.Awaited pids := by
  have hkeep : c'.server = c.server → c'.Awaited pids := by
    intro hserver
    unfold Crew.Awaited at A ⊢
    rw [hserver]
    split at A
    · trivial
    · obtain ⟨done, hpids, hgone⟩ := A
      exact ⟨done, hpids, fun w hw => Crew.gone_step h (hgone w hw)⟩
    · obtain ⟨done, hpids, hgone⟩ := A
      exact ⟨done, hpids, fun w hw => Crew.gone_step h (hgone w hw)⟩
    · exact fun w hw => Crew.gone_step h (A w hw)
  cases Crew.step_cases h with
  | insert | worker | signal => exact hkeep rfl
  | shutdown hserver => exact ⟨[], rfl, fun w hw => absurd hw List.not_mem_nil⟩
  | kill w rest hserver =>
    rw [Crew.Awaited, hserver] at A
    obtain ⟨done, hpids, hgone⟩ := A
    exact ⟨done, hpids, fun w hw => Crew.gone_step h (hgone w hw)⟩
  | finish hserver =>
    rw [Crew.Awaited, hserver] at A
    obtain ⟨done, hpids, hgone⟩ := A
    rw [List.append_nil] at hpids
    exact fun w hw => hgone w (hpids ▸ hw)
  | wait w rest hserver hw =>
    rw [Crew.Awaited, hserver] at A
    obtain ⟨done, hpids, hgone⟩ := A
    refine ⟨done ++ [w], by rw [hpids, List.append_assoc, List.singleton_append], ?_⟩
    intro w' hw'
    rcases List.mem_append.mp hw' with hw' | hw'
    · exact hgone w' hw'
    · rw [List.mem_singleton.mp hw', hw]

end Runs

/-- A worker with one thread and no job library. -/
def oneThread : Launch Unit Unit where
  threads := [()]
  nodup := by decide
  nonempty := by decide
  starts _ := true
  modules := []

/-- A Ctrl-C reaches the worker and the server, and the worker first. -/
def ctrlC : List (CrewEvent Unit Unit) :=
  [.worker () .main, .worker () .main, .signal () .watched, .worker () .onSignalStop, .shutdown,
    .kill]

/-- The server's signal ends the worker while it waits for its thread. -/
theorem workers_finish_iff_ctrl_c :
    ¬ ∀ fs, fs <+: ctrlC → ∀ c, exec (Crew.step (fun _ => Config.runOnly) (fun _ => oneThread) [()])
      (.start (fun _ => oneThread) System.initial) fs = some c → c.Finished := by
  rw [workers_finish_iff _ _ (fun _ => Or.inl fun _ _ => rfl) fun _ => rfl]
  decide

end Workq.Server
