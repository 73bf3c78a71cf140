import Mathlib.Logic.Function.Basic
import Workq.Core.CString
import Workq.Core.Run

/-!
# Instances of the daemon and their pid file

`main` tests for the pid file in the directory it was called from, forks, changes to the root
directory and writes the file there; `--kill` reads it in the directory it is called from, and
goes on to start the daemon when it finds none. At its end the server removes the file. The
test and the write are apart, so that two instances can pass the test together; and a
relative path is not the same file for both.
-/

namespace Workq.Workqd

open Workq.Core

/-- A path name by its components. -/
structure Path where
  absolute : Bool
  components : List (List Char)
  deriving DecidableEq

/-- A file or directory by the names on the way from the root, which is the empty list. -/
abbrev Place := List (List Char)

/-- The place that one component leads to; there are no links, and the directories on the way are
there. -/
def enter (place : Place) (component : List Char) : Place :=
  if component = ".".toList then place
  else if component = "..".toList then place.dropLast
  else place ++ [component]

/-- The file that a path names in a working directory. -/
def Path.resolve (p : Path) (cwd : Place) : Place :=
  p.components.foldl enter (if p.absolute then [] else cwd)

/-- No component is `.` or `..`. -/
def Path.Plain (p : Path) : Prop :=
  ∀ component ∈ p.components, component ≠ ".".toList ∧ component ≠ "..".toList

/-- The settings that `main` reads here. -/
structure Options where
  pidfile : Option Path
  daemonize : Bool

/-- `config.get_str("pidfile", "logs/workq.pid")` of `cli_setup`. -/
def Options.killFile (opts : Options) : Path :=
  opts.pidfile.getD ⟨false, ["logs".toList, "workq.pid".toList]⟩

/-- How far an instance has come. -/
inductive Stage where
  /-- In `cli_setup`, with the settings committed. -/
  | cliSetup (kill : Bool)
  /-- In `main`, before the test for the pid file. -/
  | test
  /-- Through the test, before `daemonize`. -/
  | starting
  /-- Through the start, until the event loop ends. -/
  | serving
  deriving DecidableEq

structure Instance where
  cwd : Place
  stage : Stage
  deriving DecidableEq

/-- A host with its files, its instances by their process ids and the signals that `--kill` has
sent, latest first. -/
structure Host where
  files : Place → Option (List Char)
  instances : Nat → Option Instance
  killed : List Int

/-- The fate of the pid file: it cannot be opened, only so many characters get written, or it is
written whole. -/
inductive PidWrite where
  | unopened
  | failed (length : Nat)
  | written
  deriving DecidableEq, Repr

/-- What can happen on the host. -/
inductive HostEvent where
  /-- The command is called. -/
  | invoke (pid : Nat) (kill : Bool) (cwd : Place)
  /-- The end of `cli_setup`. -/
  | cliSetup (pid : Nat)
  /-- The test for the pid file. -/
  | test (pid : Nat)
  /-- `daemonize`, whose child gets the given process id, and the write of the pid file. -/
  | daemonize (pid child : Nat) (fate : PidWrite)
  /-- The server's loop has ended. -/
  | stop (pid : Nat)
  /-- The process ends in any other way. -/
  | fail (pid : Nat)

/-- A process id that the system can hand out. -/
def Host.Free (s : Host) (pid : Nat) : Prop :=
  1 ≤ pid ∧ pid ≤ 0x7fffffff ∧ s.instances pid = none

instance (s : Host) (pid : Nat) : Decidable (s.Free pid) :=
  inferInstanceAs (Decidable (_ ∧ _ ∧ _))

/-- Set or remove an instance. -/
def Host.put (s : Host) (pid : Nat) (i : Option Instance) : Host :=
  { s with instances := Function.update s.instances pid i }

@[simp] theorem Host.put_self (s : Host) (pid : Nat) (x : Option Instance) :
    (s.put pid x).instances pid = x :=
  Function.update_self ..

@[simp] theorem Host.put_put (s : Host) (pid : Nat) (x y : Option Instance) :
    (s.put pid x).put pid y = s.put pid y := by
  simp only [Host.put, Function.update_idem]

theorem Host.put_of_ne (s : Host) {pid p : Nat} (h : p ≠ pid) (x : Option Instance) :
    (s.put pid x).instances p = s.instances p :=
  Function.update_of_ne h ..

/-- Set or remove a file. -/
def Host.store (s : Host) (place : Place) (content : Option (List Char)) : Host :=
  { s with files := Function.update s.files place content }

/-- `cli_setup` after `commit`. -/
def Host.cliSetup (opts : Options) (s : Host) (pid : Nat) (cwd : Place) (kill : Bool) : Host :=
  if kill then
    match s.files (opts.killFile.resolve cwd) with
    | some pidstr => { s.put pid none with killed := atoi pidstr :: s.killed }
    -- without a pid file the branch is left, and the daemon is started
    | none => s.put pid (some ⟨cwd, .test⟩)
  else s.put pid (some ⟨cwd, .test⟩)

/-- `g_file_test(pidfile, G_FILE_TEST_EXISTS)`, false without a path. -/
def Host.pidfileExists (opts : Options) (s : Host) (cwd : Place) : Bool :=
  opts.pidfile.any fun path => (s.files (path.resolve cwd)).isSome

/-- `main` up to `daemonize`. -/
def Host.test (opts : Options) (s : Host) (pid : Nat) (cwd : Place) : Host :=
  if opts.daemonize then
    if s.pidfileExists opts cwd then s.put pid none else s.put pid (some ⟨cwd, .starting⟩)
  else s.put pid (some ⟨cwd, .serving⟩)

/-- `daemonize` and the write of the pid file by its child in the root directory. -/
def Host.daemonize (opts : Options) (s : Host) (pid child : Nat) (fate : PidWrite) : Host :=
  match opts.pidfile with
  | none => (s.put pid none).put child (some ⟨[], .serving⟩)
  | some path =>
    match fate with
    -- a stream that could not be opened is written to all the same
    | .unopened => s.put pid none
    -- neither `g_fprintf` nor `fclose` is looked at
    | .failed length => ((s.put pid none).put child (some ⟨[], .serving⟩)).store (path.resolve [])
        (some ((formatLong child).take length))
    | .written => ((s.put pid none).put child (some ⟨[], .serving⟩)).store (path.resolve [])
        (some (formatLong child))

/-- `main` after the server's loop. -/
def Host.stop (opts : Options) (s : Host) (pid : Nat) (cwd : Place) : Host :=
  match opts.pidfile with
  | none => s.put pid none
  | some path => (s.put pid none).store (path.resolve cwd) none

/-- One event on the host. -/
def Host.step (opts : Options) (s : Host) : HostEvent → Option Host
  | .invoke pid kill cwd =>
    if s.Free pid then some (s.put pid (some ⟨cwd, .cliSetup kill⟩)) else none
  | .cliSetup pid =>
    match s.instances pid with
    | some ⟨cwd, .cliSetup kill⟩ => some (s.cliSetup opts pid cwd kill)
    | _ => none
  | .test pid =>
    match s.instances pid with
    | some ⟨cwd, .test⟩ => some (s.test opts pid cwd)
    | _ => none
  | .daemonize pid child fate =>
    match s.instances pid with
    | some ⟨_, .starting⟩ =>
      if s.Free child then some (s.daemonize opts pid child fate) else none
    | _ => none
  | .stop pid =>
    match s.instances pid with
    | some ⟨cwd, .serving⟩ => some (s.stop opts pid cwd)
    | _ => none
  | .fail pid => if (s.instances pid).isSome then some (s.put pid none) else none

/-- An instance has passed its test. -/
def Host.Past (s : Host) (pid : Nat) : Prop :=
  ∃ i, s.instances pid = some i ∧ (i.stage = .starting ∨ i.stage = .serving)

/-- At most one instance has passed its test. -/
def Host.Exclusive (s : Host) : Prop := ∀ p q, s.Past p → s.Past q → p = q

/-- `--kill` finds the process id of an instance that serves in the pid file. -/
def Host.Named (path : Path) (cwd : Place) (s : Host) : Prop :=
  ∀ p i, s.instances p = some i → i.stage = .serving →
    (s.files (path.resolve cwd)).map atoi = some (p : Int)

/-- The command is called in the given directory, and no instance tests for the pid file while
another one is between its test and its write. -/
def Orderly (cwd : Place) (s : Host) : HostEvent → Prop
  | .invoke _ _ place => place = cwd
  | .test _ => ∀ q i, s.instances q = some i → i.stage ≠ .starting
  | _ => True

/-- No write of an opened pid file fails in the event. -/
def HostEvent.Writes (e : HostEvent) : Prop := ∀ pid child n, e ≠ .daemonize pid child (.failed n)

/-- Everything that can happen with a pid file, one constructor for each outcome. -/
inductive HostStep (path : Path) (s : Host) : HostEvent → Host → Prop
  | invoke (pid : Nat) (kill : Bool) (cwd : Place) (hfree : s.Free pid) :
      HostStep path s (.invoke pid kill cwd) (s.put pid (some ⟨cwd, .cliSetup kill⟩))
  | kill (pid : Nat) (i : Instance) (pidstr : List Char) (hi : s.instances pid = some i) :
      HostStep path s (.cliSetup pid) { s.put pid none with killed := atoi pidstr :: s.killed }
  | setup (pid : Nat) (i : Instance) (hi : s.instances pid = some i) :
      HostStep path s (.cliSetup pid) (s.put pid (some ⟨i.cwd, .test⟩))
  | refuse (pid : Nat) : HostStep path s (.test pid) (s.put pid none)
  | pass (pid : Nat) (i : Instance) (hi : s.instances pid = some i)
      (hfile : s.files (path.resolve i.cwd) = none) :
      HostStep path s (.test pid) (s.put pid (some ⟨i.cwd, .starting⟩))
  | write (pid child : Nat) (fate : PidWrite) (text : List Char) (i : Instance)
      (hi : s.instances pid = some i) (hstage : i.stage = .starting) (hfree : s.Free child)
      (htext : (∀ n, fate ≠ .failed n) → text = formatLong child) :
      HostStep path s (.daemonize pid child fate)
        (((s.put pid none).put child (some ⟨[], .serving⟩)).store (path.resolve []) (some text))
  | crash (pid child : Nat) : HostStep path s (.daemonize pid child .unopened) (s.put pid none)
  | stop (pid : Nat) (i : Instance) (hi : s.instances pid = some i)
      (hstage : i.stage = .serving) :
      HostStep path s (.stop pid) ((s.put pid none).store (path.resolve i.cwd) none)
  | fail (pid : Nat) : HostStep path s (.fail pid) (s.put pid none)

section Hosts

variable {path : Path} {cwd : Place} {whole : Prop} {s t : Host} {e : HostEvent}

/-- Inversion of the step function. -/
theorem Host.step_cases (h : s.step ⟨some path, true⟩ e = some t) : HostStep path s e t := by
  cases e with
  | invoke pid kill cwd =>
    simp only [Host.step] at h
    split at h
    · rename_i hfree
      obtain rfl := Option.some.inj h
      exact .invoke pid kill cwd hfree
    · contradiction
  | cliSetup pid =>
    simp only [Host.step] at h
    split at h
    · rename_i cwd kill hi
      obtain rfl := Option.some.inj h
      unfold Host.cliSetup
      split
      · split
        · exact .kill pid _ _ hi
        · exact .setup pid _ hi
      · exact .setup pid _ hi
    · contradiction
  | test pid =>
    simp only [Host.step] at h
    split at h
    · rename_i cwd hi
      obtain rfl := Option.some.inj h
      simp only [Host.test, if_true]
      split
      · exact .refuse pid
      · rename_i hfile
        refine .pass pid _ hi ?_
        simpa [Host.pidfileExists] using hfile
    · contradiction
  | daemonize pid child fate =>
    simp only [Host.step] at h
    split at h
    · rename_i cwd hi
      split at h
      · rename_i hfree
        obtain rfl := Option.some.inj h
        cases fate with
        | unopened => exact .crash pid child
        | failed n => exact .write pid child _ _ _ hi rfl hfree fun h => absurd rfl (h n)
        | written => exact .write pid child _ _ _ hi rfl hfree fun _ => rfl
      · contradiction
    · contradiction
  | stop pid =>
    simp only [Host.step] at h
    split at h
    · rename_i cwd hi
      obtain rfl := Option.some.inj h
      exact .stop pid _ hi rfl
    · contradiction
  | fail pid =>
    simp only [Host.step] at h
    split at h
    · obtain rfl := Option.some.inj h
      exact .fail pid
    · contradiction

theorem Host.instances_put {pid p : Nat} {x : Option Instance} {i : Instance}
    (h : (s.put pid x).instances p = some i) :
    (p = pid ∧ x = some i) ∨ (p ≠ pid ∧ s.instances p = some i) := by
  by_cases hp : p = pid
  · subst hp
    exact Or.inl ⟨rfl, (s.put_self p x).symm.trans h⟩
  · exact Or.inr ⟨hp, (s.put_of_ne hp x).symm.trans h⟩

/-- What keeps the instances apart: at most one has passed its test, its pid file is there once
it serves, and all instances mean the same file. When all writes are whole, the file names the
instance. -/
structure Guarded (path : Path) (whole : Prop) (s : Host) : Prop where
  unique : ∀ p q, s.Past p → s.Past q → p = q
  named : ∀ p i, s.instances p = some i → i.stage = .serving →
    ∃ text, s.files (path.resolve []) = some text ∧ (whole → text = formatLong p)
  range : ∀ p i, s.instances p = some i → p ≤ 0x7fffffff
  place : ∀ p i, s.instances p = some i → path.resolve i.cwd = path.resolve []

/-- An instance that ends, or has not come to its test, is in nobody's way. -/
theorem Guarded.put (G : Guarded path whole s) {pid : Nat} {x : Option Instance}
    (hx : ∀ i ∈ x, i.stage ≠ .starting ∧ i.stage ≠ .serving ∧ pid ≤ 0x7fffffff ∧
      path.resolve i.cwd = path.resolve []) : Guarded path whole (s.put pid x) := by
  have hpast : ∀ p, (s.put pid x).Past p → s.Past p := by
    rintro p ⟨i, hi, hstage⟩
    rcases Host.instances_put hi with ⟨_, hxi⟩ | ⟨_, hsi⟩
    · obtain ⟨hstarting, hserving, _⟩ := hx i hxi
      exact (hstage.elim hstarting hserving).elim
    · exact ⟨i, hsi, hstage⟩
  refine ⟨fun p q hp hq => G.unique p q (hpast p hp) (hpast q hq), ?_, ?_, ?_⟩
  · intro p i hi hstage
    rcases Host.instances_put hi with ⟨_, hxi⟩ | ⟨_, hsi⟩
    · exact absurd hstage (hx i hxi).2.1
    · exact G.named p i hsi hstage
  · intro p i hi
    rcases Host.instances_put hi with ⟨rfl, hxi⟩ | ⟨_, hsi⟩
    · exact (hx i hxi).2.2.1
    · exact G.range p i hsi
  · intro p i hi
    rcases Host.instances_put hi with ⟨_, hxi⟩ | ⟨_, hsi⟩
    · exact (hx i hxi).2.2.2
    · exact G.place p i hsi

theorem Guarded.exit (G : Guarded path whole s) (pid : Nat) : Guarded path whole (s.put pid none) :=
  G.put fun i hi => absurd hi (Option.not_mem_none i)

/-- Passing the test when no instance has passed it. -/
theorem Guarded.pass (G : Guarded path whole s) {pid : Nat} {i : Instance}
    (hi : s.instances pid = some i) (hnone : ∀ p, ¬ s.Past p) :
    Guarded path whole (s.put pid (some ⟨i.cwd, .starting⟩)) := by
  have hpast : ∀ p, (s.put pid (some ⟨i.cwd, .starting⟩)).Past p → p = pid := by
    rintro p ⟨j, hj, hstage⟩
    rcases Host.instances_put hj with ⟨hp, _⟩ | ⟨_, hsj⟩
    · exact hp
    · exact (hnone p ⟨j, hsj, hstage⟩).elim
  refine ⟨fun p q hp hq => (hpast p hp).trans (hpast q hq).symm, ?_, ?_, ?_⟩
  · intro p j hj hserving
    rcases Host.instances_put hj with ⟨_, hxj⟩ | ⟨_, hsj⟩
    · obtain rfl := Option.some.inj hxj
      contradiction
    · exact G.named p j hsj hserving
  · intro p j hj
    rcases Host.instances_put hj with ⟨rfl, _⟩ | ⟨_, hsj⟩
    · exact G.range p i hi
    · exact G.range p j hsj
  · intro p j hj
    rcases Host.instances_put hj with ⟨rfl, hxj⟩ | ⟨_, hsj⟩
    · obtain rfl := Option.some.inj hxj
      exact G.place p i hi
    · exact G.place p j hsj

/-- The one instance that has passed the test becomes the daemon that the file names. -/
theorem Guarded.write (G : Guarded path whole s) {pid child : Nat} {i : Instance}
    (hi : s.instances pid = some i) (hstage : i.stage = .starting) (hfree : s.Free child)
    {text : List Char} (htext : whole → text = formatLong child) :
    Guarded path whole (((s.put pid none).put child (some ⟨[], .serving⟩)).store (path.resolve [])
      (some text)) := by
  -- a later instance is the child, or was there and had not passed its test
  have hcases : ∀ {p : Nat} {j : Instance},
      ((s.put pid none).put child (some ⟨[], .serving⟩)).instances p = some j →
      (p = child ∧ j = ⟨[], .serving⟩) ∨ (s.instances p = some j ∧ ¬ s.Past p) := by
    intro p j hj
    rcases Host.instances_put hj with ⟨rfl, hxj⟩ | ⟨_, hrest⟩
    · exact Or.inl ⟨rfl, (Option.some.inj hxj).symm⟩
    · rcases Host.instances_put hrest with ⟨_, hnone⟩ | ⟨hne, hsj⟩
      · contradiction
      · exact Or.inr ⟨hsj, fun hp => hne (G.unique p pid hp ⟨i, hi, Or.inl hstage⟩)⟩
  refine ⟨?_, ?_, ?_, ?_⟩
  · have hpast : ∀ p, Host.Past (((s.put pid none).put child (some ⟨[], .serving⟩)).store
        (path.resolve []) (some text)) p → p = child := by
      rintro p ⟨j, hj, hj'⟩
      rcases hcases hj with ⟨hp, _⟩ | ⟨hsj, hnot⟩
      · exact hp
      · exact (hnot ⟨j, hsj, hj'⟩).elim
    exact fun p q hp hq => (hpast p hp).trans (hpast q hq).symm
  · intro p j hj hserving
    rcases hcases hj with ⟨rfl, _⟩ | ⟨hsj, hnot⟩
    · exact ⟨text, Function.update_self .., htext⟩
    · exact (hnot ⟨j, hsj, Or.inr hserving⟩).elim
  · intro p j hj
    rcases hcases hj with ⟨rfl, _⟩ | ⟨hsj, _⟩
    · exact hfree.2.1
    · exact G.range p j hsj
  · intro p j hj
    rcases hcases hj with ⟨_, rfl⟩ | ⟨hsj, _⟩
    · rfl
    · exact G.place p j hsj

/-- The daemon that stops takes its file with it. -/
theorem Guarded.stop (G : Guarded path whole s) {pid : Nat} {i : Instance}
    (hi : s.instances pid = some i) (hstage : i.stage = .serving) (place : Place) :
    Guarded path whole ((s.put pid none).store place none) := by
  refine ⟨(G.exit pid).unique, ?_, (G.exit pid).range, (G.exit pid).place⟩
  intro p j hj hserving
  rcases Host.instances_put hj with ⟨_, hnone⟩ | ⟨hne, hsj⟩
  · contradiction
  · exact absurd (G.unique p pid ⟨j, hsj, Or.inr hserving⟩ ⟨i, hi, Or.inr hstage⟩) hne

/-- Where all instances mean one file, only an overlap of two starts lets two pass. -/
theorem Guarded.step (G : Guarded path whole s) (hplace : path.resolve cwd = path.resolve [])
    (horderly : Orderly cwd s e) (hwhole : whole → e.Writes)
    (h : s.step ⟨some path, true⟩ e = some t) : Guarded path whole t := by
  cases Host.step_cases h with
  | invoke pid kill cwd hfree =>
    refine G.put ?_
    intro i hi
    obtain rfl := Option.some.inj hi
    exact ⟨Stage.noConfusion, Stage.noConfusion, hfree.2.1, horderly ▸ hplace⟩
  | kill pid i pidstr hi =>
    exact ⟨(G.exit pid).unique, (G.exit pid).named, (G.exit pid).range, (G.exit pid).place⟩
  | setup pid i hi =>
    refine G.put ?_
    intro j hj
    obtain rfl := Option.some.inj hj
    exact ⟨Stage.noConfusion, Stage.noConfusion, G.range pid i hi, G.place pid i hi⟩
  | pass pid i hi hfile =>
    refine G.pass hi ?_
    rintro p ⟨j, hj, hstarting | hserving⟩
    · exact horderly p j hj hstarting
    · obtain ⟨text, hthere, _⟩ := G.named p j hj hserving
      rw [G.place pid i hi, hthere] at hfile
      contradiction
  | write pid child fate text i hi hstage hfree htext =>
    refine G.write hi hstage hfree ?_
    intro hw
    exact htext fun n hfate => hwhole hw pid child n (by rw [hfate])
  | stop pid i hi hstage => exact G.stop hi hstage _
  | refuse pid | crash pid child | fail pid => exact G.exit pid

/-- A call of the command by process 1 that starts the daemon as the given process. -/
def startEvents (cwd : Place) (child : Nat) : List HostEvent :=
  [.invoke 1 false cwd, .cliSetup 1, .test 1, .daemonize 1 child .written]

/-- The host with one more daemon. -/
def Host.started (path : Path) (s : Host) (child : Nat) : Host :=
  (s.put child (some ⟨[], .serving⟩)).store (path.resolve []) (some (formatLong child))

/-- Where the test finds no file, a start comes through, however many daemons there are. -/
theorem exec_startEvents (path : Path) (cwd : Place) (child : Nat) (hone : s.instances 1 = none)
    (hchild : s.Free child) (hne : child ≠ 1) (hfile : s.files (path.resolve cwd) = none)
    (hapart : ∀ q i, s.instances q = some i → i.stage ≠ .starting) :
    exec (Host.step ⟨some path, true⟩) s (startEvents cwd child) = some (s.started path child) ∧
      AllSteps (Host.step ⟨some path, true⟩) (Orderly cwd) s (startEvents cwd child) := by
  have hinvoke : s.step ⟨some path, true⟩ (.invoke 1 false cwd) =
      some (s.put 1 (some ⟨cwd, .cliSetup false⟩)) := if_pos ⟨le_rfl, by decide, hone⟩
  have hsetup : (s.put 1 (some ⟨cwd, .cliSetup false⟩)).step ⟨some path, true⟩ (.cliSetup 1) =
      some (s.put 1 (some ⟨cwd, .test⟩)) := by
    simp [Host.step, Host.cliSetup]
  have hfile' : (s.put 1 (some ⟨cwd, .test⟩)).files (path.resolve cwd) = none := hfile
  have htest : (s.put 1 (some ⟨cwd, .test⟩)).step ⟨some path, true⟩ (.test 1) =
      some (s.put 1 (some ⟨cwd, .starting⟩)) := by
    simp [Host.step, Host.test, Host.pidfileExists, hfile']
  have hthere : (s.put 1 (some ⟨cwd, .starting⟩)).Free child := by
    refine ⟨hchild.1, hchild.2.1, ?_⟩
    rw [s.put_of_ne hne]
    exact hchild.2.2
  have hgone : s.put 1 none = s := by
    rw [Host.put, ← hone, Function.update_eq_self]
  have hdaemonize : (s.put 1 (some ⟨cwd, .starting⟩)).step ⟨some path, true⟩
      (.daemonize 1 child .written) = some (s.started path child) := by
    simp [Host.step, if_pos hthere, Host.daemonize, hgone, Host.started]
  refine ⟨?_, ?_⟩
  · exact exec_cons_eq_some.mpr ⟨_, hinvoke, exec_cons_eq_some.mpr ⟨_, hsetup,
      exec_cons_eq_some.mpr ⟨_, htest, exec_cons_eq_some.mpr ⟨_, hdaemonize, rfl⟩⟩⟩⟩
  · refine ⟨rfl, ?_⟩
    intro t ht
    obtain rfl := Option.some.inj (hinvoke.symm.trans ht)
    refine ⟨trivial, ?_⟩
    intro t ht
    obtain rfl := Option.some.inj (hsetup.symm.trans ht)
    refine ⟨?_, fun t _ => ⟨trivial, fun _ _ => trivial⟩⟩
    intro q i hi
    rcases Host.instances_put hi with ⟨_, hxi⟩ | ⟨_, hsi⟩
    · obtain rfl := Option.some.inj hxi
      exact Stage.noConfusion
    · exact hapart q i hsi

/-- The components of a plain path are names on the way. -/
theorem Path.Plain.resolve (h : path.Plain) (cwd : Place) :
    path.resolve cwd = if path.absolute then path.components else cwd ++ path.components := by
  have hfold : ∀ (components : List (List Char)) (place : Place),
      (∀ c ∈ components, c ≠ ".".toList ∧ c ≠ "..".toList) →
        components.foldl enter place = place ++ components := by
    intro components
    induction components with
    | nil => exact fun place _ => (List.append_nil place).symm
    | cons c components ih =>
      intro place hplain
      rw [List.forall_mem_cons] at hplain
      rw [List.foldl_cons, enter, if_neg hplain.1.1, if_neg hplain.1.2, ih _ hplain.2,
        List.append_assoc, List.singleton_append]
  rw [Path.resolve, hfold _ _ h]
  split <;> rfl

/-- A plain path names one file from two directories exactly if it is absolute or they are
one. -/
theorem Path.Plain.resolve_eq_root_iff (h : path.Plain) : path.resolve cwd = path.resolve [] ↔
    path.absolute = true ∨ cwd = [] := by
  rw [h.resolve, h.resolve]
  cases path.absolute with
  | true => simp
  | false => simp

/-- A host on which the command has not been called. -/
def Host.bare : Host := ⟨fun _ => none, fun _ => none, []⟩

/-- When the file is not the same in the directory of the call, a second daemon starts. -/
theorem two_daemons (hplace : path.resolve cwd ≠ path.resolve []) :
    ∃ es t, exec (Host.step ⟨some path, true⟩) .bare es = some t ∧
      AllSteps (Host.step ⟨some path, true⟩) (Orderly cwd) .bare es ∧ t.Past 2 ∧ t.Past 3 := by
  obtain ⟨hfirst, horderly⟩ := exec_startEvents path cwd 2 (s := .bare) rfl
    ⟨by decide, by decide, rfl⟩ (by decide) rfl nofun
  have hfile : (Host.bare.started path 2).files (path.resolve cwd) = none :=
    Function.update_of_ne hplace ..
  have honly : ∀ q i, (Host.bare.started path 2).instances q = some i → i = ⟨[], .serving⟩ := by
    intro q i hi
    rcases Host.instances_put hi with ⟨_, hxi⟩ | ⟨_, hnone⟩
    · exact (Option.some.inj hxi).symm
    · contradiction
  obtain ⟨hsecond, horderly'⟩ := exec_startEvents path cwd 3 (s := Host.bare.started path 2)
    rfl ⟨by decide, by decide, rfl⟩ (by decide) hfile
    (fun q i hi => honly q i hi ▸ Stage.noConfusion)
  refine ⟨startEvents cwd 2 ++ startEvents cwd 3, _, exec_append.mpr ⟨_, hfirst, hsecond⟩,
    horderly.append ?_, ⟨_, rfl, Or.inr rfl⟩, ⟨_, rfl, Or.inr rfl⟩⟩
  intro t ht
  obtain rfl := Option.some.inj (hfirst.symm.trans ht)
  exact horderly'

/-- The pid file keeps a second daemon away exactly if it is the same file in the directory the
command is called in as in the root directory. Let the command be called in one directory, any
number of times, with `--kill` or without, and let no instance test for the file while another
is between its test and its write; instances may fail at any point, also in the write, and the
pid file may be there from the start. Then at most one instance at a time gets past the test,
and when no write fails `--kill` finds the daemon's process id in the file, in every state of
every such run, if and only if the path names the same file in the two directories; for a path
without `.` and `..` that is if it is absolute or the directory is the root. -/
theorem one_daemon_iff (path : Path) (cwd : Place) :
    ((∀ s es t, (∀ p, s.instances p = none) →
      AllSteps (Host.step ⟨some path, true⟩) (Orderly cwd) s es →
      exec (Host.step ⟨some path, true⟩) s es = some t →
        t.Exclusive ∧ ((∀ e ∈ es, e.Writes) → t.Named path cwd)) ↔
      path.resolve cwd = path.resolve []) ∧
    (path.Plain → (path.resolve cwd = path.resolve [] ↔ path.absolute = true ∨ cwd = [])) := by
  refine ⟨⟨?_, ?_⟩, Path.Plain.resolve_eq_root_iff⟩
  · intro hall
    by_contra hplace
    obtain ⟨es, t, hrun, horderly, htwo, hthree⟩ := two_daemons hplace
    have hone := (hall .bare es t (fun _ => rfl) horderly hrun).1 2 3 htwo hthree
    contradiction
  · intro hplace s es t hs horderly hrun
    have hnone : ∀ {p i}, s.instances p ≠ some i := by
      intro p i hi
      rw [hs p] at hi
      contradiction
    have hguarded : ∀ {whole : Prop}, (whole → ∀ e ∈ es, e.Writes) → Guarded path whole t := by
      intro whole hwhole
      have hstart : Guarded path whole s :=
        ⟨fun p q ⟨i, hi, _⟩ => (hnone hi).elim, fun p i hi => (hnone hi).elim,
          fun p i hi => (hnone hi).elim, fun p i hi => (hnone hi).elim⟩
      exact exec_preserves (C := fun s e => Orderly cwd s e ∧ (whole → e.Writes))
        (P := Guarded path whole)
        (fun _ _ _ hC G hstep => G.step hplace hC.1 hC.2 hstep)
        (horderly.and_forall fun e he hw => hwhole hw e he) hstart hrun
    refine ⟨(@hguarded False False.elim).unique, ?_⟩
    intro hwrites p i hi hserving
    have G : Guarded path True t := hguarded fun _ => hwrites
    obtain ⟨text, htext, hpid⟩ := G.named p i hi hserving
    have hrange := G.range p i hi
    rw [hplace, htext, hpid trivial, Option.map_some, atoi_formatLong (by omega) (by omega)]

/-- A relative path can name one file from both directories. -/
example : Path.resolve ⟨false, ["..".toList, "tmp".toList, "w.pid".toList]⟩ ["tmp".toList] =
    Path.resolve ⟨false, ["..".toList, "tmp".toList, "w.pid".toList]⟩ [] := by decide

end Hosts

end Workq.Workqd
