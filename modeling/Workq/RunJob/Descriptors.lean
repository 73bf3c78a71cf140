import Workq.Core.Descriptors
import Workq.Core.Run

/-!
# Descriptors of concurrent run jobs

The threads of a worker share one descriptor table. Each `RunJob::execute` call opens two
pipes and closes their four ends on every path that leaves it. On the way through a
successful `fork` it closes the two read ends with their streams and then closes the same
numbers once more. Another thread can be given such a number in between, and then loses its
descriptor; without that, every descriptor is closed once, by the call that created it.
-/

namespace Workq.RunJob

open Workq.Core

variable {ι : Type*}

/-- The elements of the arrays `ofd` and `efd`. -/
inductive End where
  | outRead
  | outWrite
  | errRead
  | errWrite
  deriving DecidableEq, Repr

/-- What a descriptor number stands for: something the process had open before, or an end
of a pipe that the given call of a thread created. -/
inductive Description (ι : Type*) where
  | process (n : Nat)
  | pipe (thread : ι) (call : Nat) (e : End)
  deriving DecidableEq

/-- `ofd` and `efd`. -/
structure Arrays where
  ofd : Nat × Nat
  efd : Nat × Nat
  deriving DecidableEq, Repr

/-- The number in one of the arrays. -/
def Arrays.at (a : Arrays) : End → Nat
  | .outRead => a.ofd.1
  | .outWrite => a.ofd.2
  | .errRead => a.efd.1
  | .errWrite => a.efd.2

/-- `close(fd)`, or `fclose` of the stream that `fdopen` made for it. -/
inductive CloseCall where
  | close
  | fclose
  deriving DecidableEq, Repr

/-- Where a thread is in `execute`, as far as its descriptors go. -/
inductive Pc where
  /-- Between two calls. -/
  | idle
  /-- Before `pipe(efd)`. -/
  | pipeErr (ofd : Nat × Nat)
  /-- Before `fork()`. -/
  | fork (a : Arrays)
  /-- On the way out: the ends to close, and those closed a second time after that. -/
  | closing (a : Arrays) (todo : List (CloseCall × End)) (again : List End)
  deriving DecidableEq, Repr

/-- The closes after a failed `pipe(efd)`. -/
def afterPipeFailure : List (CloseCall × End) := [(.close, .outRead), (.close, .outWrite)]

/-- The closes after a failed `fork`. -/
def afterForkFailure : List (CloseCall × End) :=
  [(.close, .outRead), (.close, .outWrite), (.close, .errRead), (.close, .errWrite)]

/-- The parent's closes after `fork`, the reads in between left out. -/
def afterFork : List (CloseCall × End) :=
  [(.close, .outWrite), (.close, .errWrite), (.fclose, .outRead), (.fclose, .errRead)]

/-- The process's descriptors, and for each thread its program point and the number of
`execute` calls it has begun. -/
structure Process (ι : Type*) where
  files : Files (Description ι) (ι × Nat)
  pc : ι → Pc
  calls : ι → Nat

section Step

variable [DecidableEq ι]

/-- One descriptor operation of a thread; `ok` is the fate of a `pipe` or a `fork`. -/
def Process.step (s : Process ι) (t : ι) (ok : Bool) : Process ι :=
  match s.pc t with
  | .idle =>
    let call := s.calls t + 1
    if ok then
      let opened := s.files.pipe (.pipe t call .outRead) (.pipe t call .outWrite)
      ⟨opened.2, Function.update s.pc t (.pipeErr opened.1), Function.update s.calls t call⟩
    else ⟨s.files, Function.update s.pc t .idle, Function.update s.calls t call⟩
  | .pipeErr ofd =>
    if ok then
      let opened := s.files.pipe (.pipe t (s.calls t) .errRead) (.pipe t (s.calls t) .errWrite)
      { s with files := opened.2, pc := Function.update s.pc t (.fork ⟨ofd, opened.1⟩) }
    else { s with pc := Function.update s.pc t (.closing ⟨ofd, (0, 0)⟩ afterPipeFailure []) }
  | .fork a =>
    if ok then
      { s with pc := Function.update s.pc t (.closing a afterFork [.outRead, .errRead]) }
    else { s with pc := Function.update s.pc t (.closing a afterForkFailure []) }
  | .closing a ((_, e) :: todo) again =>
    { s with
      files := s.files.close (a.at e) (t, s.calls t)
      pc := Function.update s.pc t (.closing a todo again) }
  | .closing a [] (e :: again) =>
    { s with
      files := s.files.close (a.at e) (t, s.calls t)
      pc := Function.update s.pc t (.closing a [] again) }
  | .closing _ [] [] => { s with pc := Function.update s.pc t .idle }

end Step

/-- How far the life of an end has come. -/
inductive Stage where
  | unopened
  | pending (n : Nat)
  /-- Never opened, or closed by its own call. -/
  | settled
  deriving DecidableEq, Repr

/-- What the descriptor table has of an end at a stage. -/
def Stage.Holds (f : Files (Description ι) (ι × Nat)) (d : Description ι) (caller : ι × Nat) :
    Stage → Prop
  | .unopened => Unopened f d
  | .pending n => OpenAt f d n
  | .settled => Unopened f d ∨ ClosedBy f d caller

/-- The stage of each end of the current call at a program point. -/
def Pc.stage : Pc → End → Stage
  | .idle, _ => .settled
  | .pipeErr ofd, .outRead => .pending ofd.1
  | .pipeErr ofd, .outWrite => .pending ofd.2
  | .pipeErr _, _ => .unopened
  | .fork a, e => .pending (a.at e)
  | .closing a todo _, e => if e ∈ todo.map Prod.snd then .pending (a.at e) else .settled

/-- The ends still to be closed are distinct. -/
def Pc.Distinct : Pc → Prop
  | .closing _ todo _ => (todo.map Prod.snd).Nodup
  | _ => True

/-- Every end is at the stage that its call's program point gives it, and nobody closed
what the process had open before. -/
structure Owned (s : Process ι) : Prop where
  process : ∀ n, s.files.closers (.process n) = []
  future : ∀ t c e, s.calls t < c → Unopened s.files (.pipe t c e)
  past : ∀ t c e, c < s.calls t → Stage.settled.Holds s.files (.pipe t c e) (t, c)
  current : ∀ t e, ((s.pc t).stage e).Holds s.files (.pipe t (s.calls t) e) (t, s.calls t)
  distinct : ∀ t, (s.pc t).Distinct

/-- Each descriptor is closed only by the call that created it, at most once, and exactly
once when that call has returned. -/
structure Sound (s : Process ι) : Prop where
  process : ∀ n, s.files.closers (.process n) = []
  closers : ∀ t c e, s.files.closers (.pipe t c e) = [] ∨ s.files.closers (.pipe t c e) = [(t, c)]
  returned : ∀ t c e, s.files.opened (.pipe t c e) = true →
    c < s.calls t ∨ (c = s.calls t ∧ s.pc t = .idle) → s.files.closers (.pipe t c e) = [(t, c)]

/-- If the thread's next step closes a number for the second time, the number is free. -/
def Safe (s : Process ι) (t : ι) : Prop :=
  ∀ a e again, s.pc t = .closing a [] (e :: again) → s.files.table.lookup (a.at e) = none

section Invariant

variable {s : Process ι} {f g : Files (Description ι) (ι × Nat)} {d : Description ι}
  {caller : ι × Nat}

theorem Stage.Holds.same {stage : Stage} (h : stage.Holds f d caller) (hs : Same f g d) :
    stage.Holds g d caller := by
  cases stage with
  | unopened => exact hs.unopened h
  | pending n => exact hs.openAt h
  | settled => exact h.imp hs.unopened hs.closedBy

/-- At each stage the end is closed by nobody or by its call. -/
theorem Stage.Holds.closers {stage : Stage} (h : stage.Holds f d caller) :
    f.closers d = [] ∨ f.closers d = [caller] := by
  cases stage with
  | unopened => exact Or.inl (Unopened.closers h)
  | pending n => exact Or.inl (OpenAt.closers h)
  | settled => exact h.imp Unopened.closers ClosedBy.closers

/-- A settled end that was opened is closed. -/
theorem Stage.Holds.closed (h : Stage.settled.Holds f d caller) (hopen : f.opened d = true) :
    f.closers d = [caller] := by
  rcases h with h | h
  · exact absurd (h.opened.symm.trans hopen) Bool.false_ne_true
  · exact h.closers

/-- A settled end is open nowhere. -/
theorem Stage.Holds.not_held (h : Stage.settled.Holds f d caller) (n : Nat) :
    f.table.lookup n ≠ some d := by
  rcases h with h | h
  · exact h.held n
  · exact h.held n

/-- The ends of the current call at a known program point. -/
theorem Owned.current_at (O : Owned s) {t : ι} {p : Pc} (hpc : s.pc t = p) (e : End) :
    (p.stage e).Holds s.files (.pipe t (s.calls t) e) (t, s.calls t) :=
  hpc ▸ O.current t e

theorem Owned.sound (O : Owned s) : Sound s where
  process := O.process
  closers t c e := by
    rcases Nat.lt_trichotomy c (s.calls t) with hc | rfl | hc
    · exact (O.past t c e hc).closers
    · exact (O.current t e).closers
    · exact Or.inl (O.future t c e hc).closers
  returned t c e hopen hret := by
    rcases hret with hc | ⟨rfl, hidle⟩
    · exact (O.past t c e hc).closed hopen
    · exact Stage.Holds.closed (O.current_at hidle e) hopen

/-- A description that is open under a number while a call closes a number for the second
time belongs to somebody else. -/
theorem Owned.holder_foreign (O : Owned s) {t : ι} {a : Arrays} {again : List End} {n : Nat}
    (hpc : s.pc t = .closing a [] again) (hheld : s.files.table.lookup n = some d) :
    ∀ e, d ≠ .pipe t (s.calls t) e := by
  rintro e rfl
  have hcur : Stage.settled.Holds s.files (.pipe t (s.calls t) e) (t, s.calls t) :=
    O.current_at hpc e
  exact hcur.not_held n hheld

/-- A description that is open was closed by nobody. -/
theorem Owned.closers_of_held (O : Owned s) {n : Nat} (hheld : s.files.table.lookup n = some d) :
    s.files.closers d = [] := by
  cases d with
  | process m => exact O.process m
  | pipe t c e =>
    rcases Nat.lt_trichotomy c (s.calls t) with hc | rfl | hc
    · exact absurd hheld ((O.past t c e hc).not_held n)
    · have hcur := O.current t e
      cases hstage : (s.pc t).stage e with
      | unopened => rw [hstage] at hcur; exact Unopened.closers hcur
      | pending m => rw [hstage] at hcur; exact OpenAt.closers hcur
      | settled => rw [hstage] at hcur; exact absurd hheld (hcur.not_held n)
    · exact (O.future t c e hc).closers

variable [DecidableEq ι]

/-- A step of one thread that keeps to the ends of its current call, or begins a new call
between two, keeps the invariant. -/
theorem Owned.act (O : Owned s) {t : ι} {c : Nat} {p : Pc}
    (hc : c = s.calls t ∨ (c = s.calls t + 1 ∧ s.pc t = .idle))
    (hsame : ∀ d, (∀ e, d ≠ .pipe t c e) → Same s.files f d)
    (hcurrent : ∀ e, (p.stage e).Holds f (.pipe t c e) (t, c)) (hp : p.Distinct) :
    Owned ⟨f, Function.update s.pc t p, Function.update s.calls t c⟩ := by
  have hother : ∀ t' c' e, t' ≠ t → Same s.files f (.pipe t' c' e) := by
    intro t' c' e ht
    refine hsame _ ?_
    intro e' h
    exact ht (Description.pipe.inj h).1
  have hcall : ∀ c' e, c' ≠ c → Same s.files f (.pipe t c' e) := by
    intro c' e hne
    refine hsame _ ?_
    intro e' h
    exact hne (Description.pipe.inj h).2.1
  constructor
  case process =>
    intro n
    have hs : Same s.files f (.process n) := hsame _ fun e h => by cases h
    exact hs.closers.trans (O.process n)
  case future =>
    intro t' c' e hlt
    dsimp only at hlt
    by_cases ht : t' = t
    · subst ht
      rw [Function.update_self] at hlt
      exact (hcall c' e (by omega)).unopened (O.future t' c' e (by omega))
    · rw [Function.update_of_ne ht] at hlt
      exact (hother t' c' e ht).unopened (O.future t' c' e hlt)
  case past =>
    intro t' c' e hlt
    dsimp only at hlt
    by_cases ht : t' = t
    · subst ht
      rw [Function.update_self] at hlt
      refine Stage.Holds.same ?_ (hcall c' e (by omega))
      rcases Nat.lt_or_ge c' (s.calls t') with hpast | hge
      · exact O.past t' c' e hpast
      · -- the call that has just returned was the current one
        rcases hc with rfl | ⟨rfl, hidle⟩
        · exact absurd hlt (by omega)
        · obtain rfl : c' = s.calls t' := by omega
          exact O.current_at hidle e
    · rw [Function.update_of_ne ht] at hlt
      exact (O.past t' c' e hlt).same (hother t' c' e ht)
  case current =>
    intro t' e
    dsimp only
    by_cases ht : t' = t
    · subst ht
      rw [Function.update_self, Function.update_self]
      exact hcurrent e
    · rw [Function.update_of_ne ht, Function.update_of_ne ht]
      exact (O.current t' e).same (hother t' _ e ht)
  case distinct =>
    intro t'
    dsimp only
    by_cases ht : t' = t
    · subst ht
      rw [Function.update_self]
      exact hp
    · rw [Function.update_of_ne ht]
      exact O.distinct t'

/-- A step of one thread within its current call. -/
theorem Owned.move (O : Owned s) {t : ι} {p : Pc}
    (hsame : ∀ d, (∀ e, d ≠ .pipe t (s.calls t) e) → Same s.files f d)
    (hcurrent : ∀ e, (p.stage e).Holds f (.pipe t (s.calls t) e) (t, s.calls t))
    (hp : p.Distinct) : Owned ⟨f, Function.update s.pc t p, s.calls⟩ := by
  have h := O.act (Or.inl rfl) hsame hcurrent hp
  rw [Function.update_eq_self] at h
  exact h

/-- Between two calls, a new call begins with `pipe(ofd)`. -/
theorem Owned.step_idle (O : Owned s) {t : ι} (ok : Bool) (hpc : s.pc t = .idle) :
    Owned (s.step t ok) := by
  rw [Process.step, hpc]
  have hcall : s.calls t + 1 = s.calls t + 1 ∧ s.pc t = .idle := ⟨rfl, hpc⟩
  have hnew : ∀ e, Unopened s.files (.pipe t (s.calls t + 1) e) :=
    fun e => O.future t _ e (Nat.lt_succ_self _)
  cases ok with
  | true =>
    obtain ⟨hr, hw, hother⟩ := Files.pipe_spec (by simp) (hnew .outRead) (hnew .outWrite)
    refine O.act (Or.inr hcall) (fun d hd => hother d (hd _) (hd _)) ?_ trivial
    intro e
    cases e with
    | outRead => exact hr
    | outWrite => exact hw
    | errRead => exact (hother _ (by simp) (by simp)).unopened (hnew .errRead)
    | errWrite => exact (hother _ (by simp) (by simp)).unopened (hnew .errWrite)
  | false =>
    exact O.act (Or.inr hcall) (fun d _ => Same.refl _ d) (fun e => Or.inl (hnew e)) trivial

/-- After `pipe(ofd)`, the call goes on with `pipe(efd)`. -/
theorem Owned.step_pipeErr (O : Owned s) {t : ι} (ok : Bool) {ofd : Nat × Nat}
    (hpc : s.pc t = .pipeErr ofd) : Owned (s.step t ok) := by
  rw [Process.step, hpc]
  have hcur := O.current_at hpc
  cases ok with
  | true =>
    obtain ⟨hr, hw, hother⟩ := Files.pipe_spec (by simp) (hcur .errRead) (hcur .errWrite)
    refine O.move (fun d hd => hother d (hd _) (hd _)) ?_ trivial
    intro e
    cases e with
    | outRead => exact (hother _ (by simp) (by simp)).openAt (hcur .outRead)
    | outWrite => exact (hother _ (by simp) (by simp)).openAt (hcur .outWrite)
    | errRead => exact hr
    | errWrite => exact hw
  | false =>
    refine O.move (fun d _ => Same.refl _ d) ?_ (by decide : (afterPipeFailure.map _).Nodup)
    intro e
    cases e with
    | outRead => exact hcur .outRead
    | outWrite => exact hcur .outWrite
    | errRead => exact Or.inl (hcur .errRead)
    | errWrite => exact Or.inl (hcur .errWrite)

/-- After both pipes, `fork` decides how the ends are closed; either way all four are. -/
theorem Owned.step_fork (O : Owned s) {t : ι} (ok : Bool) {a : Arrays}
    (hpc : s.pc t = .fork a) : Owned (s.step t ok) := by
  rw [Process.step, hpc]
  have hcur := O.current_at hpc
  cases ok with
  | true =>
    refine O.move (fun d _ => Same.refl _ d) ?_ (by decide : (afterFork.map _).Nodup)
    intro e
    cases e <;> exact hcur _
  | false =>
    refine O.move (fun d _ => Same.refl _ d) ?_ (by decide : (afterForkFailure.map _).Nodup)
    intro e
    cases e <;> exact hcur _

/-- The first close of an end closes just that end. -/
theorem Owned.step_close (O : Owned s) {t : ι} (ok : Bool) {a : Arrays} {c : CloseCall} {e : End}
    {todo : List (CloseCall × End)} {again : List End}
    (hpc : s.pc t = .closing a ((c, e) :: todo) again) : Owned (s.step t ok) := by
  rw [Process.step, hpc]
  have hcur := O.current_at hpc
  have hdistinct := O.distinct t
  rw [hpc] at hdistinct
  obtain ⟨hnot, hrest⟩ := List.nodup_cons.mp hdistinct
  have hopen : OpenAt s.files (.pipe t (s.calls t) e) (a.at e) := by
    have h := hcur e
    rw [Pc.stage, List.map_cons, if_pos (List.mem_cons_self ..)] at h
    exact h
  have hother : ∀ d, d ≠ .pipe t (s.calls t) e →
      Same s.files (s.files.close (a.at e) (t, s.calls t)) d := by
    intro d hd
    refine s.files.close_other _ ?_
    rw [(hopen.held _).mpr rfl]
    exact fun h => hd (Option.some.inj h).symm
  refine O.move (fun d hd => hother d (hd e)) ?_ hrest
  intro e'
  by_cases he : e' = e
  · subst he
    rw [Pc.stage, if_neg hnot]
    exact Or.inr (hopen.close _)
  · have hstage : (Pc.closing a todo again).stage e' =
        (Pc.closing a ((c, e) :: todo) again).stage e' := by
      simp only [Pc.stage, List.map_cons, List.mem_cons, he, false_or]
    rw [hstage]
    exact (hcur e').same (hother _ (by simpa using he))

/-- A second close that finds its number free changes nothing. -/
theorem Owned.step_again (O : Owned s) {t : ι} (ok : Bool) {a : Arrays} {e : End}
    {again : List End} (hpc : s.pc t = .closing a [] (e :: again)) (hsafe : Safe s t) :
    Owned (s.step t ok) := by
  rw [Process.step, hpc]
  dsimp only
  rw [Files.close_free (hsafe a e again hpc)]
  have hcur := O.current_at hpc
  exact O.move (fun d _ => Same.refl _ d) hcur List.nodup_nil

/-- Every descriptor operation that meets the condition keeps the invariant. -/
theorem Owned.step (O : Owned s) {t : ι} (ok : Bool) (hsafe : Safe s t) :
    Owned (s.step t ok) := by
  cases hpc : s.pc t with
  | idle => exact O.step_idle ok hpc
  | pipeErr ofd => exact O.step_pipeErr ok hpc
  | fork a => exact O.step_fork ok hpc
  | closing a todo again =>
    cases todo with
    | cons ce todo => exact O.step_close ok hpc
    | nil =>
      cases again with
      | cons e again => exact O.step_again ok hpc hsafe
      | nil =>
        rw [Process.step, hpc]
        have hcur := O.current_at hpc
        exact O.move (fun d _ => Same.refl _ d) hcur trivial

/-- A second close that finds its number taken closes a descriptor of another call. -/
theorem Owned.not_sound_step (O : Owned s) {t : ι} (ok : Bool) (hsafe : ¬Safe s t) :
    ¬Sound (s.step t ok) := by
  simp only [Safe, not_forall] at hsafe
  obtain ⟨a, e, again, hpc, hheld⟩ := hsafe
  obtain ⟨d, hd⟩ := Option.ne_none_iff_exists'.mp hheld
  have hforeign := O.holder_foreign hpc hd
  have hclosed : (s.step t ok).files.closers d = [(t, s.calls t)] := by
    rw [Process.step, hpc]
    dsimp only
    rw [Files.closers_close hd, O.closers_of_held hd]
  intro hsound
  cases d with
  | process m =>
    rw [hsound.process m] at hclosed
    contradiction
  | pipe t' c' e' =>
    rcases hsound.closers t' c' e' with h | h
    · rw [h] at hclosed
      contradiction
    · rw [h, List.cons.injEq, Prod.mk.injEq] at hclosed
      exact hforeign e' (by rw [hclosed.1.1, hclosed.1.2])

end Invariant

section Runs

/-- A worker process before its threads run jobs: some numbers are taken. -/
def Process.start (taken : List Nat) : Process ι where
  files :=
    { table := (taken.map fun n => (⟨n, .process n⟩ : Sigma fun _ : Nat => Description ι)).toAList
      opened := fun _ => false
      closers := fun _ => [] }
  pc := fun _ => .idle
  calls := fun _ => 0

/-- At the start no pipe is open. -/
theorem Process.start_held (taken : List Nat) (t : ι) (c : Nat) (e : End) (n : Nat) :
    (Process.start taken).files.table.lookup n ≠ some (.pipe t c e) := by
  intro h
  rw [Process.start, AList.lookup_to_alist] at h
  have hmem := List.of_mem_dlookup h
  obtain ⟨m, -, heq⟩ := List.mem_map.mp hmem
  simp at heq

theorem Owned.start (taken : List Nat) : Owned (Process.start taken : Process ι) := by
  have hunopened : ∀ t c e, Unopened (Process.start taken : Process ι).files (.pipe t c e) :=
    fun t c e => ⟨rfl, rfl, Process.start_held taken t c e⟩
  constructor
  case process => exact fun n => rfl
  case future => exact fun t c e _ => hunopened t c e
  case past => exact fun t c e _ => Or.inl (hunopened t c e)
  case current => exact fun t e => Or.inl (hunopened t _ e)
  case distinct => exact fun t => trivial

variable [DecidableEq ι]

/-- One step of the process: the thread that moves and the fate of its `pipe` or `fork`. -/
def Process.next (s : Process ι) (event : ι × Bool) : Option (Process ι) :=
  some (s.step event.1 event.2)

/-- In every run of any threads through any `execute` calls, each descriptor is closed only
by the call that created it, exactly once, if and only if every number that is closed for the
second time is free at that moment. -/
theorem descriptors_owned_iff (taken : List Nat) (events : List (ι × Bool)) :
    (∀ fs, fs <+: events → ∀ s, exec Process.next (Process.start taken) fs = some s → Sound s) ↔
      AllSteps Process.next (fun s event => Safe s event.1) (Process.start taken) events := by
  refine forall_reached_iff_allSteps (I := Owned) ?_ ?_ ?_ (Owned.start taken) events
  · intro s O
    exact O.sound
  · intro s event s' O hsafe hnext
    obtain rfl := Option.some.inj hnext
    exact O.step event.2 hsafe
  · intro s event O hsafe
    exact ⟨s.step event.1 event.2, rfl, O.not_sound_step event.2 hsafe⟩

/-- One thread has closed both streams, the other is given number 3 by `pipe`, and the first
closes it from under the other. -/
theorem second_close_takes_descriptor :
    ∃ s, exec Process.next (Process.start [0, 1, 2] : Process Bool)
        (List.replicate 7 (false, true) ++ [(true, true), (false, true)]) = some s ∧
      s.pc true = .pipeErr (3, 4) ∧ s.files.table.lookup 3 = none ∧
      s.files.closers (.pipe true 1 .outRead) = [(false, 1)] ∧ ¬Sound s := by
  refine ⟨_, rfl, by decide +kernel, by decide +kernel, by decide +kernel, ?_⟩
  intro h
  have hclosers := h.closers true 1 .outRead
  revert hclosers
  decide +kernel

end Runs

end Workq.RunJob
