import Workq.RunJob.Descriptors

/-!
# What the processes of run jobs inherit

`fork` copies the worker's whole descriptor table. The child binds its output and error
streams to the write ends of its own two pipes and closes its own four numbers, but it knows
nothing of the pipes that other threads have open at that moment and keeps them through
`execve`. A write end that a foreign process holds delays the end of file that the reading
loop of its own job waits for; and so does a process that the job itself has left behind.
-/

namespace Workq.RunJob

open Workq.Core

variable {ι : Type*}

/-- A process of a job, forked by the worker or by another process of the job: the `execute`
call that it belongs to and its descriptors. -/
structure Child (ι : Type*) where
  call : ι × Nat
  table : AList fun _ : Nat => Description ι

/-- The worker process and the processes of its jobs that have not exited. -/
structure Family (ι : Type*) where
  process : Process ι
  children : List (Child ι)

/-- What can happen next. -/
inductive FamilyEvent (ι : Type*) where
  /-- A thread's next descriptor operation, with the fate of a `pipe` or a `fork`. -/
  | thread (t : ι) (ok : Bool)
  /-- A process of a job exits. -/
  | exit (i : Nat)
  /-- A process of a job forks. -/
  | fork (i : Nat)
  /-- A process of a job closes a number. -/
  | close (i n : Nat)
  /-- A process of a job makes a number stand for what another one stands for. -/
  | dup (i old new : Nat)

/-- The child binds one of its standard streams to a pipe: it closes the read end, makes the
stream's number the same as the write end and closes the write end. -/
def bindStream (T : AList fun _ : Nat => Description ι) (fd : Nat × Nat) (std : Nat) :
    AList fun _ : Nat => Description ι :=
  (dup2 (T.erase fd.1) fd.2 std).erase fd.2

/-- The child's descriptors at its `execve`. -/
def childTable (a : Arrays) (T : AList fun _ : Nat => Description ι) :
    AList fun _ : Nat => Description ι :=
  bindStream (bindStream T a.ofd 1) a.efd 2

section Step

variable [DecidableEq ι]

/-- The processes that a step of a thread forks. -/
def forked (s : Process ι) (t : ι) (ok : Bool) : List (Child ι) :=
  match s.pc t with
  | .fork a => if ok then [⟨(t, s.calls t), childTable a s.files.table⟩] else []
  | _ => []

/-- One event. -/
def Family.next (s : Family ι) : FamilyEvent ι → Option (Family ι)
  | .thread t ok => some ⟨s.process.step t ok, forked s.process t ok ++ s.children⟩
  | .exit i => some { s with children := s.children.eraseIdx i }
  | .fork i => (s.children[i]?).map fun k => { s with children := k :: s.children }
  | .close i n => (s.children[i]?).map fun k =>
      { s with children := s.children.set i { k with table := k.table.erase n } }
  | .dup i old new => (s.children[i]?).map fun k =>
      { s with children := s.children.set i { k with table := dup2 k.table old new } }

end Step

/-- The write ends of the two pipes. -/
def End.writes : End → Bool
  | .outWrite | .errWrite => true
  | _ => false

/-- The process holds no write end of a pipe of another call. -/
def Child.Own (k : Child ι) : Prop :=
  ∀ n t c e, e.writes = true → k.table.lookup n = some (.pipe t c e) → k.call = (t, c)

/-- The process's output and error streams are the write ends of its own call's pipes. -/
structure Child.Bound (k : Child ι) : Prop where
  out : k.table.lookup 1 = some (.pipe k.call.1 k.call.2 .outWrite)
  err : k.table.lookup 2 = some (.pipe k.call.1 k.call.2 .errWrite)

/-- No other thread is between a `pipe` and the `close` of its write end. -/
def Apart (s : Process ι) (t : ι) : Prop :=
  ∀ t', t' ≠ t → ∀ e, e.writes = true → ∀ n, (s.pc t').stage e ≠ .pending n

/-- The step closes no descriptor of another call, and a fork finds no other thread's write
end open. -/
def Clean (s : Family ι) : FamilyEvent ι → Prop
  | .thread t ok =>
    Safe s.process t ∧ ∀ a, s.process.pc t = .fork a → ok = true → Apart s.process t
  | .exit _ | .fork _ | .close _ _ | .dup _ _ _ => True

/-- The event leaves the output and error streams of every process of a job in place. -/
def FamilyEvent.LeavesStreams : FamilyEvent ι → Prop
  | .close _ n | .dup _ _ n => n ≠ 1 ∧ n ≠ 2
  | .thread _ _ | .exit _ | .fork _ => True

section Tables

variable {T : AList fun _ : Nat => Description ι} {d : Description ι}

/-- What binding a stream makes of the numbers. -/
theorem lookup_bindStream {fd : Nat × Nat} {std : Nat} (hw : T.lookup fd.2 = some d)
    (hne : fd.2 ≠ fd.1) (hstd : fd.2 ≠ std) (n : Nat) :
    (bindStream T fd std).lookup n =
      if n = std then some d else if n = fd.1 ∨ n = fd.2 then none else T.lookup n := by
  have hold : (T.erase fd.1).lookup fd.2 = some d := by rw [AList.lookup_erase_ne hne, hw]
  rw [bindStream]
  by_cases hn : n = fd.2
  · rw [hn, AList.lookup_erase, if_neg hstd, if_pos (Or.inr rfl)]
  · rw [AList.lookup_erase_ne hn, lookup_dup2 hold hstd]
    by_cases hn' : n = fd.1
    · rw [hn', AList.lookup_erase, if_pos (Or.inl rfl)]
    · rw [AList.lookup_erase_ne hn', if_neg (not_or.mpr ⟨hn', hn⟩)]

variable {a : Arrays} {own : End → Description ι}

/-- Closing a number gives a process nothing. -/
theorem Child.Own.erase {k : Child ι} (h : k.Own) (n : Nat) :
    Child.Own { k with table := k.table.erase n } := by
  intro m t c e he hheld
  by_cases hm : m = n
  · rw [hm, AList.lookup_erase] at hheld
    contradiction
  · rw [AList.lookup_erase_ne hm] at hheld
    exact h m t c e he hheld

/-- Nor does a second number for what it has. -/
theorem Child.Own.dup2 {k : Child ι} (h : k.Own) (old new : Nat) :
    Child.Own { k with table := Core.dup2 k.table old new } := by
  intro m t c e he hheld
  cases hold : k.table.lookup old with
  | none =>
    simp only [Core.dup2, hold] at hheld
    exact h m t c e he hheld
  | some d =>
    by_cases hne : old = new
    · simp only [Core.dup2, hold, if_pos hne] at hheld
      exact h m t c e he hheld
    · simp only [lookup_dup2 hold hne] at hheld
      split at hheld
      · exact h old t c e he (hold.trans hheld)
      · exact h m t c e he hheld

theorem Child.Bound.erase {k : Child ι} (h : k.Bound) {n : Nat} (hn : n ≠ 1 ∧ n ≠ 2) :
    Child.Bound { k with table := k.table.erase n } where
  out := by rw [AList.lookup_erase_ne hn.1.symm, h.out]
  err := by rw [AList.lookup_erase_ne hn.2.symm, h.err]

theorem Child.Bound.dup2 {k : Child ι} (h : k.Bound) (old : Nat) {new : Nat}
    (hn : new ≠ 1 ∧ new ≠ 2) : Child.Bound { k with table := Core.dup2 k.table old new } := by
  cases hold : k.table.lookup old with
  | none => constructor <;> simp only [Core.dup2, hold, h.out, h.err]
  | some d =>
    by_cases hne : old = new
    · constructor <;> simp only [Core.dup2, hold, if_pos hne, h.out, h.err]
    · constructor
      · rw [lookup_dup2 hold hne, if_neg hn.1.symm, h.out]
      · rw [lookup_dup2 hold hne, if_neg hn.2.symm, h.err]

/-- The four numbers of a call whose ends are open are distinct. -/
theorem at_injective (hinj : Function.Injective own)
    (hopen : ∀ e, T.lookup (a.at e) = some (own e)) : Function.Injective a.at := by
  intro e e' h
  refine hinj (Option.some.inj ?_)
  rw [← hopen e, ← hopen e', h]

/-- What a child has of the worker's descriptors: its own write ends as its output and error
streams, none of its own four numbers, and whatever else the worker had open. -/
structure Inherits (own : End → Description ι) (a : Arrays)
    (T U : AList fun _ : Nat => Description ι) : Prop where
  out : U.lookup 1 = some (own .outWrite)
  err : U.lookup 2 = some (own .errWrite)
  closed : ∀ e, U.lookup (a.at e) = none
  rest : ∀ n, n ≠ 1 → n ≠ 2 → (∀ e, n ≠ a.at e) → U.lookup n = T.lookup n

theorem inherits_childTable (hinj : Function.Injective own)
    (hopen : ∀ e, T.lookup (a.at e) = some (own e)) (hstd : ∀ e, a.at e ≠ 1 ∧ a.at e ≠ 2) :
    Inherits own a T (childTable a T) := by
  have hne : ∀ e e' : End, e ≠ e' → a.at e ≠ a.at e' :=
    fun _ _ h => (at_injective hinj hopen).ne h
  have hout : ∀ n, (bindStream T a.ofd 1).lookup n = if n = 1 then some (own .outWrite)
      else if n = a.at .outRead ∨ n = a.at .outWrite then none else T.lookup n :=
    lookup_bindStream (hopen .outWrite) (hne .outWrite .outRead (by decide)) (hstd .outWrite).1
  have hthrough : ∀ e, e ≠ .outRead → e ≠ .outWrite →
      (bindStream T a.ofd 1).lookup (a.at e) = some (own e) := by
    intro e hr hw
    rw [hout, if_neg (hstd e).1, if_neg (not_or.mpr ⟨hne e _ hr, hne e _ hw⟩), hopen e]
  have herr : ∀ n, (childTable a T).lookup n = if n = 2 then some (own .errWrite)
      else if n = a.at .errRead ∨ n = a.at .errWrite then none
      else (bindStream T a.ofd 1).lookup n :=
    lookup_bindStream (hthrough .errWrite (by decide) (by decide))
      (hne .errWrite .errRead (by decide)) (hstd .errWrite).2
  constructor
  case out =>
    have hfree : ¬ (1 = a.at .errRead ∨ 1 = a.at .errWrite) :=
      not_or.mpr ⟨(hstd .errRead).1.symm, (hstd .errWrite).1.symm⟩
    rw [herr, if_neg (by decide), if_neg hfree, hout, if_pos rfl]
  case err => rw [herr, if_pos rfl]
  case closed =>
    intro e
    rw [herr, if_neg (hstd e).2]
    by_cases he : a.at e = a.at .errRead ∨ a.at e = a.at .errWrite
    · rw [if_pos he]
    · rw [if_neg he, hout, if_neg (hstd e).1, if_pos]
      cases e with
      | outRead => exact Or.inl rfl
      | outWrite => exact Or.inr rfl
      | errRead => exact absurd (Or.inl rfl) he
      | errWrite => exact absurd (Or.inr rfl) he
  case rest =>
    intro n h1 h2 hn
    rw [herr, if_neg h2, if_neg (not_or.mpr ⟨hn _, hn _⟩), hout, if_neg h1,
      if_neg (not_or.mpr ⟨hn _, hn _⟩)]

end Tables

section Invariant

variable {s : Process ι} {t : ι} {a : Arrays}

/-- A pipe's end that is open belongs to a current call, which has still to close it. -/
theorem Owned.pending_of_held (O : Owned s) {t' : ι} {c n : Nat} {e : End}
    (hheld : s.files.table.lookup n = some (.pipe t' c e)) :
    c = s.calls t' ∧ ∃ m, (s.pc t').stage e = .pending m := by
  rcases Nat.lt_trichotomy c (s.calls t') with hc | rfl | hc
  · exact absurd hheld ((O.past t' c e hc).not_held n)
  · refine ⟨rfl, ?_⟩
    have hcur := O.current t' e
    cases hstage : (s.pc t').stage e with
    | unopened =>
      rw [hstage] at hcur
      exact absurd hheld (Unopened.held hcur n)
    | pending m => exact ⟨m, rfl⟩
    | settled =>
      rw [hstage] at hcur
      exact absurd hheld (hcur.not_held n)
  · exact absurd hheld ((O.future t' c e hc).held n)

/-- The worker's own output and error streams are open. -/
def Stdio (s : Process ι) : Prop :=
  s.files.table.lookup 1 = some (.process 1) ∧ s.files.table.lookup 2 = some (.process 2)

/-- No pipe is given the number of a standard stream. -/
theorem Stdio.number_ne (S : Stdio s) {n c : Nat} {t : ι} {e : End}
    (hheld : s.files.table.lookup n = some (.pipe t c e)) : n ≠ 1 ∧ n ≠ 2 := by
  constructor <;> rintro rfl
  · rw [S.1] at hheld
    cases hheld
  · rw [S.2] at hheld
    cases hheld

/-- The ends of a call at its `fork` are open. -/
theorem Owned.lookup_fork (O : Owned s) (hpc : s.pc t = .fork a) (e : End) :
    s.files.table.lookup (a.at e) = some (.pipe t (s.calls t) e) := by
  have hcur : OpenAt s.files (.pipe t (s.calls t) e) (a.at e) := O.current_at hpc e
  exact (hcur.held _).mpr rfl

/-- What the child of a call inherits. -/
theorem Owned.inherits (O : Owned s) (S : Stdio s) (hpc : s.pc t = .fork a) :
    Inherits (.pipe t (s.calls t)) a s.files.table (childTable a s.files.table) := by
  refine inherits_childTable ?_ (O.lookup_fork hpc) (fun e => S.number_ne (O.lookup_fork hpc e))
  intro e e' h
  exact (Description.pipe.inj h).2.2

/-- A child that is forked while no other thread has a write end open has only its own. -/
theorem Owned.own_forked (O : Owned s) (S : Stdio s) (hpc : s.pc t = .fork a)
    (hapart : Apart s t) : Child.Own ⟨(t, s.calls t), childTable a s.files.table⟩ := by
  have I := O.inherits S hpc
  intro n t' c e he hheld
  by_cases h1 : n = 1
  · subst h1
    rw [I.out] at hheld
    cases hheld
    rfl
  by_cases h2 : n = 2
  · subst h2
    rw [I.err] at hheld
    cases hheld
    rfl
  have hn : ∀ e', n ≠ a.at e' := by
    rintro e' rfl
    rw [I.closed] at hheld
    contradiction
  rw [I.rest n h1 h2 hn] at hheld
  obtain ⟨rfl, m, hm⟩ := O.pending_of_held hheld
  by_cases ht : t' = t
  · rw [ht]
  · exact absurd hm (hapart t' ht e he m)

/-- A child that is forked while another thread has a write end open keeps it. -/
theorem Owned.not_own_forked (O : Owned s) (S : Stdio s) (hpc : s.pc t = .fork a)
    (hapart : ¬ Apart s t) : ¬ Child.Own ⟨(t, s.calls t), childTable a s.files.table⟩ := by
  simp only [Apart, not_forall, not_not] at hapart
  obtain ⟨t', ht, e, he, n, hn⟩ := hapart
  have hopen : OpenAt s.files (.pipe t' (s.calls t') e) n := by
    have hcur := O.current t' e
    rw [hn] at hcur
    exact hcur
  have hheld := (hopen.held n).mpr rfl
  have hforeign : ∀ e', n ≠ a.at e' := by
    rintro e' rfl
    rw [O.lookup_fork hpc, Option.some.injEq, Description.pipe.injEq] at hheld
    exact ht hheld.1.symm
  obtain ⟨h1, h2⟩ := S.number_ne hheld
  intro hown
  have hkept := (O.inherits S hpc).rest n h1 h2 hforeign
  have hcall := hown n t' (s.calls t') e he (hkept.trans hheld)
  exact ht (Prod.mk.inj hcall).1.symm

variable [DecidableEq ι]

/-- A step that meets the condition leaves the process's own descriptors alone. -/
theorem Owned.same_process (O : Owned s) (ok : Bool) (hsafe : Safe s t) (n : Nat) :
    Same s.files (s.step t ok).files (.process n) := by
  cases hpc : s.pc t with
  | idle =>
    rw [Process.step, hpc]
    cases ok with
    | true =>
      have hnew : ∀ e, Unopened s.files (.pipe t (s.calls t + 1) e) :=
        fun e => O.future t _ e (Nat.lt_succ_self _)
      obtain ⟨_, _, hother⟩ := Files.pipe_spec (by simp) (hnew .outRead) (hnew .outWrite)
      exact hother _ (by simp) (by simp)
    | false => exact Same.refl _ _
  | pipeErr ofd =>
    rw [Process.step, hpc]
    have hcur := O.current_at hpc
    cases ok with
    | true =>
      obtain ⟨_, _, hother⟩ := Files.pipe_spec (by simp) (hcur .errRead) (hcur .errWrite)
      exact hother _ (by simp) (by simp)
    | false => exact Same.refl _ _
  | fork a =>
    rw [Process.step, hpc]
    cases ok <;> exact Same.refl _ _
  | closing a todo again =>
    rw [Process.step, hpc]
    cases todo with
    | cons ce todo =>
      have hopen : OpenAt s.files (.pipe t (s.calls t) ce.2) (a.at ce.2) := by
        have h := O.current_at hpc ce.2
        rw [Pc.stage, List.map_cons, if_pos (List.mem_cons_self ..)] at h
        exact h
      refine s.files.close_other _ ?_
      rw [(hopen.held _).mpr rfl]
      simp
    | nil =>
      cases again with
      | cons e again =>
        dsimp only
        rw [Files.close_free (hsafe a e again hpc)]
        exact Same.refl _ _
      | nil => exact Same.refl _ _

theorem Stdio.step (S : Stdio s) (O : Owned s) (ok : Bool) (hsafe : Safe s t) :
    Stdio (s.step t ok) :=
  ⟨((O.same_process ok hsafe 1).held 1).mpr S.1, ((O.same_process ok hsafe 2).held 2).mpr S.2⟩

end Invariant

/-- The worker's descriptors are owned, and so are those of the processes of its jobs. -/
structure Family.Tidy (s : Family ι) : Prop where
  owned : Owned s.process
  stdio : Stdio s.process
  own : ∀ k ∈ s.children, k.Own

/-- As long as jobs leave their streams in place, these are the write ends of their pipes. -/
structure Family.Bound (s : Family ι) : Prop extends s.Tidy where
  bound : ∀ k ∈ s.children, k.Bound

/-- The child that a step forks, if it does. -/
theorem mem_forked {s : Process ι} {t : ι} {ok : Bool} {k : Child ι} (h : k ∈ forked s t ok) :
    ∃ a, s.pc t = .fork a ∧ ok = true ∧ k = ⟨(t, s.calls t), childTable a s.files.table⟩ := by
  unfold forked at h
  split at h
  · rename_i a hpc
    cases ok with
    | true => exact ⟨a, hpc, rfl, List.mem_singleton.mp h⟩
    | false => contradiction
  · contradiction

theorem lookup_start {taken : List Nat} {n : Nat} (hn : n ∈ taken) :
    (Process.start taken : Process ι).files.table.lookup n = some (.process n) := by
  rw [Process.start, AList.lookup_to_alist]
  induction taken with
  | nil => contradiction
  | cons m taken ih =>
    rw [List.map_cons]
    by_cases hm : n = m
    · rw [hm]
      exact List.dlookup_cons_eq ..
    · rw [List.dlookup_cons_ne _ _ hm]
      exact ih ((List.mem_cons.mp hn).resolve_left hm)

/-- A worker whose standard streams are open, before its threads run jobs. -/
def Family.start (taken : List Nat) : Family ι := ⟨Process.start taken, []⟩

theorem Family.Tidy.start {taken : List Nat} (hout : 1 ∈ taken) (herr : 2 ∈ taken) :
    (Family.start taken : Family ι).Tidy :=
  ⟨Owned.start taken, ⟨lookup_start hout, lookup_start herr⟩,
    fun _ hk => absurd hk List.not_mem_nil⟩

section Runs

variable [DecidableEq ι] {s s' : Family ι}

/-- What the processes of jobs have in common a step keeps, if every fork gives it to the new
one. -/
theorem forall_children_step {P : Child ι → Prop} {event : FamilyEvent ι}
    (h : s.next event = some s') (hs : ∀ k ∈ s.children, P k)
    (hthread : ∀ t ok, event = .thread t ok → ∀ k ∈ forked s.process t ok, P k)
    (hclose : ∀ i n k, event = .close i n → P k → P { k with table := k.table.erase n })
    (hdup : ∀ i old new k, event = .dup i old new → P k →
      P { k with table := dup2 k.table old new }) :
    ∀ k ∈ s'.children, P k := by
  intro k hk
  cases event with
  | thread t ok =>
    obtain rfl := Option.some.inj h
    rcases List.mem_append.mp hk with hk | hk
    · exact hthread t ok rfl k hk
    · exact hs k hk
  | exit i =>
    obtain rfl := Option.some.inj h
    exact hs k (List.mem_of_mem_eraseIdx hk)
  | fork i =>
    obtain ⟨parent, hparent, rfl⟩ := Option.map_eq_some_iff.mp h
    rcases List.mem_cons.mp hk with rfl | hk
    · exact hs k (List.mem_of_getElem? hparent)
    · exact hs k hk
  | close i n =>
    obtain ⟨k', hk', rfl⟩ := Option.map_eq_some_iff.mp h
    rcases List.mem_or_eq_of_mem_set hk with hk | rfl
    · exact hs k hk
    · exact hclose i n k' rfl (hs k' (List.mem_of_getElem? hk'))
  | dup i old new =>
    obtain ⟨k', hk', rfl⟩ := Option.map_eq_some_iff.mp h
    rcases List.mem_or_eq_of_mem_set hk with hk | rfl
    · exact hs k hk
    · exact hdup i old new k' rfl (hs k' (List.mem_of_getElem? hk'))

/-- What the processes of jobs do leaves the worker's own descriptors alone. -/
theorem process_step {event : FamilyEvent ι} (h : s.next event = some s') :
    s'.process = s.process ∨ ∃ t ok, event = .thread t ok ∧ s'.process = s.process.step t ok := by
  cases event with
  | thread t ok =>
    obtain rfl := Option.some.inj h
    exact Or.inr ⟨t, ok, rfl, rfl⟩
  | exit i =>
    obtain rfl := Option.some.inj h
    exact Or.inl rfl
  | fork i | close i n | dup i old new =>
    obtain ⟨k, _, rfl⟩ := Option.map_eq_some_iff.mp h
    exact Or.inl rfl

/-- Every step that meets the condition keeps the invariant. -/
theorem Family.Tidy.step {event : FamilyEvent ι} (T : s.Tidy) (hclean : Clean s event)
    (h : s.next event = some s') : s'.Tidy := by
  have hown : ∀ k ∈ s'.children, k.Own := by
    refine forall_children_step h T.own ?_ (fun _ n _ _ hk => hk.erase n)
      (fun _ old new _ _ hk => hk.dup2 old new)
    rintro t ok rfl k hk
    obtain ⟨a, hpc, hok, rfl⟩ := mem_forked hk
    exact T.owned.own_forked T.stdio hpc (hclean.2 a hpc hok)
  rcases process_step h with hsame | ⟨t, ok, rfl, hstep⟩
  · exact ⟨hsame ▸ T.owned, hsame ▸ T.stdio, hown⟩
  · exact ⟨hstep ▸ T.owned.step ok hclean.1, hstep ▸ T.stdio.step T.owned ok hclean.1, hown⟩

/-- A child is bound when it is forked, and stays so while jobs leave their streams in place. -/
theorem Family.Bound.step {event : FamilyEvent ι} (B : s.Bound) (hclean : Clean s event)
    (hleaves : event.LeavesStreams) (h : s.next event = some s') : s'.Bound := by
  refine ⟨B.toTidy.step hclean h, forall_children_step h B.bound ?_ ?_ ?_⟩
  · intro t ok _ k hk
    obtain ⟨a, hpc, _, rfl⟩ := mem_forked hk
    have I := B.owned.inherits B.stdio hpc
    exact ⟨I.out, I.err⟩
  · rintro i n k rfl hk
    exact hk.erase hleaves
  · rintro i old new k rfl hk
    exact hk.dup2 old hleaves

/-- A step that does not meet the condition closes a descriptor of another call, or forks a
child with a write end of another call. -/
theorem Family.Tidy.broken {event : FamilyEvent ι} (T : s.Tidy) (hclean : ¬ Clean s event) :
    ∃ s', s.next event = some s' ∧ ¬ (Sound s'.process ∧ ∀ k ∈ s'.children, k.Own) := by
  cases event with
  | thread t ok =>
    refine ⟨_, rfl, ?_⟩
    rintro ⟨hsound, hown⟩
    by_cases hsafe : Safe s.process t
    · refine hclean ⟨hsafe, ?_⟩
      intro a hpc hok
      by_contra hapart
      refine T.owned.not_own_forked T.stdio hpc hapart (hown _ ?_)
      rw [forked, hpc, hok]
      exact List.mem_cons_self ..
    · exact T.owned.not_sound_step ok hsafe hsound
  | exit | fork | close | dup => exact absurd trivial hclean

/-- In every run of any threads through any `execute` calls, whatever the processes of the jobs
do, each descriptor is closed only by the call that created it and no process of a job holds a
write end of a pipe of another call, if and only if every number that is closed for the second time
is free at that moment and no `fork` falls between the `pipe` of another thread and the
`close` of its write end. -/
theorem children_hold_own_ends_iff {taken : List Nat} (hout : 1 ∈ taken) (herr : 2 ∈ taken)
    (events : List (FamilyEvent ι)) :
    (∀ fs, fs <+: events → ∀ s, exec Family.next (Family.start taken) fs = some s →
        Sound s.process ∧ ∀ k ∈ s.children, k.Own) ↔
      AllSteps Family.next Clean (Family.start taken) events :=
  forall_reached_iff_allSteps (I := Family.Tidy) (fun _ T => ⟨T.owned.sound, T.own⟩)
    (fun _ _ _ T hclean h => T.step hclean h) (fun _ _ T hclean => T.broken hclean)
    (.start hout herr) events

/-- A read from a pipe finds the end of file: nobody holds its write end. -/
def Family.Ended (s : Family ι) (t : ι) (c : Nat) (e : End) : Prop :=
  (∀ n, s.process.files.table.lookup n ≠ some (.pipe t c e)) ∧
    ∀ k ∈ s.children, ∀ n, k.table.lookup n ≠ some (.pipe t c e)

/-- In every run whose steps meet the condition, a call that has closed its write ends reads
the end of its job's output, and of its errors, exactly when no process of its own job holds
the write end any more; and as long as jobs leave their streams in place, exactly when its child
and all processes that descend from it have exited. -/
theorem output_ends_with_job {taken : List Nat} (hout : 1 ∈ taken) (herr : 2 ∈ taken)
    {events : List (FamilyEvent ι)}
    (hclean : AllSteps Family.next Clean (Family.start taken) events)
    (hrun : exec Family.next (Family.start taken) events = some s) {t : ι} {c : Nat} {e : End}
    (he : e.writes = true) (hclosed : ∀ n, s.process.files.table.lookup n ≠ some (.pipe t c e)) :
    (s.Ended t c e ↔ ∀ k ∈ s.children, k.call = (t, c) →
      ∀ n, k.table.lookup n ≠ some (.pipe t c e)) ∧
    ((∀ event ∈ events, event.LeavesStreams) →
      (s.Ended t c e ↔ ∀ k ∈ s.children, k.call ≠ (t, c))) := by
  have hstart : (Family.start taken : Family ι).Tidy := .start hout herr
  have T : s.Tidy := exec_preserves (fun _ _ _ hC T h => T.step hC h) hclean hstart hrun
  have hended : s.Ended t c e ↔ ∀ k ∈ s.children, k.call = (t, c) →
      ∀ n, k.table.lookup n ≠ some (.pipe t c e) := by
    constructor
    · exact fun hended k hk _ => hended.2 k hk
    · intro hown
      refine ⟨hclosed, ?_⟩
      intro k hk n hheld
      exact hown k hk (T.own k hk n t c e he hheld) n hheld
  refine ⟨hended, ?_⟩
  intro hleaves
  have B : s.Bound := exec_preserves
    (C := fun s event => Clean s event ∧ event.LeavesStreams) (P := Family.Bound)
    (fun _ _ _ hC B h => B.step hC.1 hC.2 h) (hclean.and_forall hleaves)
    ⟨hstart, fun k hk => absurd hk List.not_mem_nil⟩ hrun
  rw [hended]
  constructor
  · intro hnone k hk hcall
    obtain ⟨hone, htwo⟩ := B.bound k hk
    rw [hcall] at hone htwo
    cases e with
    | outRead | errRead => contradiction
    | outWrite => exact hnone k hk hcall 1 hone
    | errWrite => exact hnone k hk hcall 2 htwo
  · exact fun hgone k hk hcall => absurd hcall (hgone k hk)

end Runs

/-- One thread is at its `fork` when another one opens its first pipe. -/
def overlap : List (FamilyEvent Bool) :=
  [.thread false true, .thread false true, .thread true true, .thread false true]

/-- The child of the first thread has the write end of the second one. -/
theorem children_hold_own_ends_iff_overlap :
    ¬ ∀ fs, fs <+: overlap → ∀ s, exec Family.next (Family.start [0, 1, 2]) fs = some s →
      Sound s.process ∧ ∀ k ∈ s.children, k.Own := by
  rw [children_hold_own_ends_iff (by decide) (by decide)]
  rintro ⟨_, h⟩
  have hfork := ((h _ rfl).2 _ rfl).2 _ rfl
  exact hfork.1.2 _ rfl rfl true (by decide) .outWrite rfl _ rfl

/-- A call has forked and closed its write ends; its child starts a process in the background
and exits. -/
def background : List (FamilyEvent Unit) :=
  List.replicate 5 (.thread () true) ++ [.fork 0, .exit 1]

/-- The job's output has not ended. -/
theorem output_ends_with_job_background :
    ∃ s, exec Family.next (Family.start [0, 1, 2] : Family Unit) background = some s ∧
      ¬ s.Ended () 1 .outWrite := by
  have hclean : AllSteps Family.next Clean (Family.start [0, 1, 2] : Family Unit) background := by
    have hstep : ∀ s : Family Unit, (∀ a e again, s.process.pc () ≠ .closing a [] (e :: again)) →
        Clean s (.thread () true) := fun s hs =>
      ⟨fun a e again hpc => absurd hpc (hs a e again), fun _ _ _ t' ht => absurd rfl ht⟩
    refine ⟨hstep _ nofun, fun s hs => ?_⟩
    obtain rfl := Option.some.inj hs
    refine ⟨hstep _ nofun, fun s hs => ?_⟩
    obtain rfl := Option.some.inj hs
    refine ⟨hstep _ nofun, fun s hs => ?_⟩
    obtain rfl := Option.some.inj hs
    refine ⟨hstep _ nofun, fun s hs => ?_⟩
    obtain rfl := Option.some.inj hs
    exact ⟨hstep _ nofun, fun _ _ => ⟨trivial, fun _ _ => ⟨trivial, fun _ _ => trivial⟩⟩⟩
  have hrun : (exec Family.next (Family.start [0, 1, 2] : Family Unit) background).map (fun s =>
        (s.process.files.table.entries.map Sigma.snd, s.children.map Child.call)) =
      some ([.pipe () 1 .errRead, .pipe () 1 .outRead, .process 0, .process 1, .process 2],
        [((), 1)]) := by
    decide +kernel
  obtain ⟨s, hs, hend⟩ := Option.map_eq_some_iff.mp hrun
  obtain ⟨hentries, hchildren⟩ := Prod.mk.inj hend
  have hclosed : ∀ n, s.process.files.table.lookup n ≠ some (.pipe () 1 .outWrite) := by
    intro n hn
    have hmem := List.mem_map_of_mem (f := Sigma.snd) (AList.mem_lookup_iff.mp hn)
    rw [hentries] at hmem
    exact absurd hmem (by simp)
  have hleaves : ∀ event ∈ background, event.LeavesStreams := by
    simp [background, FamilyEvent.LeavesStreams]
  refine ⟨s, hs, ?_⟩
  rw [(output_ends_with_job (by decide) (by decide) hclean hs rfl hclosed).2 hleaves]
  intro hgone
  obtain ⟨k, hk, hcall⟩ := List.mem_map.mp (hchildren ▸ List.mem_singleton_self ((), 1))
  exact hgone k hk hcall

end Workq.RunJob
