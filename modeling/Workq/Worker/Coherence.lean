import Workq.Worker.Fetch

/-!
# Lock and status agree when no statement fails

With every statement successful, creators that make a job and unknown jobs discarded,
a row has a lock id exactly while it is on its way to execution, and the call that put
it there is still responsible for it: the thread is inside that `find_jobs` call or has
the row's job unfinished in its batch. The invariant names, for each program point, the
rows the thread still has to unlock.
-/

namespace Workq.Worker

open Workq.Core Workq.Jobs

variable {ι : Type*}

/-- The statement or creator of the action succeeds. -/
def Action.Succeeds : Action → Prop
  | .claim _ reply | .update reply => reply = .ok
  | .fetch reply => reply = .ok
  | .create made => made = true
  | _ => True

instance (a : Action) : Decidable a.Succeeds :=
  match a with
  | .claim _ reply | .update reply => inferInstanceAs (Decidable (reply = .ok))
  | .fetch reply => inferInstanceAs (Decidable (reply = .ok))
  | .create made => inferInstanceAs (Decidable (made = true))
  | .check | .timeout | .pop | .done | .execute _ _ => inferInstanceAs (Decidable True)

/-- No statement and no creator fails in the event. -/
def Event.Succeeds : Event ι → Prop
  | .thread _ a => a.Succeeds
  | _ => True

/-- The `find_jobs` call that a thread is in after its claim. -/
def Pc.call : Pc → Option Call
  | .select c | .release c | .rows c _ _ | .discard c _ _ _ _ | .mark c _ _ _ => some c
  | _ => none

/-- The jobs of the batch that are not finished. -/
def Pc.unfinished : Pc → List JobId
  | .batch _ jobs => jobs
  | .finish _ id _ jobs => id :: jobs
  | _ => []

/-- The thread still has to unlock the row that carries the given lock id. -/
def Pc.Covers (p : Pc) (lock : List Char) (id : JobId) : Prop :=
  match p with
  | .select c => c.lock = lock
  | .rows c rest jobs | .mark c _ rest jobs => c.lock = lock ∧ id ∈ rest.map Fetched.id ++ jobs
  | .discard c i _ rest jobs => c.lock = lock ∧ (id = i ∨ id ∈ rest.map Fetched.id ++ jobs)
  | .batch _ jobs => id ∈ jobs
  | .finish _ i _ jobs => id = i ∨ id ∈ jobs
  | _ => False

/-- The program points that a run without failures reaches. -/
def Pc.Regular : Pc → Prop
  | .release _ => False
  | .discard _ _ known _ _ => known = false
  | .mark _ id _ jobs => id ∈ jobs
  | _ => True

/-- A row carries a lock id. -/
def JobRow.Locked (r : JobRow) : Prop := ∃ l, l ≠ [] ∧ r.lockedQueueId = some l

/-- A thread that covers a row is inside the call or has its job unfinished. -/
theorem Pc.Covers.inside {p : Pc} {lock : List Char} {id : JobId} (h : p.Covers lock id) :
    (∃ c, p.call = some c ∧ c.lock = lock) ∨ id ∈ p.unfinished := by
  cases p with
  | select c => exact Or.inl ⟨c, rfl, h⟩
  | rows c rest jobs => exact Or.inl ⟨c, rfl, h.1⟩
  | discard c i known rest jobs => exact Or.inl ⟨c, rfl, h.1⟩
  | mark c i rest jobs => exact Or.inl ⟨c, rfl, h.1⟩
  | batch w jobs => exact Or.inr h
  | finish w i ret jobs => exact Or.inr (List.mem_cons.mpr h)
  | head | timedPop | tryPop | findJobs | release | exited => exact h.elim

/-- The coherence invariant. -/
structure Coherent (sh : Shared ι) (pc : ι → Pc) : Prop where
  status : ∀ id r, sh.table.get? id = some r → (JobRow.Locked r ↔ Status.Running r.status)
  covered : ∀ id r l, sh.table.get? id = some r → l ≠ [] → r.lockedQueueId = some l →
    ∃ c ∈ sh.claims, c.lock = l ∧ id ∈ c.marked ∧ (pc c.queue).Covers l id
  issued : ∀ c ∈ sh.claims, c.lock ≠ []
  regular : ∀ q, (pc q).Regular

section Preservation

variable {sh : Shared ι} {pc : ι → Pc} {q : ι}

/-- A locked row that a queue owns is covered by that queue's thread. -/
theorem Coherent.covers_own (C : Coherent sh pc) (L : Ledger sh pc) {id : JobId} {r : JobRow}
    {l : List Char} (hown : sh.Owns q id) (hr : sh.table.get? id = some r) (hne : l ≠ [])
    (hl : r.lockedQueueId = some l) :
    ∃ c ∈ sh.claims, c.lock = l ∧ id ∈ c.marked ∧ c.queue = q ∧ (pc q).Covers l id := by
  obtain ⟨c, hc, hcl, hm, hcov⟩ := C.covered id r l hr hne hl
  obtain rfl := L.owns_unique ⟨c, hc, rfl, hm⟩ hown
  exact ⟨c, hc, hcl, hm, rfl, hcov⟩

/-- A cleared lock goes with a status that is not on its way. -/
theorem locked_iff_running_of_cleared {r : JobRow} (hl : r.lockedQueueId = some [])
    (hs : ¬ Status.Running r.status) : JobRow.Locked r ↔ Status.Running r.status := by
  refine iff_of_false ?_ hs
  rintro ⟨l, hne, h⟩
  exact hne (Option.some.inj (h.symm.trans hl))

variable [DecidableEq ι]

/-- A write to own rows keeps coherence when each of them comes out coherent and, if still
locked, covered at the thread's new program point. -/
theorem Coherent.write (C : Coherent sh pc) {T : JobsTable} {p : Pc}
    (hw : OwnWrite sh q T) (hp : p.Regular)
    (hrow : ∀ id r, sh.Owns q id → T.get? id = some r →
      (JobRow.Locked r ↔ Status.Running r.status) ∧ ∀ l, l ≠ [] → r.lockedQueueId = some l →
        p.Covers l id ∧ ∃ c ∈ sh.claims, c.lock = l ∧ id ∈ c.marked ∧ c.queue = q) :
    Coherent { sh with table := T } (Function.update pc q p) where
  status id r hr := by
    by_cases hown : sh.Owns q id
    · exact (hrow id r hown hr).1
    · exact C.status id r ((hw.frame id hown).symm.trans hr)
  covered id r l hr hne hl := by
    by_cases hown : sh.Owns q id
    · obtain ⟨hcov, c, hc, hcl, hm, hcq⟩ := (hrow id r hown hr).2 l hne hl
      exact ⟨c, hc, hcl, hm, by rw [hcq, Function.update_self]; exact hcov⟩
    · obtain ⟨c, hc, hcl, hm, hcov⟩ :=
        C.covered id r l ((hw.frame id hown).symm.trans hr) hne hl
      have hq : c.queue ≠ q := fun h => hown ⟨c, hc, h, hm⟩
      exact ⟨c, hc, hcl, hm, by rw [Function.update_of_ne hq]; exact hcov⟩
  issued := C.issued
  regular := (Function.forall_update_iff pc fun _ p => p.Regular).mpr
    ⟨hp, fun q' _ => C.regular q'⟩

/-- A step inside the thread keeps coherence when it goes on covering its locked rows. -/
theorem Coherent.move (C : Coherent sh pc) (L : Ledger sh pc) {p : Pc} (hp : p.Regular)
    (hcov : ∀ id r l, sh.table.get? id = some r → r.lockedQueueId = some l →
      (pc q).Covers l id → p.Covers l id) : Coherent sh (Function.update pc q p) := by
  refine C.write (OwnWrite.refl sh q) hp ?_
  intro id r hown hr
  refine ⟨C.status id r hr, ?_⟩
  intro l hne hl
  obtain ⟨c, hc, hcl, hm, hcq, h⟩ := C.covers_own L hown hr hne hl
  exact ⟨hcov id r l hr hl h, c, hc, hcl, hm, hcq⟩

/-- A thread that has nothing to unlock may go anywhere. -/
theorem Coherent.wander (C : Coherent sh pc) (L : Ledger sh pc) {p : Pc} (hp : p.Regular)
    (hnone : ∀ l id, ¬ (pc q).Covers l id) : Coherent sh (Function.update pc q p) :=
  C.move L hp fun id _ l _ _ hc => absurd hc (hnone l id)

/-- A statement on the row in hand keeps coherence when that row comes out coherent and
the thread goes on covering the rows it covered besides it. -/
theorem Coherent.key (C : Coherent sh pc) (L : Ledger sh pc) {T : JobsTable} {p : Pc}
    {id : JobId} {f : JobRow → JobRow} (hw : OwnWrite sh q T) (hp : p.Regular)
    (hT : ∀ i, T.get? i = if i = id then (sh.table.get? i).map f else sh.table.get? i)
    (hf : ∀ r, sh.table.get? id = some r → (JobRow.Locked (f r) ↔ Status.Running (f r).status) ∧
      ((f r).lockedQueueId = some [] ∨
        ((f r).lockedQueueId = r.lockedQueueId ∧ ∀ l, (pc q).Covers l id → p.Covers l id)))
    (hcov : ∀ i l, i ≠ id → (pc q).Covers l i → p.Covers l i) :
    Coherent { sh with table := T } (Function.update pc q p) := by
  refine C.write hw hp ?_
  intro i r hown hr
  rw [hT] at hr
  split at hr
  · rename_i hi
    subst hi
    obtain ⟨r₀, hr₀, rfl⟩ := Option.map_eq_some_iff.mp hr
    obtain ⟨hst, hlock⟩ := hf r₀ hr₀
    refine ⟨hst, ?_⟩
    intro l hne hl
    rcases hlock with hlock | ⟨hlock, hc⟩
    · exact absurd (Option.some.inj (hl.symm.trans hlock)) hne
    · obtain ⟨c, hcm, hcl, hm, hcq, h⟩ := C.covers_own L hown hr₀ hne (hlock ▸ hl)
      exact ⟨hc l h, c, hcm, hcl, hm, hcq⟩
  · rename_i hi
    refine ⟨C.status i r hr, ?_⟩
    intro l hne hl
    obtain ⟨c, hcm, hcl, hm, hcq, h⟩ := C.covers_own L hown hr hne hl
    exact ⟨hcov i l hi h, c, hcm, hcl, hm, hcq⟩

/-- A statement that takes the row in hand off its way and clears its lock keeps
coherence. -/
theorem Coherent.settle (C : Coherent sh pc) (L : Ledger sh pc) {T : JobsTable} {p : Pc}
    {id : JobId} {f : JobRow → JobRow} (hw : OwnWrite sh q T) (hp : p.Regular)
    (hT : ∀ i, T.get? i = if i = id then (sh.table.get? i).map f else sh.table.get? i)
    (hclear : ∀ r, (f r).lockedQueueId = some []) (hstatus : ∀ r, ¬ Status.Running (f r).status)
    (hcov : ∀ i l, i ≠ id → (pc q).Covers l i → p.Covers l i) :
    Coherent { sh with table := T } (Function.update pc q p) := by
  refine C.key L hw hp hT ?_ hcov
  intro r _
  exact ⟨locked_iff_running_of_cleared (hclear r) (hstatus r), Or.inl (hclear r)⟩

/-- A claim keeps coherence: its rows are locked, loading and covered by the open call. -/
theorem Coherent.claim (C : Coherent sh pc) {w : Nat} {lock : List Char} (hne : lock ≠ [])
    (hpc : pc q = .findJobs w) :
    Coherent (sh.claim q lock w .ok) (Function.update pc q (.select ⟨lock, w⟩)) where
  status id r hr := by
    change (Jobs.claim sh.table lock w).get? id = some r at hr
    by_cases hid : id ∈ claimIds sh.table w
    · rw [get?_claim, if_pos hid] at hr
      obtain ⟨r₀, _, rfl⟩ := Option.map_eq_some_iff.mp hr
      exact iff_of_true ⟨lock, hne, rfl⟩ (Or.inl rfl)
    · rw [get?_claim, if_neg hid] at hr
      exact C.status id r hr
  covered id r l hr hl hlock := by
    change (Jobs.claim sh.table lock w).get? id = some r at hr
    by_cases hid : id ∈ claimIds sh.table w
    · rw [get?_claim, if_pos hid] at hr
      obtain ⟨r₀, _, rfl⟩ := Option.map_eq_some_iff.mp hr
      refine ⟨_, List.mem_cons_self .., Option.some.inj hlock, hid, ?_⟩
      rw [Function.update_self]
      exact Option.some.inj hlock
    · rw [get?_claim, if_neg hid] at hr
      obtain ⟨c, hc, hcl, hm, hcov⟩ := C.covered id r l hr hl hlock
      refine ⟨c, List.mem_cons_of_mem _ hc, hcl, hm, ?_⟩
      have hq : c.queue ≠ q := by
        intro h
        rw [h, hpc] at hcov
        exact hcov
      rw [Function.update_of_ne hq]
      exact hcov
  issued c hc := by
    rcases List.mem_cons.mp hc with rfl | hc
    · exact hne
    · exact C.issued c hc
  regular := (Function.forall_update_iff pc fun _ p => p.Regular).mpr
    ⟨trivial, fun q' _ => C.regular q'⟩

/-- The lookup of a fetched row leaves the row to the thread, as a job or to be discarded. -/
theorem Coherent.create {cfg : Config} (C : Coherent sh pc) (L : Ledger sh pc) {c : Call}
    {row : Fetched} {rest : List Fetched} {jobs : List JobId}
    (hpc : pc q = .rows c (row :: rest) jobs) (hdiscard : cfg.discardUnknownJobs = true) :
    Coherent sh (Function.update pc q (rowPc cfg c row rest jobs true)) := by
  have hold : ∀ l id, (pc q).Covers l id →
      c.lock = l ∧ id ∈ (row :: rest).map Fetched.id ++ jobs := by
    intro l id hc
    rw [hpc] at hc
    exact hc
  rcases Bool.eq_false_or_eq_true (cfg.registered row.name) with hreg | hreg
  · rw [show rowPc cfg c row rest jobs true = .mark c row.id rest (jobs ++ [row.id]) by
      simp only [rowPc, hreg, if_true]]
    refine C.move L (List.mem_append_right jobs (List.mem_singleton_self _)) ?_
    intro id r l _ _ hc
    obtain ⟨hl, hm⟩ := hold l id hc
    refine ⟨hl, ?_⟩
    simp only [List.map_cons, List.cons_append, List.mem_cons, List.mem_append,
      List.not_mem_nil, or_false] at hm ⊢
    tauto
  · rw [show rowPc cfg c row rest jobs true = .discard c row.id false rest jobs by
      simp only [rowPc, hreg, hdiscard, if_true, Bool.false_eq_true, if_false]]
    refine C.move L rfl ?_
    intro id r l _ _ hc
    obtain ⟨hl, hm⟩ := hold l id hc
    exact ⟨hl, List.mem_cons.mp hm⟩

/-- The `UPDATE` to `processing` keeps the row running, locked and covered. -/
theorem Coherent.mark (C : Coherent sh pc) (L : Ledger sh pc) {c : Call} {id : JobId}
    {rest : List Fetched} {jobs : List JobId} (hpc : pc q = .mark c id rest jobs)
    (hid : id ∈ jobs) :
    Coherent { sh with table := setProcessing sh.table id }
      (Function.update pc q (.rows c rest jobs)) := by
  obtain ⟨hown, _⟩ := (L.duty q).current id (by rw [hpc]; rfl)
  obtain ⟨_, _, r₀, hr₀, hs₀⟩ := (L.duty q).todo id (by
    rw [hpc]; exact List.mem_append_right _ hid)
  have hkeep : ∀ i l, (pc q).Covers l i → (Pc.rows c rest jobs).Covers l i := by
    intro i l hc
    rw [hpc] at hc
    exact hc
  refine C.key L (OwnWrite.setProcessing hown) trivial (get?_setProcessing sh.table id) ?_
    (fun i l _ => hkeep i l)
  intro r hr
  obtain rfl : r₀ = r := Option.some.inj (hr₀.symm.trans hr)
  exact ⟨iff_of_true ((C.status id r₀ hr₀).mpr hs₀) (Or.inr rfl), Or.inr ⟨rfl, hkeep id⟩⟩

/-- The `UPDATE` after a job's execution settles its row. -/
theorem Coherent.finish (C : Coherent sh pc) (L : Ledger sh pc) {w ret : Int}
    {id : JobId} {jobs : List JobId} (hpc : pc q = .finish w id ret jobs) :
    Coherent
      { sh with table := if ret ≠ 0 then setComplete sh.table id else setError sh.table id }
      (Function.update pc q (.batch (w - 1) jobs)) := by
  obtain ⟨hown, _⟩ := (L.duty q).finishing id ret (by rw [hpc]; rfl)
  have hkeep : ∀ i l, i ≠ id → (pc q).Covers l i → (Pc.batch (w - 1) jobs).Covers l i := by
    intro i l hi hc
    rw [hpc] at hc
    exact hc.resolve_left hi
  split
  · exact C.settle L (OwnWrite.setComplete hown) trivial (get?_setComplete sh.table id)
      (fun _ => rfl) (fun _ => Status.not_running_complete) hkeep
  · exact C.settle L (OwnWrite.setError hown) trivial (get?_setError sh.table id)
      (fun _ => rfl) (fun _ => Status.not_running_error) hkeep

/-- Every successful step of a thread keeps coherence. -/
theorem Coherent.threadStep {cfg : Config} {sh' : Shared ι} {wq wq' : WorkQueue} {a : Action}
    (C : Coherent sh pc) (L : Ledger sh pc) (hq : pc q = wq.pc)
    (hdiscard : cfg.discardUnknownJobs = true) (ha : a.Succeeds)
    (h : ThreadStep cfg q sh wq a sh' wq') : Coherent sh' (Function.update pc q wq'.pc) := by
  have hreg := hq ▸ C.regular q
  cases h with
  | check hpc =>
    dsimp only
    exact C.wander L (by split <;> trivial) (by rw [hq, hpc]; exact fun _ _ h => h)
  | timeout hpc hm => exact C.wander L trivial (by rw [hq, hpc]; exact fun _ _ h => h)
  | popFirst m ms hpc hm | popNext w m ms hpc hm =>
    exact C.wander L (by cases m <;> trivial) (by rw [hq, hpc]; exact fun _ _ h => h)
  | popNone w hpc hm =>
    dsimp only
    exact C.wander L (by split <;> trivial) (by rw [hq, hpc]; exact fun _ _ h => h)
  | claim w stamp reply hpc hfresh =>
    obtain rfl : reply = .ok := ha
    exact C.claim (lockid_ne_nil stamp) (hq.trans hpc)
  | fetchOk c hpc =>
    obtain ⟨cl, _, _, ho⟩ := (L.duty q).opened c (by rw [hq, hpc]; rfl)
    refine C.move L trivial ?_
    intro id r l hr hl hc
    rw [hq, hpc] at hc
    obtain rfl : c.lock = l := hc
    refine ⟨rfl, ?_⟩
    rw [List.append_nil, ho.fetch_ids]
    exact (ho.exact id r hr).mp hl
  | fetchNoResult c hpc => exact FetchReply.noConfusion ha
  | fetchFailed c hpc => exact FetchReply.noConfusion ha
  | release c reply hpc =>
    rw [hpc] at hreg
    exact hreg.elim
  | create c row rest jobs made hpc =>
    obtain rfl : made = true := ha
    exact C.create L (hq.trans hpc) hdiscard
  | returnJobs c jobs hpc =>
    refine C.move L trivial ?_
    intro id r l _ _ hc
    rw [hq, hpc] at hc
    exact hc.2
  | discard c id known rest jobs reply hpc =>
    obtain rfl : reply = .ok := ha
    obtain ⟨hown, _⟩ := (L.duty q).current id (by rw [hq, hpc]; rfl)
    rw [hpc] at hreg
    obtain rfl : known = false := hreg
    refine C.settle L (OwnWrite.setError hown) trivial (get?_setError sh.table id)
      (fun _ => rfl) (fun _ => Status.not_running_error) ?_
    intro i l hi hc
    rw [hq, hpc] at hc
    exact ⟨hc.1, hc.2.resolve_left hi⟩
  | mark c id rest jobs reply hpc =>
    obtain rfl : reply = .ok := ha
    rw [hpc] at hreg
    exact C.mark L (hq.trans hpc) hreg
  | execute w id jobs loadData execute hpc =>
    have hmove : Coherent sh (Function.update pc q
        (.finish w id (realExecute loadData execute) jobs)) := by
      refine C.move L trivial ?_
      intro i r l _ _ hc
      rw [hq, hpc] at hc
      exact List.mem_cons.mp hc
    exact ⟨hmove.status, hmove.covered, hmove.issued, hmove.regular⟩
  | finish w id ret jobs reply hpc =>
    obtain rfl : reply = .ok := ha
    exact C.finish L (hq.trans hpc)
  | batchEnd w hpc =>
    exact C.wander L trivial (by rw [hq, hpc]; exact fun _ _ h => List.not_mem_nil h)

/-- Every successful step of the system keeps coherence. -/
theorem Coherent.step {cfg : ι → Config} {s t : System ι} {e : Event ι}
    (C : Coherent s.shared s.pc) (L : Ledger s.shared s.pc)
    (hdiscard : ∀ q, (cfg q).discardUnknownJobs = true) (he : e.Succeeds)
    (h : step cfg s e = some t) : Coherent t.shared t.pc := by
  cases step_cases h with
  | insert id name data hid =>
    refine { C with status := ?_, covered := ?_ }
    · intro i r hr
      rcases get?_insert_cases hid hr with hr | ⟨_, rfl⟩
      · exact C.status i r hr
      · exact locked_iff_running_of_cleared rfl Status.not_running_pending
    · intro i r l hr hne hl
      rcases get?_insert_cases hid hr with hr | ⟨_, rfl⟩
      · exact C.covered i r l hr hne hl
      · exact absurd (Option.some.inj hl).symm hne
  | send _ hsh hpc => rw [hsh, hpc]; exact C
  | thread q a sh wq hstep =>
    rw [System.pc_update]
    exact C.threadStep L rfl (hdiscard q) he hstep

/-- Lock and status agree, and no claim is orphaned, in every state of a run without
failures: a row carries a lock id exactly while it is loading or processing; the one call
that claimed it is still in progress or has its job unfinished; and a queue whose thread
is at the head of its loop or has exited has no row locked. -/
theorem lock_status_coherent {cfg : ι → Config} {s t : System ι} {es : List (Event ι)}
    (hs : Fresh s) (hdiscard : ∀ q, (cfg q).discardUnknownJobs = true)
    (hok : ∀ e ∈ es, e.Succeeds) (hrun : exec (Worker.step cfg) s es = some t) :
    (∀ id r, t.row id = some r →
      ((∃ l, l ≠ [] ∧ r.lockedQueueId = some l) ↔
        (r.status = .loading ∨ r.status = .processing))) ∧
    (∀ id r l, t.row id = some r → l ≠ [] → r.lockedQueueId = some l →
      ∃ c ∈ t.shared.claims, c.lock = l ∧ id ∈ c.marked ∧
        (∀ c' ∈ t.shared.claims, id ∈ c'.marked → c' = c) ∧
        ((∃ call, (t.pc c.queue).call = some call ∧ call.lock = l) ∨
          id ∈ (t.pc c.queue).unfinished)) ∧
    (∀ q, t.pc q = .head ∨ t.pc q = .exited →
      ∀ c ∈ t.shared.claims, c.queue = q →
        ∀ id r, t.row id = some r → r.lockedQueueId ≠ some c.lock) := by
  have hstart : Coherent s.shared s.pc := by
    refine ⟨?_, ?_, ?_, ?_⟩
    · intro id r hr
      obtain ⟨hst, hl⟩ := hs.rows id r hr
      exact locked_iff_running_of_cleared hl (hst ▸ Status.not_running_pending)
    · intro id r l hr hne hl
      exact absurd (Option.some.inj (hl.symm.trans (hs.rows id r hr).2)) hne
    · intro c hc
      rw [hs.claims] at hc
      contradiction
    · intro q
      rcases hs.idle q with hq | ⟨w, hq⟩ <;> rw [hq] <;> trivial
  obtain ⟨L, C⟩ := exec_preserves (C := fun _ e => e.Succeeds)
    (P := fun s => Ledger s.shared s.pc ∧ Coherent s.shared s.pc)
    (fun _ _ _ he h hstep => ⟨h.1.step hstep, h.2.step h.1 hdiscard he hstep⟩)
    (allSteps_of_forall hok s) ⟨hs.boot.ledger, hstart⟩ hrun
  refine ⟨C.status, ?_, ?_⟩
  · intro id r l hr hne hl
    obtain ⟨c, hc, hcl, hm, hcov⟩ := C.covered id r l hr hne hl
    exact ⟨c, hc, hcl, hm, fun c' hc' hm' => L.claim_unique hc' hc hm' hm, hcov.inside⟩
  · intro q hq c hc hcq id r hr hl
    obtain ⟨c', hc', hcl', _, hcov⟩ := C.covered id r c.lock hr (C.issued c hc) hl
    obtain rfl := L.lock_unique hc' hc hcl'
    rw [hcq] at hcov
    rcases hq with hq | hq <;> rw [hq] at hcov <;> exact hcov

/-- In the race the row is processing and locked by the one claim that is responsible. -/
theorem lock_status_coherent_race :
    ∃ t, exec (Worker.step fun _ => Config.runOnly) System.initial (raceEvents ++
        [.thread true (.update .ok)]) = some t ∧
      ∃ r l, t.row 1 = some r ∧ r.status = .processing ∧ l ≠ [] ∧ r.lockedQueueId = some l ∧
        ∃ c ∈ t.shared.claims, c.lock = l ∧ 1 ∈ c.marked := by
  have hrun : (exec (Worker.step fun _ => Config.runOnly) System.initial (raceEvents ++
      [.thread true (.update .ok)])).map (fun t => (t.row 1).map JobRow.status) =
      some (some .processing) := by decide
  obtain ⟨t, ht, hstatus⟩ := Option.map_eq_some_iff.mp hrun
  obtain ⟨r, hr, hp⟩ := Option.map_eq_some_iff.mp hstatus
  have hok : ∀ e ∈ raceEvents ++ [.thread true (.update .ok)], e.Succeeds := by
    simp [raceEvents, Event.Succeeds, Action.Succeeds]
  obtain ⟨hiff, hclaim, _⟩ := lock_status_coherent fresh_initial (fun _ => rfl) hok ht
  obtain ⟨l, hne, hl⟩ := (hiff 1 r hr).mpr (Or.inr hp)
  obtain ⟨c, hc, hcl, hm, _⟩ := hclaim 1 r l hr hne hl
  exact ⟨t, ht, r, l, hr, hp, hne, hl, c, hc, hcl, hm⟩

end Preservation

end Workq.Worker
