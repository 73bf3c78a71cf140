import Workq.Worker.Fetch

/-!
# One undisturbed `find_jobs` call

`findJobs` is the call as one function of the table, every statement successful: claim,
fetch and the loop over the fetched rows. The thread's steps compute exactly it. What the
loop leaves of each claimed row is its outcome, and only two of the branches are right:
a row whose creator fails is set to `error` and then to `processing`, and a row of unknown
type that is not discarded stays `loading` under the call's lock id.
-/

namespace Workq.Worker

open Workq.Core Workq.Jobs

variable {ι : Type*}

/-- The loop body for one fetched row, on the table and the array of jobs. -/
def dispose (cfg : Config) (made : JobId → Bool) (st : JobsTable × List JobId)
    (row : Fetched) : JobsTable × List JobId :=
  if cfg.registered row.name then
    if made row.id then (setProcessing st.1 row.id, st.2 ++ [row.id])
    else if cfg.discardUnknownJobs then (setProcessing (setError st.1 row.id) row.id, st.2)
    else (setProcessing st.1 row.id, st.2)
  else if cfg.discardUnknownJobs then (setError st.1 row.id, st.2)
  else st

/-- The table and the array of jobs when `find_jobs(workload)` returns. -/
def findJobs (cfg : Config) (made : JobId → Bool) (lock : List Char) (workload : Nat)
    (T : JobsTable) : JobsTable × List JobId :=
  (fetch (claim T lock workload) lock workload).foldl (dispose cfg made)
    (claim T lock workload, [])

/-- What the loop body makes of a row of the given name. -/
def outcome (cfg : Config) (name : List Char) (made : Bool) (r : JobRow) : JobRow :=
  if cfg.registered name then
    if made = false ∧ cfg.discardUnknownJobs then
      { r with status := .processing, lockedQueueId := some [] }
    else { r with status := .processing }
  else if cfg.discardUnknownJobs then { r with status := .error, lockedQueueId := some [] }
  else r

section Loop

variable (cfg : Config) (made : JobId → Bool)

/-- The loop body changes its own row to its outcome and no other. -/
theorem get?_dispose (st : JobsTable × List JobId) (row : Fetched) (id : JobId) :
    (dispose cfg made st row).1.get? id =
      if id = row.id then (st.1.get? id).map (outcome cfg row.name (made row.id))
      else st.1.get? id := by
  unfold dispose outcome
  by_cases hid : id = row.id
  · cases hreg : cfg.registered row.name <;> cases hmade : made row.id <;>
      cases hdis : cfg.discardUnknownJobs <;>
      simp [hid, get?_setProcessing, get?_setError, Function.comp_def]
  · split
    · split
      · simp only [get?_setProcessing, if_neg hid]
      · split <;> simp only [get?_setProcessing, get?_setError, if_neg hid]
    · split <;> simp only [get?_setError, if_neg hid]

/-- The loop leaves rows that it does not visit as they are. -/
theorem get?_disposeAll_of_not_mem {rows : List Fetched} {id : JobId}
    (st : JobsTable × List JobId) (h : id ∉ rows.map Fetched.id) :
    (rows.foldl (dispose cfg made) st).1.get? id = st.1.get? id := by
  induction rows generalizing st with
  | nil => rfl
  | cons row rows ih =>
    rw [List.map_cons, List.mem_cons, not_or] at h
    rw [List.foldl_cons, ih _ h.2, get?_dispose, if_neg h.1]

/-- The loop leaves each visited row at its outcome. -/
theorem get?_disposeAll {rows : List Fetched} {row : Fetched} (st : JobsTable × List JobId)
    (hnodup : (rows.map Fetched.id).Nodup) (h : row ∈ rows) :
    (rows.foldl (dispose cfg made) st).1.get? row.id =
      (st.1.get? row.id).map (outcome cfg row.name (made row.id)) := by
  induction rows generalizing st with
  | nil => contradiction
  | cons first rows ih =>
    rw [List.map_cons, List.nodup_cons] at hnodup
    rw [List.foldl_cons]
    rcases List.mem_cons.mp h with rfl | hm
    · rw [get?_disposeAll_of_not_mem cfg made _ hnodup.1, get?_dispose, if_pos rfl]
    · have hne : row.id ≠ first.id := by
        intro he
        exact hnodup.1 (he ▸ List.mem_map_of_mem hm)
      rw [ih _ hnodup.2 hm, get?_dispose, if_neg hne]

/-- The array holds exactly the rows with a registered type whose creator made a job. -/
theorem disposeAll_jobs (rows : List Fetched) (st : JobsTable × List JobId) :
    (rows.foldl (dispose cfg made) st).2 = st.2 ++
      (rows.filter fun row => cfg.registered row.name && made row.id).map Fetched.id := by
  induction rows generalizing st with
  | nil => simp only [List.foldl_nil, List.filter_nil, List.map_nil, List.append_nil]
  | cons row rows ih =>
    rw [List.foldl_cons, ih]
    unfold dispose
    cases hreg : cfg.registered row.name <;> cases hmade : made row.id <;>
      cases hdis : cfg.discardUnknownJobs <;> simp [hreg, hmade]

end Loop

/-- A claimed row is disposed of: it is in the array, processing and locked; or no job
could be made and it is an unlocked error or, without discarding, pending again. -/
def RowDisposed (cfg : Config) (lock : List Char) (jobs : List JobId) (id : JobId)
    (name : List Char) (made : Bool) (r : JobRow) : Prop :=
  ((cfg.registered name ∧ made) ∧
    id ∈ jobs ∧ r.status = .processing ∧ r.lockedQueueId = some lock) ∨
  (¬ (cfg.registered name ∧ made) ∧ cfg.discardUnknownJobs = true ∧
    id ∉ jobs ∧ r.status = .error ∧ r.lockedQueueId = some []) ∨
  (¬ (cfg.registered name ∧ made) ∧ cfg.discardUnknownJobs = false ∧
    id ∉ jobs ∧ r.status = .pending ∧ r.lockedQueueId = some [])

/-- Every claimed row is disposed of and no other row is changed. -/
def Disposes (cfg : Config) (made : JobId → Bool) (lock : List Char) (w : Nat)
    (T T' : JobsTable) (jobs : List JobId) : Prop :=
  (∀ id ∈ claimIds T w, ∃ r r', T.get? id = some r ∧ T'.get? id = some r' ∧
    RowDisposed cfg lock jobs id r.name (made id) r') ∧
  ∀ id, id ∉ claimIds T w → T'.get? id = T.get? id

section Call

variable {lock : List Char} {w : Nat} {T : JobsTable}

/-- The fetched row of a claimed id. -/
theorem exists_fetched (hids : (fetch (claim T lock w) lock w).map Fetched.id = claimIds T w)
    {id : JobId} (hid : id ∈ claimIds T w) {r : JobRow} (hr : T.get? id = some r) :
    ∃ row ∈ fetch (claim T lock w) lock w, row.id = id ∧ row.name = r.name := by
  obtain ⟨row, hrow, hrid⟩ := List.mem_map.mp (hids.symm ▸ hid)
  obtain ⟨r', hr', hname, _⟩ := mem_fetch hrow
  rw [hrid, get?_claim, if_pos hid, hr] at hr'
  refine ⟨row, hrow, hrid, ?_⟩
  rw [← hname, ← Option.some.inj hr']

variable (cfg : Config) (made : JobId → Bool)

/-- The call leaves each claimed row at the outcome of its claimed state. -/
theorem get?_findJobs (hids : (fetch (claim T lock w) lock w).map Fetched.id = claimIds T w)
    {id : JobId} (hid : id ∈ claimIds T w) {r : JobRow} (hr : T.get? id = some r) :
    (findJobs cfg made lock w T).1.get? id = some (outcome cfg r.name (made id)
      { r with lockedQueueId := some lock, status := .loading }) := by
  obtain ⟨row, hrow, rfl, hname⟩ := exists_fetched hids hid hr
  have hnodup : ((fetch (claim T lock w) lock w).map Fetched.id).Nodup := by
    rw [hids]
    exact T.keysOf_nodup claimable (some w)
  rw [findJobs, get?_disposeAll cfg made _ hnodup hrow, get?_claim, if_pos hid, hr, hname]
  rfl

/-- The call changes no row that it did not claim. -/
theorem get?_findJobs_of_not_mem
    (hids : (fetch (claim T lock w) lock w).map Fetched.id = claimIds T w) {id : JobId}
    (hid : id ∉ claimIds T w) : (findJobs cfg made lock w T).1.get? id = T.get? id := by
  rw [findJobs, get?_disposeAll_of_not_mem cfg made _ (hids.symm ▸ hid), get?_claim,
    if_neg hid]

/-- Which claimed rows the returned array holds. -/
theorem mem_findJobs_jobs (hids : (fetch (claim T lock w) lock w).map Fetched.id = claimIds T w)
    {id : JobId} (hid : id ∈ claimIds T w) {r : JobRow} (hr : T.get? id = some r) :
    id ∈ (findJobs cfg made lock w T).2 ↔ cfg.registered r.name = true ∧ made id = true := by
  obtain ⟨row, hrow, rfl, hname⟩ := exists_fetched hids hid hr
  rw [findJobs, disposeAll_jobs, List.nil_append, ← hname]
  constructor
  · intro h
    obtain ⟨row', hmem, heq⟩ := List.mem_map.mp h
    obtain ⟨hrow', hp⟩ := List.mem_filter.mp hmem
    have hsame : row' = row := by
      refine List.inj_on_of_nodup_map ?_ hrow' hrow heq
      rw [hids]
      exact T.keysOf_nodup claimable (some w)
    rw [hsame, Bool.and_eq_true] at hp
    exact hp
  · intro h
    exact List.mem_map_of_mem (List.mem_filter.mpr ⟨hrow, by rw [h.1, h.2]; rfl⟩)

/-- A claimed row is disposed of exactly if its creator made a job, or its type is unknown
and unknown jobs are discarded. -/
theorem rowDisposed_iff (hids : (fetch (claim T lock w) lock w).map Fetched.id = claimIds T w)
    {id : JobId} (hid : id ∈ claimIds T w) {r : JobRow} (hr : T.get? id = some r) :
    RowDisposed cfg lock (findJobs cfg made lock w T).2 id r.name (made id)
        (outcome cfg r.name (made id) { r with lockedQueueId := some lock, status := .loading }) ↔
      (cfg.registered r.name = true ∧ made id = true) ∨
        (cfg.registered r.name = false ∧ cfg.discardUnknownJobs = true) := by
  have hjobs := mem_findJobs_jobs cfg made hids hid hr
  unfold RowDisposed outcome
  rw [hjobs]
  cases hreg : cfg.registered r.name <;> cases hmade : made id <;>
    cases hdis : cfg.discardUnknownJobs <;> simp

/-- The call disposes of its rows exactly if it does so with each of them. -/
theorem disposes_iff (hids : (fetch (claim T lock w) lock w).map Fetched.id = claimIds T w) :
    Disposes cfg made lock w T (findJobs cfg made lock w T).1 (findJobs cfg made lock w T).2 ↔
      ∀ id ∈ claimIds T w, ∀ r, T.get? id = some r →
        (cfg.registered r.name = true ∧ made id = true) ∨
          (cfg.registered r.name = false ∧ cfg.discardUnknownJobs = true) := by
  constructor
  · rintro ⟨hrows, _⟩ id hid r hr
    obtain ⟨r₀, r', hr₀, hr', hdis⟩ := hrows id hid
    obtain rfl := Option.some.inj (hr₀.symm.trans hr)
    rw [get?_findJobs cfg made hids hid hr, Option.some.injEq] at hr'
    exact (rowDisposed_iff cfg made hids hid hr).mp (hr' ▸ hdis)
  · intro h
    refine ⟨?_, fun id hid => get?_findJobs_of_not_mem cfg made hids hid⟩
    intro id hid
    obtain ⟨r, hr, _⟩ := mem_claimIds hid
    exact ⟨r, _, hr, get?_findJobs cfg made hids hid hr,
      (rowDisposed_iff cfg made hids hid hr).mpr (h id hid r hr)⟩

end Call

section Steps

/-- The thread's events for one fetched row, every statement successful. -/
def rowEvents (cfg : Config) (q : ι) (made : JobId → Bool) (row : Fetched) : List (Event ι) :=
  .thread q (.create (made row.id)) ::
    if cfg.registered row.name then
      if made row.id = false ∧ cfg.discardUnknownJobs then
        [.thread q (.update .ok), .thread q (.update .ok)]
      else [.thread q (.update .ok)]
    else if cfg.discardUnknownJobs then [.thread q (.update .ok)]
    else []

/-- The thread's events from the claim to the return of `find_jobs`. -/
def callEvents (cfg : Config) (q : ι) (made : JobId → Bool) (stamp : Stamp) (T : JobsTable)
    (w : Nat) : List (Event ι) :=
  .thread q (.claim stamp .ok) :: .thread q (.fetch .ok) ::
    ((fetch (claim T (lockid stamp) w) (lockid stamp) w).flatMap (rowEvents cfg q made) ++
      [.thread q .done])

variable [DecidableEq ι]

/-- The system with a new table and one thread moved. -/
def System.act (s : System ι) (q : ι) (T : JobsTable) (p : Pc) : System ι :=
  ⟨{ s.shared with table := T }, Function.update s.queues q { s.queues q with pc := p }⟩

theorem System.pc_act (s : System ι) (q : ι) (T : JobsTable) (p : Pc) : (s.act q T p).pc q = p := by
  simp only [System.pc, System.act, Function.update_self]

variable {cfg : ι → Config} {made : JobId → Bool} {s : System ι} {q : ι}

/-- The step of a thread that only writes the table and moves on. -/
theorem step_act {T T' : JobsTable} {p p' : Pc} {a : Action}
    (h : threadStep (cfg q) q { s.shared with table := T } { s.queues q with pc := p } a =
      some ({ s.shared with table := T' }, { s.queues q with pc := p' })) :
    step cfg (s.act q T p) (.thread q a) = some (s.act q T' p') := by
  simp only [step, System.act, Function.update_self, h, Option.map_some, Function.update_idem]

/-- The thread's steps for one row compute the loop body. -/
theorem exec_rowEvents {T : JobsTable} {c : Call} {row : Fetched} {rest : List Fetched}
    {jobs : List JobId} :
    exec (step cfg) (s.act q T (.rows c (row :: rest) jobs)) (rowEvents (cfg q) q made row) =
      some (s.act q (dispose (cfg q) made (T, jobs) row).1
        (.rows c rest (dispose (cfg q) made (T, jobs) row).2)) := by
  have hcreate : step cfg (s.act q T (.rows c (row :: rest) jobs))
      (.thread q (.create (made row.id))) =
        some (s.act q T (rowPc (cfg q) c row rest jobs (made row.id))) := step_act rfl
  have hmark : ∀ (T : JobsTable) jobs, step cfg (s.act q T (.mark c row.id rest jobs))
      (.thread q (.update .ok)) = some (s.act q (setProcessing T row.id) (.rows c rest jobs)) :=
    fun T jobs => step_act rfl
  have hdiscard : ∀ known, step cfg (s.act q T (.discard c row.id known rest jobs))
      (.thread q (.update .ok)) = some (s.act q (setError T row.id)
        (if known then .mark c row.id rest jobs else .rows c rest jobs)) :=
    fun known => step_act rfl
  rw [rowEvents, exec_cons, hcreate, Option.bind_some]
  unfold rowPc dispose
  cases hreg : (cfg q).registered row.name <;> cases hmade : made row.id <;>
    cases hdis : (cfg q).discardUnknownJobs <;>
    simp [exec_cons, hmark, hdiscard]

/-- The thread's steps for all rows compute the loop. -/
theorem exec_rows {T : JobsTable} {c : Call} {rest : List Fetched} {jobs : List JobId} :
    exec (step cfg) (s.act q T (.rows c rest jobs))
        (rest.flatMap (rowEvents (cfg q) q made)) =
      some (s.act q (rest.foldl (dispose (cfg q) made) (T, jobs)).1
        (.rows c [] (rest.foldl (dispose (cfg q) made) (T, jobs)).2)) := by
  induction rest generalizing T jobs with
  | nil => rfl
  | cons row rest ih =>
    rw [List.flatMap_cons, List.foldl_cons]
    exact exec_append.mpr ⟨_, exec_rowEvents, ih⟩

/-- An undisturbed `find_jobs` call returns, and computes `findJobs`. -/
theorem exec_callEvents (cfg : ι → Config) (made : JobId → Bool) {w : Nat} {stamp : Stamp}
    (hpc : s.pc q = .findJobs w) (hstamp : lockid stamp ∉ s.shared.locks) :
    ∃ u, exec (step cfg) s (callEvents (cfg q) q made stamp s.shared.table w) = some u ∧
      u.shared.table = (findJobs (cfg q) made (lockid stamp) w s.shared.table).1 ∧
      u.pc q = .batch w (findJobs (cfg q) made (lockid stamp) w s.shared.table).2 := by
  have hpc' : (s.queues q).pc = .findJobs w := hpc
  obtain ⟨s₁, hclaim⟩ : ∃ s₁ : System ι, step cfg s (.thread q (.claim stamp .ok)) =
      some (s₁.act q (claim s.shared.table (lockid stamp) w) (.select ⟨lockid stamp, w⟩)) := by
    refine ⟨⟨s.shared.claim q (lockid stamp) w .ok, s.queues⟩, ?_⟩
    simp only [step, threadStep, hpc', if_neg hstamp, Option.map_some, if_true, System.act,
      Shared.claim, Reply.apply]
  refine ⟨s₁.act q (findJobs (cfg q) made (lockid stamp) w s.shared.table).1
    (.batch w (findJobs (cfg q) made (lockid stamp) w s.shared.table).2), ?_, rfl,
    s₁.pc_act q _ _⟩
  refine exec_cons_eq_some.mpr ⟨_, hclaim, exec_cons_eq_some.mpr ⟨_, step_act rfl, ?_⟩⟩
  exact exec_append.mpr ⟨_, exec_rows, exec_cons_eq_some.mpr ⟨_, step_act rfl, rfl⟩⟩

/-- A `find_jobs` call with every statement successful disposes of the rows it claimed
exactly if each of them has a registered type whose creator makes a job, or an unknown
type with `discard_unknown_jobs` set. -/
theorem findJobs_disposes_iff {s₀ : System ι} {es₀ : List (Event ι)} {w : Nat}
    (made : JobId → Bool) (stamp : Stamp)
    (hboot : Boot s₀) (hreach : exec (step cfg) s₀ es₀ = some s) (hpc : s.pc q = .findJobs w)
    (hstamp : lockid stamp ∉ s.shared.locks) :
    ∃ u jobs, exec (step cfg) s (callEvents (cfg q) q made stamp s.shared.table w) = some u ∧
      u.pc q = .batch w jobs ∧
      (Disposes (cfg q) made (lockid stamp) w s.shared.table u.shared.table jobs ↔
        ∀ id ∈ claimIds s.shared.table w, ∀ r, s.row id = some r →
          ((cfg q).registered r.name = true ∧ made id = true) ∨
            ((cfg q).registered r.name = false ∧ (cfg q).discardUnknownJobs = true)) := by
  obtain ⟨u, hu, htable, hpcu⟩ := exec_callEvents cfg made hpc hstamp
  refine ⟨u, _, hu, hpcu, ?_⟩
  obtain ⟨s₁, hclaim, _⟩ := exec_cons_eq_some.mp hu
  have hids := claim_fetch_ids (hboot.ledger_exec hreach) hpc hclaim
    (fun e he => absurd he List.not_mem_nil) (exec_nil _ _)
  rw [(step_claim_ok hpc hclaim).2.1] at hids
  rw [htable]
  exact disposes_iff (cfg q) made hids

end Steps

/-- With the type of its only row registered and a job made for it, the call disposes of it. -/
theorem findJobs_disposes_one_row :
    ∃ u jobs, exec (step fun _ : Unit => Config.runOnly) (System.calling oneRow 1)
        (callEvents Config.runOnly () (fun _ => true) ⟨1, 0, 0, 0⟩ oneRow 1) = some u ∧
      u.pc () = .batch 1 jobs ∧
      Disposes Config.runOnly (fun _ => true) (lockid ⟨1, 0, 0, 0⟩) 1 oneRow u.shared.table
        jobs := by
  obtain ⟨u, jobs, hu, hpc, hiff⟩ := findJobs_disposes_iff (fun _ => true) ⟨1, 0, 0, 0⟩
    (fresh_calling 1 (by decide)).boot
    (exec_nil (step fun _ : Unit => Config.runOnly) (System.calling oneRow 1)) rfl
    List.not_mem_nil
  refine ⟨u, jobs, hu, hpc, hiff.mpr ?_⟩
  have hall : ∀ x ∈ oneRow.rows, Config.runOnly.registered x.2.name = true := by decide
  intro id _ r hr
  exact Or.inl ⟨hall (id, r) (Table.get?_eq_some.mp hr), rfl⟩

/-- A row whose creator fails ends `processing` although it was discarded, and a row of
unknown type that is not discarded stays `loading` under the call's lock id. -/
theorem findJobs_misplaces_rows :
    (∃ T jobs, findJobs Config.runOnly (fun _ => false) (lockid ⟨1, 0, 0, 0⟩) 1 oneRow = (T, jobs) ∧
      T.get? 1 = some ⟨"run".toList, none, .processing, some []⟩ ∧
      ¬ Disposes Config.runOnly (fun _ => false) (lockid ⟨1, 0, 0, 0⟩) 1 oneRow T jobs) ∧
    (∃ T jobs, findJobs ⟨fun _ => false, false⟩ (fun _ => true) (lockid ⟨1, 0, 0, 0⟩) 1 oneRow =
        (T, jobs) ∧
      T.get? 1 = some ⟨"run".toList, none, .loading, some (lockid ⟨1, 0, 0, 0⟩)⟩ ∧
      ¬ Disposes ⟨fun _ => false, false⟩ (fun _ => true) (lockid ⟨1, 0, 0, 0⟩) 1 oneRow T
        jobs) := by
  have hids : (fetch (claim oneRow (lockid ⟨1, 0, 0, 0⟩) 1) (lockid ⟨1, 0, 0, 0⟩) 1).map
      Fetched.id = claimIds oneRow 1 := by decide
  have hrow : oneRow.get? 1 = some (newRow "run".toList none) := by decide
  have hmem : (1 : JobId) ∈ claimIds oneRow 1 := by decide
  refine ⟨⟨_, _, rfl, by decide, ?_⟩, ⟨_, _, rfl, by decide, ?_⟩⟩
  all_goals
    intro h
    exact absurd ((disposes_iff _ _ hids).mp h 1 hmem _ hrow) (by decide)

end Workq.Worker
