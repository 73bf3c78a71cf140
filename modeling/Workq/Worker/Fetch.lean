import Workq.Worker.Ownership

/-!
# From a claim to its fetch

The claiming `UPDATE` and the `SELECT` that reads its rows back are two statements
with anything of the others in between. The ledger makes them agree: the `SELECT`
returns exactly the marked rows, the oldest pending ones, in order. When the `SELECT`
fails or its result is lost the marked rows stay `loading`: the compensating statement
only clears their lock id, and a lost result issues none, so no later claim can see
them.
-/

namespace Workq.Worker

open Workq.Core Workq.Jobs

variable {ι : Type*}

/-- The `SELECT` of an open claim returns exactly the marked rows; its limit cuts none. -/
theorem OpenClaim.fetch_ids {sh : Shared ι} {c : Call} {cl : Claim ι}
    (ho : OpenClaim sh c cl) :
    (fetch sh.table c.lock c.workload).map Fetched.id = cl.marked := by
  have hall : sh.table.keysOf (lockedBy c.lock) none = cl.marked := by
    refine (sh.table.keysOf_sorted _ none).eq_of_mem_iff ho.sorted ?_
    intro id
    rw [Table.mem_keysOf_none]
    constructor
    · rintro ⟨r, hr, hp⟩
      exact (ho.exact id r hr).mp (of_decide_eq_true hp).2
    · intro hid
      obtain ⟨r, hr, hs⟩ := ho.loading id hid
      exact ⟨r, hr, decide_eq_true ⟨hs, (ho.exact id r hr).mpr hid⟩⟩
  rw [Jobs.fetch_ids, Table.keysOf_some, hall, List.take_of_length_le ho.length]

section Steps

variable [DecidableEq ι] {cfg : ι → Config}

/-- A successful claim: its effect on the database and where it leaves the thread. -/
theorem step_claim_ok {s t : System ι} {q : ι} {w : Nat} {stamp : Stamp}
    (hpc : s.pc q = .findJobs w) (h : step cfg s (.thread q (.claim stamp .ok)) = some t) :
    lockid stamp ∉ s.shared.locks ∧ t.shared = s.shared.claim q (lockid stamp) w .ok ∧
      t.pc q = .select ⟨lockid stamp, w⟩ := by
  obtain ⟨sh, wq, hstep, rfl⟩ := step_thread h
  cases hstep with
  | claim w' _ _ hpc' hfresh =>
    obtain rfl : w = w' := Pc.findJobs.inj (hpc.symm.trans hpc')
    exact ⟨hfresh, rfl, by rw [System.pc_update, Function.update_self]; rfl⟩

/-- Claims are never taken back from the trace. -/
theorem claims_subset {s t : System ι} {es : List (Event ι)}
    (h : exec (step cfg) s es = some t) : s.shared.claims ⊆ t.shared.claims := by
  refine exec_invariant (P := fun u => s.shared.claims ⊆ u.shared.claims) ?_
    (List.Subset.refl _) h
  intro u e v hu hstep
  cases step_cases hstep with
  | insert => exact hu
  | send _ hsh _ => rw [hsh]; exact hu
  | thread q a sh wq hth =>
    cases hth with
    | claim => exact fun c hc => List.mem_cons_of_mem _ (hu hc)
    | _ => exact hu

/-- While others act after a successful claim, the claim stays open and its rows are the
ones it marked. -/
theorem claim_stays_open {s s₁ u : System ι} {es : List (Event ι)} {q : ι} {w : Nat}
    {stamp : Stamp} (L : Ledger s.shared s.pc) (hpc : s.pc q = .findJobs w)
    (hclaim : step cfg s (.thread q (.claim stamp .ok)) = some s₁)
    (hothers : ∀ e ∈ es, e.actor ≠ some q) (hrun : exec (step cfg) s₁ es = some u) :
    u.pc q = .select ⟨lockid stamp, w⟩ ∧ ∃ cl ∈ u.shared.claims, cl.queue = q ∧
      cl.marked = claimIds s.shared.table w ∧ OpenClaim u.shared ⟨lockid stamp, w⟩ cl := by
  obtain ⟨_, hshared, hpc₁⟩ := step_claim_ok hpc hclaim
  have L₁ := L.step hclaim
  have Lu := L₁.exec hrun
  have hpcu := (L₁.foreign_exec hrun hothers).1.trans hpc₁
  obtain ⟨cl, hcl, hclq, ho⟩ := (Lu.duty q).opened ⟨lockid stamp, w⟩ (by rw [hpcu]; rfl)
  have hmade : ⟨lockid stamp, q, w, claimIds s.shared.table w⟩ ∈ u.shared.claims := by
    apply claims_subset hrun
    rw [hshared]
    exact List.mem_cons_self ..
  refine ⟨hpcu, cl, hcl, hclq, ?_, ho⟩
  rw [Lu.lock_unique hcl hmade ho.lock]

/-- The rows a successful claim marked, as it left them. -/
theorem claim_marks {s s₁ : System ι} {q : ι} {w : Nat} {stamp : Stamp}
    (hpc : s.pc q = .findJobs w) (hclaim : step cfg s (.thread q (.claim stamp .ok)) = some s₁)
    {id : JobId} (hid : id ∈ claimIds s.shared.table w) :
    s₁.shared.Owns q id ∧ ∃ r, s.row id = some r ∧ s₁.row id = some
      { r with lockedQueueId := some (lockid stamp), status := .loading } := by
  obtain ⟨_, hshared, _⟩ := step_claim_ok hpc hclaim
  obtain ⟨r, hr, _, hr'⟩ := (marks_claim s.shared.table (lockid stamp) w).marked id hid
  refine ⟨?_, r, hr, ?_⟩
  · rw [hshared]
    exact ⟨_, List.mem_cons_self .., rfl, hid⟩
  · rw [System.row, hshared]
    exact hr'

/-- The `SELECT` after a claim returns the ids that the claim marked. -/
theorem claim_fetch_ids {s s₁ u : System ι} {es : List (Event ι)} {q : ι} {w : Nat}
    {stamp : Stamp} (L : Ledger s.shared s.pc) (hpc : s.pc q = .findJobs w)
    (hclaim : step cfg s (.thread q (.claim stamp .ok)) = some s₁)
    (hothers : ∀ e ∈ es, e.actor ≠ some q) (hrun : exec (step cfg) s₁ es = some u) :
    (fetch u.shared.table (lockid stamp) w).map Fetched.id = claimIds s.shared.table w := by
  obtain ⟨_, cl, _, _, hmarked, ho⟩ := claim_stays_open L hpc hclaim hothers hrun
  exact ho.fetch_ids.trans hmarked

/-- The fetched columns are those that the rows had when they were claimed. -/
theorem claim_fetch_rows {s s₁ u : System ι} {es : List (Event ι)} {q : ι} {w : Nat}
    {stamp : Stamp} (L : Ledger s.shared s.pc) (hpc : s.pc q = .findJobs w)
    (hclaim : step cfg s (.thread q (.claim stamp .ok)) = some s₁)
    (hothers : ∀ e ∈ es, e.actor ≠ some q) (hrun : exec (step cfg) s₁ es = some u) :
    fetch u.shared.table (lockid stamp) w =
      (s.shared.table.select claimable (some w)).map toFetched := by
  have hkeys := (fetch_ids u.shared.table (lockid stamp) w).symm.trans
    (claim_fetch_ids L hpc hclaim hothers hrun)
  have hrows : ∀ id ∈ claimIds s.shared.table w, (u.shared.table.get? id).map
      (fun r => toFetched (id, r)) = (s.shared.table.get? id).map fun r => toFetched (id, r) := by
    intro id hid
    obtain ⟨hown, r, hr, hr₁⟩ := claim_marks hpc hclaim hid
    have hu := ((L.step hclaim).foreign_exec hrun hothers).2 id hown
    rw [hr₁] at hu
    rw [show u.shared.table.get? id = _ from hu, show s.shared.table.get? id = _ from hr]
    rfl
  simp only [fetch, Table.select_eq_filterMap, List.map_filterMap, hkeys, Option.map_map,
    Function.comp_def]
  exact List.filterMap_congr hrows

/-- A claim is exact and first-in-first-out. Whatever the others do between the claiming
`UPDATE` and the `SELECT`, the `SELECT` returns exactly the rows that the `UPDATE` marked:
in ascending order the `min w p` smallest of the `p` claimable ones. -/
theorem claim_fetches_marked_rows {s₀ s s₁ u : System ι} {es₀ es : List (Event ι)} {q : ι}
    {w : Nat} {stamp : Stamp} (hboot : Boot s₀) (hreach : exec (step cfg) s₀ es₀ = some s)
    (hpc : s.pc q = .findJobs w)
    (hclaim : step cfg s (.thread q (.claim stamp .ok)) = some s₁)
    (hothers : ∀ e ∈ es, e.actor ≠ some q) (hrun : exec (step cfg) s₁ es = some u) :
    let marked := claimIds s.shared.table w
    let fetched := fetch u.shared.table (lockid stamp) w
    (∀ id r, s₁.row id = some r → (r.lockedQueueId = some (lockid stamp) ↔ id ∈ marked)) ∧
      (∃ v, step cfg u (.thread q (.fetch .ok)) = some v ∧
        v.pc q = .rows ⟨lockid stamp, w⟩ fetched []) ∧
      fetched = (s.shared.table.select claimable (some w)).map toFetched ∧
      fetched.map Fetched.id = marked ∧
      marked.Pairwise (· < ·) ∧
      marked.length = min w (s.shared.table.keysOf claimable none).length ∧
      (∀ id ∈ marked, ∀ other ∈ s.shared.table.keysOf claimable none,
        other ∉ marked → id < other) ∧
      (∀ c ∈ u.shared.claims, c.queue ≠ q → ∀ f ∈ fetched, f.id ∉ c.marked) := by
  dsimp only
  have L := hboot.ledger_exec hreach
  have L₁ := L.step hclaim
  have Lu := L₁.exec hrun
  obtain ⟨hpcu, cl, hcl, hclq, hmarked, ho⟩ := claim_stays_open L hpc hclaim hothers hrun
  obtain ⟨_, cl₁, _, _, hmarked₁, ho₁⟩ :=
    claim_stays_open L hpc hclaim (fun e he => absurd he List.not_mem_nil) (exec_nil _ _)
  have hids := claim_fetch_ids L hpc hclaim hothers hrun
  refine ⟨?_, ?_, claim_fetch_rows L hpc hclaim hothers hrun, hids,
    s.shared.table.keysOf_sorted _ _,
    Table.length_keysOf_some _ _ _, ?_, ?_⟩
  · intro id r hr
    rw [← hmarked₁]
    exact ho₁.exact id r hr
  · refine ⟨⟨u.shared, Function.update u.queues q { u.queues q with
      pc := .rows ⟨lockid stamp, w⟩ (fetch u.shared.table (lockid stamp) w) [] }⟩, ?_, ?_⟩
    · have hpcq : (u.queues q).pc = .select ⟨lockid stamp, w⟩ := hpcu
      simp only [step, threadStep, hpcq, Option.map_some]
    · rw [System.pc_update, Function.update_self]
  · intro id hid other hother hnot
    exact Table.keysOf_some_lt hid hother hnot
  · intro c hc hcq f hf hmem
    have hf' : f.id ∈ cl.marked := by
      rw [hmarked, ← hids]
      exact List.mem_map_of_mem hf
    exact hcq ((Lu.claim_unique hc hcl hmem hf') ▸ hclq)

/-- Three clients' rows, the youngest inserted first. -/
def threeRows : JobsTable :=
  ((Table.empty.insert 3 (newRow "run".toList none)).insert 1 (newRow "run".toList none)).insert 2
    (newRow "mail".toList none)

/-- A claim of two of three rows; before its `SELECT` another queue claims two and a client
inserts a row. -/
theorem claim_fetches_two_of_three :
    ∃ s₁ u, step (fun _ : Bool => Config.runOnly) (System.calling threeRows 2)
        (.thread false (.claim ⟨1, 0, 0, 0⟩ .ok)) = some s₁ ∧
      exec (step fun _ => Config.runOnly) s₁ [.insert 4 "run".toList none,
        .thread true (.claim ⟨2, 0, 0, 0⟩ .ok)] = some u ∧
      (fetch u.shared.table (lockid ⟨1, 0, 0, 0⟩) 2).map Fetched.id = [1, 2] := by
  have hrun : (exec (step fun _ : Bool => Config.runOnly) (System.calling threeRows 2)
      [.thread false (.claim ⟨1, 0, 0, 0⟩ .ok), .insert 4 "run".toList none,
        .thread true (.claim ⟨2, 0, 0, 0⟩ .ok)]).isSome := by decide
  obtain ⟨u, hu⟩ := Option.isSome_iff_exists.mp hrun
  obtain ⟨s₁, hs₁, hu⟩ := exec_cons_eq_some.mp hu
  have hids := (claim_fetches_marked_rows (fresh_calling 2 (by decide)).boot (exec_nil _ _) rfl
    hs₁ (by simp [Event.actor]) hu).2.2.2.1
  exact ⟨s₁, u, hs₁, hu, hids.trans (by decide)⟩

/-- A claim marks nothing exactly when its workload is zero or nothing is claimable. -/
theorem claimIds_eq_nil_iff (T : JobsTable) (w : Nat) :
    claimIds T w = [] ↔ w = 0 ∨ ∀ id r, T.get? id = some r → claimable id r = false := by
  have hnone : T.keysOf claimable none = [] ↔
      ∀ id r, T.get? id = some r → claimable id r = false := by
    rw [List.eq_nil_iff_forall_not_mem]
    constructor
    · intro h id r hr
      by_contra hc
      exact h id (Table.mem_keysOf_none.mpr ⟨r, hr, by simpa using hc⟩)
    · intro h id hid
      obtain ⟨r, hr, hp⟩ := Table.mem_keysOf hid
      rw [h id r hr] at hp
      contradiction
  rw [claimIds, Table.keysOf_some, List.take_eq_nil_iff, hnone]

/-- What is left to do after a lost fetch: the compensating statement if the `SELECT`
failed, nothing if only its result was lost. -/
def AfterLostFetch (c : Call) (b : Action) (p : Pc) : Prop :=
  (b = .update .ok ∧ p = .release c) ∨ (b = .done ∧ p = .rows c [] [])

/-- A lost fetch changes only the program point. -/
theorem step_lost_fetch {s t : System ι} {q : ι} {c : Call} {a b : Action}
    (hpc : s.pc q = .select c)
    (hfail : (a = .fetch .failed ∧ b = .update .ok) ∨ (a = .fetch .noResult ∧ b = .done))
    (h : step cfg s (.thread q a) = some t) :
    t.shared = s.shared ∧ AfterLostFetch c b (t.pc q) := by
  obtain ⟨sh, wq, hstep, rfl⟩ := step_thread h
  rw [System.pc_update, Function.update_self]
  rcases hfail with ⟨rfl, rfl⟩ | ⟨rfl, rfl⟩
  · cases hstep with
    | fetchFailed c' hc =>
      obtain rfl : c = c' := Pc.select.inj (hpc.symm.trans hc)
      exact ⟨rfl, Or.inl ⟨rfl, rfl⟩⟩
  · cases hstep with
    | fetchNoResult c' hc =>
      obtain rfl : c = c' := Pc.select.inj (hpc.symm.trans hc)
      exact ⟨rfl, Or.inr ⟨rfl, rfl⟩⟩

/-- What `find_jobs` does after a lost fetch keeps every status, and then it returns. -/
theorem step_after_lost_fetch {s t : System ι} {q : ι} {c : Call} {b : Action}
    (hpc : AfterLostFetch c b (s.pc q)) (h : step cfg s (.thread q b) = some t) :
    (t.pc q = .head ∨ t.pc q = .batch c.workload []) ∧
      ∀ id r, s.row id = some r → ∃ r', t.row id = some r' ∧ r'.status = r.status := by
  obtain ⟨sh, wq, hstep, rfl⟩ := step_thread h
  rw [System.pc_update, Function.update_self]
  rcases hpc with ⟨rfl, hpc⟩ | ⟨rfl, hpc⟩
  · cases hstep with
    | release c' reply hc =>
      refine ⟨Or.inl rfl, ?_⟩
      intro id r hr
      refine ⟨_, (get?_release s.shared.table c'.lock id).trans (congrArg (Option.map _) hr), ?_⟩
      dsimp only
      split <;> rfl
    | discard _ _ _ _ _ _ hc | mark _ _ _ _ _ hc | finish _ _ _ _ _ hc =>
      exact Pc.noConfusion (hpc.symm.trans hc)
  · cases hstep with
    | returnJobs c' jobs hc =>
      obtain ⟨rfl, _, rfl⟩ := Pc.rows.inj (hpc.symm.trans hc)
      exact ⟨Or.inr rfl, fun id r hr => ⟨r, hr, rfl⟩⟩
    | batchEnd _ hc => exact Pc.noConfusion (hpc.symm.trans hc)

/-- After a lost fetch the marked rows are still `loading` when `find_jobs` returns. -/
theorem failed_fetch_loading {s u : System ι} {es₁ es₂ : List (Event ι)} {q : ι} {w : Nat}
    {stamp : Stamp} {a b : Action} (L : Ledger s.shared s.pc) (hpc : s.pc q = .findJobs w)
    (hfail : (a = .fetch .failed ∧ b = .update .ok) ∨ (a = .fetch .noResult ∧ b = .done))
    (h₁ : ∀ e ∈ es₁, e.actor ≠ some q) (h₂ : ∀ e ∈ es₂, e.actor ≠ some q)
    (hrun : exec (step cfg) s (.thread q (.claim stamp .ok) ::
      (es₁ ++ .thread q a :: (es₂ ++ [.thread q b]))) = some u) :
    (u.pc q = .head ∨ u.pc q = .batch w []) ∧
      ∀ id ∈ claimIds s.shared.table w, ∃ r, u.row id = some r ∧ r.status = .loading := by
  obtain ⟨s₁, hclaim, hrun⟩ := exec_cons_eq_some.mp hrun
  obtain ⟨v₁, hv₁, hrun⟩ := exec_append.mp hrun
  obtain ⟨v₂, ha, hrun⟩ := exec_cons_eq_some.mp hrun
  obtain ⟨v₃, hv₃, hrun⟩ := exec_append.mp hrun
  obtain ⟨u', hb, hu⟩ := exec_cons_eq_some.mp hrun
  obtain rfl : u' = u := Option.some.inj hu
  have L₁ := L.step hclaim
  have Lv₂ := (L₁.exec hv₁).step ha
  obtain ⟨hpc₁, hrows₁⟩ := L₁.foreign_exec hv₁ h₁
  obtain ⟨hpc₂, hrows₂⟩ := Lv₂.foreign_exec hv₃ h₂
  obtain ⟨hshared, hafter⟩ := step_lost_fetch
    (hpc₁.trans (step_claim_ok hpc hclaim).2.2) hfail ha
  obtain ⟨hreturn, hstatus⟩ := step_after_lost_fetch (hpc₂.symm ▸ hafter) hb
  refine ⟨hreturn, ?_⟩
  intro id hid
  obtain ⟨hown, r, _, hr₁⟩ := claim_marks hpc hclaim hid
  have hown₂ : v₂.shared.Owns q id := by
    obtain ⟨c, hc, h⟩ := hown
    rw [hshared]
    exact ⟨c, claims_subset hv₁ hc, h⟩
  have hsame : v₂.row id = v₁.row id := by rw [System.row, hshared]; rfl
  obtain ⟨r', hr', hs⟩ := hstatus id _
    ((hrows₂ id hown₂).trans (hsame.trans ((hrows₁ id hown).trans hr₁)))
  exact ⟨r', hr', hs⟩

/-- When the `SELECT` fails, or its result cannot be retrieved, the marked rows are
claimable again on return exactly if the claim had marked no row. -/
theorem failed_fetch_claimable_iff {s₀ s u : System ι} {es₀ es₁ es₂ : List (Event ι)} {q : ι}
    {w : Nat} {stamp : Stamp} {a b : Action} (hboot : Boot s₀)
    (hreach : exec (step cfg) s₀ es₀ = some s) (hpc : s.pc q = .findJobs w)
    (hfail : (a = .fetch .failed ∧ b = .update .ok) ∨ (a = .fetch .noResult ∧ b = .done))
    (h₁ : ∀ e ∈ es₁, e.actor ≠ some q) (h₂ : ∀ e ∈ es₂, e.actor ≠ some q)
    (hrun : exec (step cfg) s (.thread q (.claim stamp .ok) ::
      (es₁ ++ .thread q a :: (es₂ ++ [.thread q b]))) = some u) :
    (u.pc q = .head ∨ u.pc q = .batch w []) ∧
      ((∀ id ∈ claimIds s.shared.table w, ∃ r, u.row id = some r ∧ claimable id r = true) ↔
        (w = 0 ∨ ∀ id r, s.row id = some r → claimable id r = false)) := by
  have L := hboot.ledger_exec hreach
  obtain ⟨hret, hload⟩ := failed_fetch_loading L hpc hfail h₁ h₂ hrun
  refine ⟨hret, Iff.trans ?_ (claimIds_eq_nil_iff s.shared.table w)⟩
  constructor
  · intro h
    rw [List.eq_nil_iff_forall_not_mem]
    intro id hid
    obtain ⟨r, hr, hs⟩ := hload id hid
    obtain ⟨r', hr', hc⟩ := h id hid
    rw [Option.some.inj (hr'.symm.trans hr)] at hc
    rw [claimable, decide_eq_true_eq, hs] at hc
    exact Status.noConfusion hc.1
  · intro h id hid
    rw [h] at hid
    contradiction

/-- One client's row. -/
def oneRow : JobsTable := Table.empty.insert 1 (newRow "run".toList none)

/-- With a row to claim, a lost result leaves it out of reach. -/
theorem failed_fetch_not_claimable :
    ∃ u, exec (step fun _ : Unit => Config.runOnly) (System.calling oneRow 1)
        [.thread () (.claim ⟨1, 0, 0, 0⟩ .ok), .thread () (.fetch .noResult),
          .thread () .done] = some u ∧
      ¬ ∀ id ∈ claimIds oneRow 1, ∃ r, u.row id = some r ∧ claimable id r = true := by
  have hrun : (exec (step fun _ : Unit => Config.runOnly) (System.calling oneRow 1)
      [.thread () (.claim ⟨1, 0, 0, 0⟩ .ok), .thread () (.fetch .noResult),
        .thread () .done]).isSome := by decide
  obtain ⟨u, hu⟩ := Option.isSome_iff_exists.mp hrun
  have hcall : exec (step fun _ : Unit => Config.runOnly) (System.calling oneRow 1)
      (.thread () (.claim ⟨1, 0, 0, 0⟩ .ok) :: ([] ++ .thread () (.fetch .noResult) ::
        ([] ++ [.thread () .done]))) = some u := hu
  have hiff := (failed_fetch_claimable_iff (fresh_calling 1 (by decide)).boot (exec_nil _ _) rfl
    (Or.inr ⟨rfl, rfl⟩) (by simp) (by simp) hcall).2
  refine ⟨u, hu, ?_⟩
  rw [show claimIds oneRow 1 = claimIds (System.calling (ι := Unit) oneRow 1).shared.table 1
    from rfl, hiff]
  rintro (h | h)
  · contradiction
  · exact absurd (h 1 (newRow "run".toList none) (by decide)) (by decide)

/-- The compensating statement clears the lock id of the claimed row and leaves it
`loading`; after a lost result the lock id stays too. -/
theorem failed_fetch_loses_job :
    1 ∈ claimIds oneRow 1 ∧
      (exec (step fun _ : Unit => Config.runOnly) (System.calling oneRow 1)
        [.thread () (.claim ⟨1, 0, 0, 0⟩ .ok), .thread () (.fetch .failed),
          .thread () (.update .ok)]).map (fun u => (u.pc (), u.row 1)) =
        some (.head, some ⟨"run".toList, none, .loading, some []⟩) ∧
      (exec (step fun _ : Unit => Config.runOnly) (System.calling oneRow 1)
        [.thread () (.claim ⟨1, 0, 0, 0⟩ .ok), .thread () (.fetch .noResult),
          .thread () .done]).map (fun u => (u.pc (), u.row 1)) =
        some (.batch 1 [], some ⟨"run".toList, none, .loading, some (lockid ⟨1, 0, 0, 0⟩)⟩) ∧
      ∀ lock, claimable 1 ⟨"run".toList, none, .loading, lock⟩ = false := by
  refine ⟨by decide, by decide, by decide, ?_⟩
  intro lock
  exact decide_eq_false (fun h => Status.noConfusion h.1)

end Steps

end Workq.Worker
