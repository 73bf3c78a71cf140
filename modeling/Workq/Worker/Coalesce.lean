import Workq.Worker.FindJobs

/-!
# Coalescing changes nothing but the number of calls

`run` pops every token that is there and makes one `find_jobs` call for all of them. When
nothing fails and unknown jobs are discarded, the calls for the tokens one by one, or in
groups of any sizes, leave the same table behind and execute the same jobs in the same
order: the optimised loop agrees with the plain one.
-/

namespace Workq.Worker

open Workq.Core Workq.Jobs

variable {ι : Type*}

/-- The statement after a job's execution. -/
def storeResult (ret : JobId → Int) (T : JobsTable) (id : JobId) : JobsTable :=
  if ret id ≠ 0 then setComplete T id else setError T id

/-- The table and the executed jobs after one iteration of `run` with a workload, every
statement successful: the `find_jobs` call and the loop over its jobs. -/
def iteration (cfg : Config) (made : JobId → Bool) (ret : JobId → Int) (lock : List Char)
    (w : Nat) (T : JobsTable) : JobsTable × List JobId :=
  ((findJobs cfg made lock w T).2.foldl (storeResult ret) (findJobs cfg made lock w T).1,
    (findJobs cfg made lock w T).2)

/-- What an iteration leaves of a row that it claimed. -/
def finalRow (cfg : Config) (made : Bool) (ret : Int) (r : JobRow) : JobRow :=
  { r with
    lockedQueueId := some []
    status :=
      if cfg.registered r.name then
        if made then if ret ≠ 0 then .complete else .error
        else .processing
      else .error }

section Tables

variable {cfg : Config} {made : JobId → Bool} {ret : JobId → Int} {lock : List Char} {w : Nat}
  {T : JobsTable}

theorem get?_storeResult (ret : JobId → Int) (T : JobsTable) (id i : JobId) :
    (storeResult ret T id).get? i =
      if i = id then (T.get? i).map fun r => { r with
        status := if ret id ≠ 0 then .complete else .error, lockedQueueId := some [] }
      else T.get? i := by
  unfold storeResult
  split
  · exact get?_setComplete T id i
  · exact get?_setError T id i

/-- The loop over the jobs stores each result and touches no other row. -/
theorem get?_storeResults {jobs : List JobId} (hnodup : jobs.Nodup) (T : JobsTable) (i : JobId) :
    (jobs.foldl (storeResult ret) T).get? i =
      if i ∈ jobs then (T.get? i).map fun r => { r with
        status := if ret i ≠ 0 then .complete else .error, lockedQueueId := some [] }
      else T.get? i := by
  induction jobs generalizing T with
  | nil => rfl
  | cons id jobs ih =>
    rw [List.nodup_cons] at hnodup
    rw [List.foldl_cons, ih hnodup.2, get?_storeResult]
    by_cases hi : i = id
    · subst hi
      rw [if_neg hnodup.1, if_pos rfl, if_pos (List.mem_cons_self ..)]
    · simp only [if_neg hi, List.mem_cons, or_iff_right hi]

/-- The array of jobs is the claimed rows with a registered type and a creator's job. -/
theorem findJobs_jobs (cfg : Config) (made : JobId → Bool)
    (hids : (fetch (claim T lock w) lock w).map Fetched.id = claimIds T w) :
    (findJobs cfg made lock w T).2 = (claimIds T w).filter fun id =>
      ((T.get? id).any fun r => cfg.registered r.name) && made id := by
  rw [findJobs, disposeAll_jobs, List.nil_append, ← hids, List.filter_map]
  congr 1
  refine List.filter_congr ?_
  intro row hrow
  obtain ⟨r, hr, hname, _⟩ := mem_fetch hrow
  have hmem : row.id ∈ claimIds T w := hids ▸ List.mem_map_of_mem hrow
  rw [get?_claim, if_pos hmem] at hr
  obtain ⟨r₀, hr₀, rfl⟩ := Option.map_eq_some_iff.mp hr
  simp only [Function.comp_apply, hr₀, Option.any_some, ← hname]

/-- What an iteration leaves under an id. -/
theorem get?_iteration (made : JobId → Bool) (ret : JobId → Int)
    (hdiscard : cfg.discardUnknownJobs = true)
    (hids : (fetch (claim T lock w) lock w).map Fetched.id = claimIds T w) (id : JobId) :
    (iteration cfg made ret lock w T).1.get? id =
      if id ∈ claimIds T w then (T.get? id).map (finalRow cfg (made id) (ret id))
      else T.get? id := by
  have hjobs := findJobs_jobs cfg made hids
  have hnodup : (findJobs cfg made lock w T).2.Nodup := by
    rw [hjobs]
    exact (T.keysOf_nodup claimable (some w)).filter _
  rw [iteration, get?_storeResults hnodup]
  by_cases hid : id ∈ claimIds T w
  · obtain ⟨r, hr, _⟩ := mem_claimIds hid
    rw [if_pos hid, get?_findJobs cfg made hids hid hr, hr, Option.map_some, Option.map_some]
    simp only [mem_findJobs_jobs cfg made hids hid hr, outcome, finalRow, hdiscard]
    cases cfg.registered r.name <;> cases made id <;> simp
  · have hnot : id ∉ (findJobs cfg made lock w T).2 := by
      rw [hjobs]
      exact fun h => hid (List.mem_of_mem_filter h)
    rw [if_neg hid, if_neg hnot, get?_findJobs_of_not_mem cfg made hids hid]

/-- No row carries the lock id. -/
def Unlocked (T : JobsTable) (lock : List Char) : Prop :=
  ∀ id r, T.get? id = some r → r.lockedQueueId ≠ some lock

/-- Under a lock id that no row carries, the fetched rows are the claimed ones. -/
theorem Unlocked.fetch_ids (h : Unlocked T lock) (w : Nat) :
    (fetch (claim T lock w) lock w).map Fetched.id = claimIds T w := by
  have hall : (claim T lock w).keysOf (lockedBy lock) none = claimIds T w := by
    refine ((claim T lock w).keysOf_sorted _ _).eq_of_mem_iff (T.keysOf_sorted _ _) ?_
    intro id
    rw [Table.mem_keysOf_none]
    constructor
    · rintro ⟨r, hr, hlocked⟩
      by_contra hnot
      rw [get?_claim, if_neg hnot] at hr
      exact h id r hr (of_decide_eq_true hlocked).2
    · intro hid
      obtain ⟨r, hr, _⟩ := mem_claimIds hid
      refine ⟨_, by rw [get?_claim, if_pos hid, hr, Option.map_some], ?_⟩
      exact decide_eq_true ⟨rfl, rfl⟩
  rw [Jobs.fetch_ids, Table.keysOf_some, hall]
  exact List.take_of_length_le (claimIds_length_le T w)

/-- An iteration clears the locks of the rows it claims. -/
theorem Unlocked.iteration (h : Unlocked T lock) (hdiscard : cfg.discardUnknownJobs = true)
    {other : List Char} (hother : Unlocked T other) (hne : other ≠ []) :
    Unlocked (iteration cfg made ret lock w T).1 other := by
  intro id r hr
  rw [get?_iteration made ret hdiscard (h.fetch_ids w)] at hr
  split at hr
  · obtain ⟨r₀, _, rfl⟩ := Option.map_eq_some_iff.mp hr
    exact fun hlock => hne (Option.some.inj hlock).symm
  · exact hother id r hr

/-- The rows that wait after an iteration are the later ones that waited before. -/
theorem keysOf_iteration (h : Unlocked T lock) (hdiscard : cfg.discardUnknownJobs = true) :
    (iteration cfg made ret lock w T).1.keysOf claimable none =
      (T.keysOf claimable none).drop w := by
  have hsorted := T.keysOf_sorted claimable none
  refine (Table.keysOf_sorted _ _ _).eq_of_mem_iff (hsorted.sublist (List.drop_sublist _ _)) ?_
  intro id
  have hkeys := hsorted.nodup
  rw [← List.take_append_drop w (T.keysOf claimable none), List.nodup_append] at hkeys
  have hsplit : id ∈ T.keysOf claimable none ↔
      id ∈ claimIds T w ∨ id ∈ (T.keysOf claimable none).drop w := by
    rw [claimIds, Table.keysOf_some, ← List.mem_append, List.take_append_drop]
  rw [Table.mem_keysOf_none, get?_iteration made ret hdiscard (h.fetch_ids w)]
  by_cases hid : id ∈ claimIds T w
  · obtain ⟨r, hr, _⟩ := mem_claimIds hid
    have hdrop : id ∉ (T.keysOf claimable none).drop w := by
      intro hmem
      rw [claimIds, Table.keysOf_some] at hid
      exact hkeys.2.2 id hid id hmem rfl
    rw [if_pos hid, hr]
    refine iff_of_false ?_ hdrop
    rintro ⟨r', hr', hclaim⟩
    obtain rfl := Option.some.inj hr'
    have hpending := (of_decide_eq_true hclaim).1
    simp only [finalRow] at hpending
    split at hpending
    · split at hpending
      · split at hpending <;> contradiction
      · contradiction
    · contradiction
  · rw [if_neg hid, ← Table.mem_keysOf_none, hsplit, or_iff_right hid]

/-- The claims of two iterations in a row are the claim of one. -/
theorem claimIds_iteration (made : JobId → Bool) (ret : JobId → Int) (h : Unlocked T lock)
    (hdiscard : cfg.discardUnknownJobs = true) (w v : Nat) :
    claimIds T w ++ claimIds (iteration cfg made ret lock w T).1 v = claimIds T (w + v) := by
  simp only [claimIds, Table.keysOf_some, keysOf_iteration h hdiscard, List.take_add]

/-- The executed jobs are the claimed rows with a registered type and a creator's job. -/
theorem iteration_jobs (h : Unlocked T lock) : (iteration cfg made ret lock w T).2 =
    (claimIds T w).filter fun id =>
      ((T.get? id).any fun r => cfg.registered r.name) && made id :=
  findJobs_jobs cfg made (h.fetch_ids w)

/-- Two iterations in a row leave what one with both workloads leaves. -/
theorem iteration_add (made : JobId → Bool) (ret : JobId → Int) (h : Unlocked T lock)
    {other : List Char} (hother : Unlocked T other) (hne : other ≠ [])
    (hdiscard : cfg.discardUnknownJobs = true) (w v : Nat) :
    (∀ id, (iteration cfg made ret other v (iteration cfg made ret lock w T).1).1.get? id =
      (iteration cfg made ret other (w + v) T).1.get? id) ∧
    (iteration cfg made ret lock w T).2 ++
        (iteration cfg made ret other v (iteration cfg made ret lock w T).1).2 =
      (iteration cfg made ret other (w + v) T).2 := by
  have hlast : Unlocked (iteration cfg made ret lock w T).1 other := h.iteration hdiscard hother hne
  have hclaims := claimIds_iteration made ret h hdiscard w v
  have hrow := get?_iteration made ret hdiscard (h.fetch_ids w)
  have hlater : ∀ id ∈ claimIds (iteration cfg made ret lock w T).1 v, id ∉ claimIds T w := by
    have hnodup := T.keysOf_nodup claimable (some (w + v))
    rw [← claimIds, ← hclaims, List.nodup_append] at hnodup
    exact fun id hid hmem => hnodup.2.2 id hmem id hid rfl
  refine ⟨?_, ?_⟩
  · intro id
    rw [get?_iteration made ret hdiscard (hlast.fetch_ids v),
      get?_iteration made ret hdiscard (hother.fetch_ids (w + v)), hrow, ← hclaims]
    by_cases hid : id ∈ claimIds (iteration cfg made ret lock w T).1 v
    · rw [if_pos hid, if_neg (hlater id hid), if_pos (List.mem_append_right _ hid)]
    · rw [if_neg hid]
      simp only [List.mem_append, or_iff_left hid]
  · rw [iteration_jobs h, iteration_jobs hlast, iteration_jobs hother, ← hclaims,
      List.filter_append]
    congr 1
    refine List.filter_congr ?_
    intro id hid
    rw [hrow, if_neg (hlater id hid)]

/-- The iterations for groups of tokens, one after the other. -/
def iterations (cfg : Config) (made : JobId → Bool) (ret : JobId → Int) :
    JobsTable → List (Nat × Stamp) → JobsTable × List JobId
  | T, [] => (T, [])
  | T, (w, stamp) :: groups =>
    let first := iteration cfg made ret (lockid stamp) w T
    let rest := iterations cfg made ret first.1 groups
    (rest.1, first.2 ++ rest.2)

/-- However the tokens are grouped, the iterations leave what one for all of them leaves. -/
theorem iterations_eq (made : JobId → Bool) (ret : JobId → Int) {groups : List (Nat × Stamp)}
    {other : List Char} (hgroups : ∀ g ∈ groups, Unlocked T (lockid g.2))
    (hother : Unlocked T other) (hne : other ≠ []) (hdiscard : cfg.discardUnknownJobs = true) :
    (∀ id, (iterations cfg made ret T groups).1.get? id =
      (iteration cfg made ret other (groups.map Prod.fst).sum T).1.get? id) ∧
    (iterations cfg made ret T groups).2 =
      (iteration cfg made ret other (groups.map Prod.fst).sum T).2 := by
  induction groups generalizing T with
  | nil =>
    have hnone : claimIds T 0 = [] := by rw [claimIds, Table.keysOf_some, List.take_zero]
    refine ⟨?_, ?_⟩
    · intro id
      rw [List.map_nil, List.sum_nil, get?_iteration made ret hdiscard (hother.fetch_ids 0), hnone,
        if_neg List.not_mem_nil, iterations]
    · rw [List.map_nil, List.sum_nil, iteration_jobs hother, hnone, iterations, List.filter_nil]
  | cons g groups ih =>
    obtain ⟨w, stamp⟩ := g
    have hfirst : Unlocked T (lockid stamp) := hgroups _ (List.mem_cons_self ..)
    obtain ⟨hrows, hjobs⟩ := iteration_add made ret hfirst hother hne hdiscard w
      (groups.map Prod.fst).sum
    obtain ⟨ihrows, ihjobs⟩ := ih (T := (iteration cfg made ret (lockid stamp) w T).1)
      (fun g hg => hfirst.iteration hdiscard (hgroups g (List.mem_cons_of_mem _ hg))
        (lockid_ne_nil g.2))
      (hfirst.iteration hdiscard hother hne)
    refine ⟨fun id => (ihrows id).trans (hrows id), ?_⟩
    rw [List.map_cons, List.sum_cons, ← hjobs, ← ihjobs]
    rfl

end Tables

section Steps

/-- The thread's events for its jobs, every execution and every statement carried out. -/
def jobEvents (q : ι) (ret : JobId → Int) (jobs : List JobId) : List (Event ι) :=
  jobs.flatMap (fun id => [.thread q (.execute true (ret id)), .thread q (.update .ok)]) ++
    [.thread q .done]

/-- Tokens come in while the thread is at the head of its loop, and it works for all of them. -/
def iterationEvents (cfg : Config) (q : ι) (made : JobId → Bool) (ret : JobId → Int)
    (stamp : Stamp) (T : JobsTable) (w : Nat) : List (Event ι) :=
  List.replicate w (.sendWork q) ++ .thread q .check :: (List.replicate (w + 1) (.thread q .pop) ++
    (callEvents cfg q made stamp T w ++ jobEvents q ret (findJobs cfg made (lockid stamp) w T).2))

/-- A thread that has finished an iteration and finds nothing in its queue. -/
structure Resting (wq : WorkQueue) : Prop where
  head : wq.pc = .head
  active : wq.active = true
  empty : wq.queue = []

variable [DecidableEq ι] {cfg : ι → Config} {made : JobId → Bool} {ret : JobId → Int}
  {s : System ι} {q : ι}

theorem step_queue {a : Action} {sh : Shared ι} {wq : WorkQueue}
    (h : threadStep (cfg q) q s.shared (s.queues q) a = some (sh, wq)) :
    ∃ t, step cfg s (.thread q a) = some t ∧ t.shared = sh ∧ t.queues q = wq := by
  refine ⟨⟨sh, Function.update s.queues q wq⟩, ?_, rfl, Function.update_self ..⟩
  rw [step, h, Option.map_some]

theorem exec_sendWorks (cfg : ι → Config) (s : System ι) (q : ι) (w : Nat) :
    ∃ u, exec (step cfg) s (List.replicate w (.sendWork q)) = some u ∧ u.shared = s.shared ∧
      u.queues q = { s.queues q with
        queue := (s.queues q).queue ++ List.replicate w .work
        pending := (s.queues q).pending + w
        sent := (s.queues q).sent + w } := by
  induction w generalizing s with
  | zero => exact ⟨s, rfl, rfl, by simp⟩
  | succ w ih =>
    obtain ⟨u, hu, hsh, hq⟩ := ih (s.setQueue q (s.queues q).sendWork)
    refine ⟨u, exec_cons_eq_some.mpr ⟨_, rfl, hu⟩, hsh, ?_⟩
    rw [hq]
    simp only [System.setQueue, Function.update_self, WorkQueue.sendWork, List.append_assoc,
      List.singleton_append, List.replicate_succ, WorkQueue.mk.injEq, true_and, and_true]
    push_cast
    omega

/-- The coalescing loop takes every token that is there. -/
theorem exec_pops (cfg : ι → Config) {w n : Nat} (hpc : (s.queues q).pc = .tryPop w)
    (hqueue : (s.queues q).queue = List.replicate n .work) (hw : 0 < w) :
    ∃ u, exec (step cfg) s (List.replicate (n + 1) (.thread q .pop)) = some u ∧
      u.shared = s.shared ∧
      u.queues q = { s.queues q with queue := [], pc := .findJobs (w + n) } := by
  induction n generalizing s w with
  | zero =>
    have hpop : threadStep (cfg q) q s.shared (s.queues q) .pop =
        some (s.shared, { s.queues q with queue := [], pc := .findJobs w }) := by
      simp only [threadStep, hpc, hqueue, List.replicate_zero, if_neg (Nat.ne_of_gt hw)]
    obtain ⟨t, ht, hsh, hq⟩ := step_queue hpop
    exact ⟨t, exec_cons_eq_some.mpr ⟨t, ht, rfl⟩, hsh, hq⟩
  | succ n ih =>
    have hpop : threadStep (cfg q) q s.shared (s.queues q) .pop =
        some (s.shared,
          { s.queues q with queue := List.replicate n .work, pc := .tryPop (w + 1) }) := by
      simp only [threadStep, hpc, hqueue, List.replicate_succ, WorkQueue.receive]
    obtain ⟨t, ht, hsh, hq⟩ := step_queue hpop
    obtain ⟨u, hu, hush, huq⟩ := ih (by rw [hq]) (by rw [hq]) (Nat.succ_pos w)
    refine ⟨u, exec_cons_eq_some.mpr ⟨t, ht, hu⟩, hush.trans hsh, ?_⟩
    rw [huq, hq, Nat.succ_add_eq_add_succ]

/-- The claim, the rows and the return of an undisturbed call. -/
theorem exec_call (cfg : ι → Config) (made : JobId → Bool) {w : Nat} {stamp : Stamp}
    (hpc : (s.queues q).pc = .findJobs w) (hstamp : lockid stamp ∉ s.shared.locks) :
    ∃ u, exec (step cfg) s (callEvents (cfg q) q made stamp s.shared.table w) = some u ∧
      u.shared = { s.shared.claim q (lockid stamp) w .ok with
        table := (findJobs (cfg q) made (lockid stamp) w s.shared.table).1 } ∧
      u.queues q = { s.queues q with
        pc := .batch w (findJobs (cfg q) made (lockid stamp) w s.shared.table).2 } := by
  have hclaim : step cfg s (.thread q (.claim stamp .ok)) =
      some ((⟨s.shared.claim q (lockid stamp) w .ok, s.queues⟩ : System ι).act q
        (claim s.shared.table (lockid stamp) w) (.select ⟨lockid stamp, w⟩)) := by
    simp only [step, threadStep, hpc, if_neg hstamp, Option.map_some, if_true, System.act,
      Shared.claim, Reply.apply]
  refine ⟨(⟨s.shared.claim q (lockid stamp) w .ok, s.queues⟩ : System ι).act q
    (findJobs (cfg q) made (lockid stamp) w s.shared.table).1
    (.batch w (findJobs (cfg q) made (lockid stamp) w s.shared.table).2), ?_, rfl,
    Function.update_self ..⟩
  refine exec_cons_eq_some.mpr ⟨_, hclaim, exec_cons_eq_some.mpr ⟨_, step_act rfl, ?_⟩⟩
  exact exec_append.mpr ⟨_, exec_rows, exec_cons_eq_some.mpr ⟨_, step_act rfl, rfl⟩⟩

/-- The loop over the jobs stores what their executions return. -/
theorem exec_jobs (cfg : ι → Config) (ret : JobId → Int) {w : Int} {jobs : List JobId}
    (hpc : (s.queues q).pc = .batch w jobs) :
    ∃ u, exec (step cfg) s (jobEvents q ret jobs) = some u ∧
      u.shared = { s.shared with
        table := jobs.foldl (storeResult ret) s.shared.table
        runs := (jobs.map fun id => (id, ret id)).reverse ++ s.shared.runs } ∧
      u.queues q = { s.queues q with
        pc := .head, pending := (s.queues q).pending - jobs.length } := by
  induction jobs generalizing s w with
  | nil =>
    have hdone : threadStep (cfg q) q s.shared (s.queues q) .done =
        some (s.shared, { s.queues q with pc := .head }) := by
      simp only [threadStep, hpc]
    obtain ⟨t, ht, hsh, hq⟩ := step_queue hdone
    refine ⟨t, exec_cons_eq_some.mpr ⟨t, ht, rfl⟩, hsh, ?_⟩
    rw [hq, List.length_nil, Nat.cast_zero, Int.sub_zero]
  | cons id jobs ih =>
    have hexecute : threadStep (cfg q) q s.shared (s.queues q) (.execute true (ret id)) =
        some ({ s.shared with runs := (id, ret id) :: s.shared.runs },
          { s.queues q with pc := .finish w id (ret id) jobs }) := by
      simp only [threadStep, hpc, realExecute, if_true]
    obtain ⟨t, ht, hsh, hq⟩ := step_queue hexecute
    have hupdate : threadStep (cfg q) q t.shared (t.queues q) (.update .ok) =
        some ({ t.shared with table := storeResult ret t.shared.table id },
          { t.queues q with pc := .batch (w - 1) jobs, pending := (t.queues q).pending - 1 }) := by
      simp only [threadStep, hq, Shared.write, Reply.apply, storeResult]
    obtain ⟨v, hv, hvsh, hvq⟩ := step_queue hupdate
    obtain ⟨u, hu, hush, huq⟩ := ih (s := v) (w := w - 1) (by rw [hvq])
    refine ⟨u, exec_cons_eq_some.mpr ⟨t, ht, exec_cons_eq_some.mpr ⟨v, hv, hu⟩⟩, ?_, ?_⟩
    · rw [hush, hvsh, hsh, List.foldl_cons, List.map_cons, List.reverse_cons, List.append_assoc,
        List.singleton_append]
    · rw [huq, hvq, hq]
      simp only [List.length_cons, WorkQueue.mk.injEq, true_and, and_true]
      push_cast
      omega

/-- An undisturbed iteration computes `iteration` and returns to the head of the loop. -/
theorem exec_iteration (cfg : ι → Config) (made : JobId → Bool) (ret : JobId → Int) {w : Nat}
    {stamp : Stamp} (hrest : Resting (s.queues q)) (hw : 0 < w)
    (hstamp : lockid stamp ∉ s.shared.locks) :
    ∃ u, exec (step cfg) s (iterationEvents (cfg q) q made ret stamp s.shared.table w) = some u ∧
      u.shared.table = (iteration (cfg q) made ret (lockid stamp) w s.shared.table).1 ∧
      u.shared.runs = ((iteration (cfg q) made ret (lockid stamp) w s.shared.table).2.map
        fun id => (id, ret id)).reverse ++ s.shared.runs ∧
      u.shared.locks = lockid stamp :: s.shared.locks ∧
      u.queues q = { s.queues q with
        pending := (s.queues q).pending + w -
          (iteration (cfg q) made ret (lockid stamp) w s.shared.table).2.length
        sent := (s.queues q).sent + w } := by
  obtain ⟨hhead, hactive, hempty⟩ := hrest
  obtain ⟨n, rfl⟩ : ∃ n, w = n + 1 := ⟨w - 1, by omega⟩
  obtain ⟨s₁, h₁, hsh₁, hq₁⟩ := exec_sendWorks cfg s q (n + 1)
  have hcheck : threadStep (cfg q) q s₁.shared (s₁.queues q) .check =
      some (s₁.shared, { s₁.queues q with pc := .timedPop }) := by
    simp only [threadStep, hq₁, hhead, hactive, if_true]
  obtain ⟨s₂, h₂, hsh₂, hq₂⟩ := step_queue hcheck
  have hpop : threadStep (cfg q) q s₂.shared (s₂.queues q) .pop = some (s₂.shared,
      { s₂.queues q with queue := List.replicate n .work, pc := .tryPop 1 }) := by
    simp only [threadStep, hq₂, hq₁, hempty, List.nil_append, List.replicate_succ,
      WorkQueue.receive]
  obtain ⟨s₃, h₃, hsh₃, hq₃⟩ := step_queue hpop
  obtain ⟨s₄, h₄, hsh₄, hq₄⟩ := exec_pops cfg (s := s₃) (q := q) (w := 1) (n := n)
    (by rw [hq₃]) (by rw [hq₃]) Nat.one_pos
  have hshared : s₄.shared = s.shared := by rw [hsh₄, hsh₃, hsh₂, hsh₁]
  have hcall : (s₄.queues q).pc = .findJobs (n + 1) := by rw [hq₄, Nat.add_comm]
  rw [← hshared] at hstamp
  obtain ⟨s₅, h₅, hsh₅, hq₅⟩ := exec_call cfg made hcall hstamp
  obtain ⟨u, hu, hush, huq⟩ := exec_jobs cfg ret (s := s₅) (q := q) (by rw [hq₅])
  rw [hshared] at h₅ hsh₅ hq₅ hu hush huq
  refine ⟨u, ?_, ?_, ?_, ?_, ?_⟩
  · refine exec_append.mpr ⟨s₁, h₁, exec_cons_eq_some.mpr ⟨s₂, h₂, exec_append.mpr ⟨s₄, ?_, ?_⟩⟩⟩
    · exact exec_cons_eq_some.mpr ⟨s₃, h₃, h₄⟩
    · exact exec_append.mpr ⟨s₅, h₅, hu⟩
  · rw [hush, hsh₅]
    rfl
  · rw [hush, hsh₅]
    rfl
  · rw [hush, hsh₅]
    rfl
  · simp only [huq, hq₅, hq₄, hq₃, hq₂, hq₁, hhead, hempty, iteration]

/-- The events of iterations one after the other. -/
def spreadEvents (cfg : Config) (q : ι) (made : JobId → Bool) (ret : JobId → Int) :
    JobsTable → List (Nat × Stamp) → List (Event ι)
  | _, [] => []
  | T, (w, stamp) :: groups => iterationEvents cfg q made ret stamp T w ++
      spreadEvents cfg q made ret (iteration cfg made ret (lockid stamp) w T).1 groups

/-- Undisturbed iterations compute `iterations`. -/
theorem exec_spread (cfg : ι → Config) (made : JobId → Bool) (ret : JobId → Int)
    {groups : List (Nat × Stamp)} (hrest : Resting (s.queues q))
    (hpos : ∀ g ∈ groups, 0 < g.1) (hnodup : (groups.map fun g => lockid g.2).Nodup)
    (hfresh : ∀ g ∈ groups, lockid g.2 ∉ s.shared.locks) :
    ∃ t, exec (step cfg) s (spreadEvents (cfg q) q made ret s.shared.table groups) = some t ∧
      t.shared.table = (iterations (cfg q) made ret s.shared.table groups).1 ∧
      t.shared.runs = ((iterations (cfg q) made ret s.shared.table groups).2.map
        fun id => (id, ret id)).reverse ++ s.shared.runs ∧
      t.queues q = { s.queues q with
        pending := (s.queues q).pending + (groups.map Prod.fst).sum -
          (iterations (cfg q) made ret s.shared.table groups).2.length
        sent := (s.queues q).sent + (groups.map Prod.fst).sum } := by
  induction groups generalizing s with
  | nil => exact ⟨s, rfl, rfl, rfl, by simp [iterations]⟩
  | cons g groups ih =>
    obtain ⟨w, stamp⟩ := g
    rw [List.map_cons, List.nodup_cons] at hnodup
    obtain ⟨u, hu, htable, hruns, hlocks, hq⟩ := exec_iteration cfg made ret hrest
      (hpos _ (List.mem_cons_self ..)) (hfresh _ (List.mem_cons_self ..))
    have hrest' : Resting (u.queues q) := by
      rw [hq]
      exact ⟨hrest.head, hrest.active, hrest.empty⟩
    have hfresh' : ∀ g ∈ groups, lockid g.2 ∉ u.shared.locks := by
      intro g hg
      rw [hlocks, List.mem_cons, not_or]
      refine ⟨?_, hfresh g (List.mem_cons_of_mem _ hg)⟩
      exact fun heq => hnodup.1 (heq ▸ List.mem_map_of_mem hg)
    obtain ⟨t, ht, httable, htruns, htq⟩ := ih hrest'
      (fun g hg => hpos g (List.mem_cons_of_mem _ hg)) hnodup.2 hfresh'
    rw [htable] at ht httable htruns htq
    refine ⟨t, exec_append.mpr ⟨u, hu, ht⟩, httable, ?_, ?_⟩
    · rw [htruns, hruns, iterations, List.map_append, List.reverse_append, List.append_assoc]
    · rw [htq, hq]
      simp only [iterations, List.map_cons, List.sum_cons, List.length_append,
        WorkQueue.mk.injEq, true_and, and_true]
      push_cast
      omega

/-- Coalescing changes nothing but the number of calls. From every reachable state in which a
thread has nothing to do, let tokens come in in groups, the thread working for each group before
the next one comes, or all at once; undisturbed, with no failing statement and unknown jobs
discarded, both runs leave the same rows, execute the same jobs in the same order with the same
results, and leave the queue as it was, with the same pending count. -/
theorem coalescing_agrees {s₀ : System ι} {es₀ : List (Event ι)} {groups : List (Nat × Stamp)}
    (made : JobId → Bool) (ret : JobId → Int) (stamp : Stamp)
    (hboot : Boot s₀) (hreach : exec (step cfg) s₀ es₀ = some s)
    (hrest : Resting (s.queues q)) (hdiscard : (cfg q).discardUnknownJobs = true)
    (hgroups : groups ≠ []) (hpos : ∀ g ∈ groups, 0 < g.1)
    (hnodup : (groups.map fun g => lockid g.2).Nodup)
    (hfresh : ∀ g ∈ groups, lockid g.2 ∉ s.shared.locks)
    (hstamp : lockid stamp ∉ s.shared.locks) :
    ∃ t u, exec (step cfg) s (spreadEvents (cfg q) q made ret s.shared.table groups) = some t ∧
      exec (step cfg) s (iterationEvents (cfg q) q made ret stamp s.shared.table
        (groups.map Prod.fst).sum) = some u ∧
      (∀ id, t.row id = u.row id) ∧ t.shared.runs = u.shared.runs ∧
      t.queues q = u.queues q := by
  have L : Ledger s.shared s.pc := hboot.ledger_exec hreach
  have hunlocked : ∀ st, lockid st ∉ s.shared.locks → Unlocked s.shared.table (lockid st) :=
    fun st hst id r hr hl => hst (L.locked id r _ hr hl (lockid_ne_nil st))
  have hsum : 0 < (groups.map Prod.fst).sum := by
    obtain ⟨g, hg⟩ := List.exists_mem_of_ne_nil groups hgroups
    exact List.sum_pos_iff_exists_pos_nat.mpr ⟨g.1, List.mem_map_of_mem hg, hpos g hg⟩
  obtain ⟨t, ht, httable, htruns, htq⟩ := exec_spread cfg made ret hrest hpos hnodup
    hfresh
  obtain ⟨u, hu, hutable, huruns, _, huq⟩ := exec_iteration cfg made ret hrest hsum hstamp
  obtain ⟨hrows, hjobs⟩ := iterations_eq made ret
    (fun g hg => hunlocked g.2 (hfresh g hg)) (hunlocked stamp hstamp) (lockid_ne_nil stamp)
    hdiscard
  refine ⟨t, u, ht, hu, ?_, ?_, ?_⟩
  · intro id
    rw [System.row, System.row, httable, hutable]
    exact hrows id
  · rw [htruns, huruns, hjobs]
  · rw [htq, huq, hjobs]

end Steps

/-- Three rows, one of an unknown type: a token and then two more, or three at once. -/
theorem coalescing_agrees_three_rows :
    ∃ s t u : System Unit, exec (step fun _ => Config.runOnly) System.initial
        [.insert 3 "run".toList none, .insert 1 "run".toList none,
          .insert 2 "mail".toList none] = some s ∧
      exec (step fun _ => Config.runOnly) s (spreadEvents Config.runOnly () (fun _ => true)
        (fun id => id) s.shared.table [(1, ⟨1, 0, 0, 0⟩), (2, ⟨2, 0, 0, 0⟩)]) = some t ∧
      exec (step fun _ => Config.runOnly) s (iterationEvents Config.runOnly () (fun _ => true)
        (fun id => id) ⟨3, 0, 0, 0⟩ s.shared.table 3) = some u ∧
      (∀ id, t.row id = u.row id) ∧ t.shared.runs = u.shared.runs := by
  have hreach : exec (step fun _ : Unit => Config.runOnly) System.initial
      [.insert 3 "run".toList none, .insert 1 "run".toList none, .insert 2 "mail".toList none] =
      some ⟨⟨threeRows, [], []⟩, fun _ => WorkQueue.new⟩ := rfl
  have hfresh : ∀ g ∈ [(1, (⟨1, 0, 0, 0⟩ : Stamp)), (2, ⟨2, 0, 0, 0⟩)],
      lockid g.2 ∉ ([] : List (List Char)) := fun _ _ => List.not_mem_nil
  obtain ⟨t, u, ht, hu, hrows, hruns, _⟩ := coalescing_agrees (q := ()) (fun _ => true)
    (fun id => id) ⟨3, 0, 0, 0⟩ fresh_initial.boot hreach ⟨rfl, rfl, rfl⟩ rfl
    (List.cons_ne_nil _ _) (by decide) (by decide) hfresh List.not_mem_nil
  exact ⟨_, t, u, hreach, ht, hu, hrows, hruns⟩

end Workq.Worker
