import Workq.Worker.Tokens

/-!
# Rows that wait and tokens that come for them

A token in a queue, in the collected workload or on its way into a claim is good for one row.
No statement but a client's insert adds to the rows that wait, and a claim takes as many of
them as its workload has tokens, or all. So a step of a thread never leaves more rows without
a token than there were, unless its claim had no effect or it popped a stop message.
-/

namespace Workq.Worker

open Workq.Core Workq.Jobs

variable {ι : Type*}

/-- The number of rows that wait to be claimed. -/
def backlog (T : JobsTable) : Nat := (T.keysOf claimable none).length

/-- The rows that a thread's tokens can still claim. -/
def WorkQueue.load (wq : WorkQueue) : Nat :=
  wq.tokens + wq.pc.collected + wq.pc.passing.sum

/-- A claim that is issued takes effect. -/
def Action.Lands : Action → Prop
  | .claim _ reply => reply ≠ .failed false
  | _ => True

section Tables

variable {T T' : JobsTable}

/-- What the statements besides the insert leave waiting was waiting before. -/
theorem backlog_le (h : ∀ id r, T'.get? id = some r → claimable id r = true →
    ∃ r₀, T.get? id = some r₀ ∧ claimable id r₀ = true) : backlog T' ≤ backlog T := by
  refine Table.length_keysOf_le ?_
  intro id hid
  obtain ⟨r, hr, hclaim⟩ := Table.mem_keysOf hid
  exact Table.mem_keysOf_none.mpr (h id r hr hclaim)

theorem claimable_pending {id : JobId} {r : JobRow} (h : claimable id r = true) :
    r.status = .pending :=
  (of_decide_eq_true h).1

/-- A statement with `WHERE id=%d` that sets another status adds nothing. -/
theorem backlog_key_le {i : JobId} {f : JobRow → JobRow}
    (hT : ∀ j, T'.get? j = if j = i then (T.get? j).map f else T.get? j)
    (hf : ∀ r, (f r).status ≠ .pending) : backlog T' ≤ backlog T := by
  refine backlog_le ?_
  intro id r hr hclaim
  rw [hT] at hr
  split at hr
  · obtain ⟨r₀, _, rfl⟩ := Option.map_eq_some_iff.mp hr
    exact absurd (claimable_pending hclaim) (hf r₀)
  · exact ⟨r, hr, hclaim⟩

/-- The compensating release frees no pending row. -/
theorem backlog_release_le (T : JobsTable) (lock : List Char) :
    backlog (release T lock) ≤ backlog T := by
  refine backlog_le ?_
  intro id r hr hclaim
  rw [get?_release] at hr
  obtain ⟨r₀, hr₀, rfl⟩ := Option.map_eq_some_iff.mp hr
  refine ⟨r₀, hr₀, ?_⟩
  split at hclaim
  · rename_i hlocked
    exact absurd (claimable_pending hclaim) hlocked.1
  · exact hclaim

/-- A claim takes as many waiting rows as it has a workload for. -/
theorem backlog_claim_le (T : JobsTable) (lock : List Char) (w : Nat) :
    backlog (Jobs.claim T lock w) ≤ backlog T - w := by
  have hafter : ∀ id ∈ (Jobs.claim T lock w).keysOf claimable none,
      id ∈ (T.keysOf claimable none).drop w := by
    intro id hid
    obtain ⟨r, hr, hclaim⟩ := Table.mem_keysOf hid
    rw [get?_claim] at hr
    split at hr
    · obtain ⟨r₀, _, rfl⟩ := Option.map_eq_some_iff.mp hr
      exact absurd (claimable_pending hclaim) Status.noConfusion
    · rename_i hnot
      have hmem : id ∈ T.keysOf claimable none := Table.mem_keysOf_none.mpr ⟨r, hr, hclaim⟩
      rw [← List.take_append_drop w (T.keysOf claimable none)] at hmem
      refine (List.mem_append.mp hmem).resolve_left ?_
      rw [← Table.keysOf_some]
      exact hnot
  have hlength := Table.length_keysOf_le hafter
  rwa [List.length_drop] at hlength

/-- A client's insert adds one row. -/
theorem backlog_insert_le {id : JobId} (hid : T.get? id = none) (row : JobRow) :
    backlog (T.insert id row) ≤ backlog T + 1 := by
  have hafter : ∀ i ∈ (T.insert id row).keysOf claimable none,
      i ∈ id :: T.keysOf claimable none := by
    intro i hi
    obtain ⟨r, hr, hclaim⟩ := Table.mem_keysOf hi
    rcases get?_insert_cases hid hr with hr | ⟨rfl, _⟩
    · exact List.mem_cons_of_mem _ (Table.mem_keysOf_none.mpr ⟨r, hr, hclaim⟩)
    · exact List.mem_cons_self ..
  have hlength := Table.length_keysOf_le hafter
  rwa [List.length_cons] at hlength

/-- No row waits exactly if none can be claimed. -/
theorem backlog_eq_zero : backlog T = 0 ↔ ∀ id r, T.get? id = some r → claimable id r = false := by
  rw [backlog, List.length_eq_zero_iff, List.eq_nil_iff_forall_not_mem]
  constructor
  · intro h id r hr
    exact Bool.eq_false_of_not_eq_true fun hclaim =>
      h id (Table.mem_keysOf_none.mpr ⟨r, hr, hclaim⟩)
  · intro h id hid
    obtain ⟨r, hr, hclaim⟩ := Table.mem_keysOf hid
    rw [h id r hr] at hclaim
    contradiction

end Tables

section Threads

variable {cfg : Config} {q : ι} {sh sh' : Shared ι} {wq wq' : WorkQueue} {a : Action}

/-- A statement that may have had no effect adds nothing if it adds nothing otherwise. -/
theorem backlog_reply_le (reply : Reply) {T : JobsTable} (h : backlog T ≤ backlog sh.table) :
    backlog (sh.write reply T).table ≤ backlog sh.table :=
  reply.apply_of (P := fun T => backlog T ≤ backlog sh.table) le_rfl h

/-- Between two points without a workload the load is the tokens in the queue. -/
theorem WorkQueue.load_move {p p' : Pc} {pending : Int} (hpc : wq.pc = p) (hp : p.Through)
    (hp' : p'.Through) : { wq with pc := p', pending := pending }.load = wq.load := by
  simp only [WorkQueue.load, WorkQueue.tokens, hpc, hp.1, hp.2, hp'.1, hp'.2]

/-- A popped token stays in the load. -/
theorem WorkQueue.load_receive {w : Nat} {m : Message} {ms : List Message}
    (hw : wq.pc.collected = w) (hpass : wq.pc.passing = []) (hq : wq.queue = m :: ms)
    (hstop : Message.stop ∉ wq.queue) : (wq.receive w ms m).load = wq.load := by
  cases m with
  | stop => exact absurd (hq ▸ List.mem_cons_self ..) hstop
  | work =>
    have htokens : wq.tokens = ms.count .work + 1 := by
      rw [WorkQueue.tokens, hq, List.count_cons_self]
    have hafter : (wq.receive w ms .work).load = ms.count .work + (w + 1) + 0 := rfl
    rw [hafter, WorkQueue.load, htokens, hw, hpass, List.sum_nil]
    omega

/-- A step of a thread goes on covering the rows that wait. -/
theorem ThreadStep.covers (h : ThreadStep cfg q sh wq a sh' wq') (ha : a.Lands)
    (hstop : Message.stop ∉ wq.queue) {others : Nat}
    (hcover : backlog sh.table ≤ wq.load + others) :
    backlog sh'.table ≤ wq'.load + others := by
  cases h with
  | check hpc =>
    rw [WorkQueue.load_move hpc ⟨rfl, rfl⟩ (by split <;> exact ⟨rfl, rfl⟩)]
    exact hcover
  | popFirst m ms hpc hq =>
    rw [WorkQueue.load_receive (by rw [hpc]; rfl) (by rw [hpc]; rfl) hq hstop]
    exact hcover
  | popNext w m ms hpc hq =>
    rw [WorkQueue.load_receive (by rw [hpc]; rfl) (by rw [hpc]; rfl) hq hstop]
    exact hcover
  | popNone w hpc hq =>
    have hload : { wq with pc := if w = 0 then .head else .findJobs w }.load = wq.load := by
      by_cases hw : w = 0
      · subst hw
        simp only [WorkQueue.load, WorkQueue.tokens, hpc, if_true, Pc.collected, Pc.passing]
      · simp only [WorkQueue.load, WorkQueue.tokens, hpc, if_neg hw, Pc.collected, Pc.passing,
          List.sum_cons, List.sum_nil]
        omega
    rw [hload]
    exact hcover
  | claim w stamp reply hpc hfresh =>
    have htable : (sh.claim q (lockid stamp) w reply).table =
        Jobs.claim sh.table (lockid stamp) w := by
      cases reply with
      | ok => rfl
      | failed tookEffect =>
        cases tookEffect with
        | true => rfl
        | false => exact absurd rfl ha
    have hload : wq.load = wq.tokens + w := by
      simp only [WorkQueue.load, hpc, Pc.collected, Pc.passing, List.sum_cons, List.sum_nil]
      omega
    have hafter : ∀ p : Pc, p.Through → { wq with pc := p }.load = wq.tokens := by
      intro p hp
      simp only [WorkQueue.load, WorkQueue.tokens, hp.1, hp.2, List.sum_nil]
      rfl
    have hle := backlog_claim_le sh.table (lockid stamp) w
    rw [htable, hafter _ (by split <;> exact ⟨rfl, rfl⟩)]
    omega
  | create c row rest jobs made hpc =>
    rw [WorkQueue.load_move hpc ⟨rfl, rfl⟩ (through_rowPc ..)]
    exact hcover
  | release c reply hpc =>
    rw [WorkQueue.load_move hpc ⟨rfl, rfl⟩ ⟨rfl, rfl⟩]
    exact (backlog_reply_le reply (backlog_release_le sh.table c.lock)).trans hcover
  | discard c id known rest jobs reply hpc =>
    rw [WorkQueue.load_move hpc ⟨rfl, rfl⟩ (by split <;> exact ⟨rfl, rfl⟩)]
    exact (backlog_reply_le reply (backlog_key_le (get?_setError sh.table id)
      (fun _ => Status.noConfusion))).trans hcover
  | mark c id rest jobs reply hpc =>
    rw [WorkQueue.load_move hpc ⟨rfl, rfl⟩ ⟨rfl, rfl⟩]
    exact (backlog_reply_le reply (backlog_key_le (get?_setProcessing sh.table id)
      (fun _ => Status.noConfusion))).trans hcover
  | finish w id ret jobs reply hpc =>
    rw [WorkQueue.load_move hpc ⟨rfl, rfl⟩ ⟨rfl, rfl⟩]
    refine (backlog_reply_le reply ?_).trans hcover
    split
    · exact backlog_key_le (get?_setComplete sh.table id) (fun _ => Status.noConfusion)
    · exact backlog_key_le (get?_setError sh.table id) (fun _ => Status.noConfusion)
  | timeout hpc hq | fetchOk c hpc | fetchNoResult c hpc | fetchFailed c hpc
  | returnJobs c jobs hpc | batchEnd w hpc | execute w id jobs loadData execute hpc =>
    rw [WorkQueue.load_move hpc ⟨rfl, rfl⟩ ⟨rfl, rfl⟩]
    exact hcover

/-- A thread pushes no message to its own queue. -/
theorem ThreadStep.queue_subset (h : ThreadStep cfg q sh wq a sh' wq') :
    wq'.queue ⊆ wq.queue := by
  cases h with
  | popFirst m ms hpc hq | popNext w m ms hpc hq =>
    rw [hq]
    cases m <;> exact List.subset_cons_self _ _
  | _ => exact fun _ h => h

theorem WorkQueue.load_sendWork (wq : WorkQueue) : wq.sendWork.load = wq.load + 1 := by
  simp only [WorkQueue.load, WorkQueue.tokens, WorkQueue.sendWork, List.count_append,
    List.count_singleton_self]
  omega

end Threads

end Workq.Worker
