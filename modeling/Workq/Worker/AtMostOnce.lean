import Workq.Worker.Ownership

/-!
# A job is executed at most once

With the ledger in hand, at-most-once execution is the fact that a job is executed
only from a thread's list of unexecuted jobs. A stored result is justified by the
trace: `complete` by an execution that returned non-zero, `error` by the absence of
one. Both survive every failing statement, whether or not it took effect.
-/

namespace Workq.Worker

open Workq.Core Workq.Jobs

variable {ι : Type*}

/-- The results of the executions of a row's job, latest first. -/
def Shared.executions (sh : Shared ι) (id : JobId) : List Int :=
  (sh.runs.filter fun r => r.1 = id).map Prod.snd

theorem Shared.mem_executions {sh : Shared ι} {id : JobId} {ret : Int} :
    ret ∈ sh.executions id ↔ (id, ret) ∈ sh.runs := by
  simp only [executions, List.mem_map, List.mem_filter, decide_eq_true_eq, Prod.exists,
    exists_eq_right]

/-- Distinct ids in the trace leave at most one result for each. -/
theorem Shared.length_executions_le {sh : Shared ι} (h : sh.runIds.Nodup) (id : JobId) :
    (sh.executions id).length ≤ 1 := by
  have hcount := List.nodup_iff_count_le_one.mp h id
  rw [runIds, List.count, List.countP_map, List.countP_eq_length_filter] at hcount
  rw [executions, List.length_map]
  have hfun : (fun r : JobId × Int => decide (r.1 = id)) = (fun x => x == id) ∘ Prod.fst := by
    funext r
    exact (beq_eq_decide r.1 id).symm
  rw [hfun]
  exact hcount

/-- A stored status that the execution trace bears out. -/
def Justified (sh : Shared ι) (id : JobId) (st : Status) : Prop :=
  (st = .complete → ∃ ret, ret ≠ 0 ∧ (id, ret) ∈ sh.runs) ∧
    (st = .error → ∀ ret, (id, ret) ∈ sh.runs → ret = 0)

/-- Every row's status is borne out by the trace. -/
def Settled (sh : Shared ι) : Prop :=
  ∀ id r, sh.table.get? id = some r → Justified sh id r.status

theorem justified_of_ne {sh : Shared ι} {id : JobId} {st : Status} (hc : st ≠ .complete)
    (he : st ≠ .error) : Justified sh id st :=
  ⟨fun h => absurd h hc, fun h => absurd h he⟩

/-- A statement needs its results justified only if it takes effect. -/
theorem Settled.reply {sh : Shared ι} (S : Settled sh) {T : JobsTable}
    (hfull : Settled { sh with table := T }) (reply : Reply) : Settled (sh.write reply T) :=
  reply.apply_of (P := fun T => Settled { sh with table := T }) S hfull

/-- A statement on one row needs its new status justified. -/
theorem Settled.key {sh : Shared ι} (S : Settled sh) {T : JobsTable} {id : JobId}
    {f : JobRow → JobRow}
    (hT : ∀ i, T.get? i = if i = id then (sh.table.get? i).map f else sh.table.get? i)
    (hf : ∀ r, Justified sh id (f r).status) (reply : Reply) : Settled (sh.write reply T) := by
  have hfull : Settled { sh with table := T } := by
    intro i r hr
    change T.get? i = some r at hr
    rw [hT] at hr
    split at hr
    · rename_i hi
      obtain ⟨r₀, _, rfl⟩ := Option.map_eq_some_iff.mp hr
      subst hi
      exact hf r₀
    · exact S i r hr
  exact S.reply hfull reply

/-- A claim stores no result. -/
theorem Settled.claim {sh : Shared ι} (S : Settled sh) {q : ι} (lock : List Char) (w : Nat)
    (reply : Reply) : Settled (sh.claim q lock w reply) := by
  have hfull : Settled { sh with table := Jobs.claim sh.table lock w } := by
    intro i r hr
    change (Jobs.claim sh.table lock w).get? i = some r at hr
    rw [get?_claim] at hr
    split at hr
    · obtain ⟨r₀, _, rfl⟩ := Option.map_eq_some_iff.mp hr
      exact justified_of_ne Status.noConfusion Status.noConfusion
    · exact S i r hr
  exact S.reply hfull reply

/-- The compensating release keeps every status. -/
theorem Settled.release {sh : Shared ι} (S : Settled sh) (lock : List Char) (reply : Reply) :
    Settled (sh.write reply (release sh.table lock)) := by
  have hfull : Settled { sh with table := Jobs.release sh.table lock } := by
    intro i r hr
    change (Jobs.release sh.table lock).get? i = some r at hr
    rw [get?_release] at hr
    obtain ⟨r₀, hr₀, rfl⟩ := Option.map_eq_some_iff.mp hr
    have h₀ := S i r₀ hr₀
    split <;> exact h₀
  exact S.reply hfull reply

/-- A job is executed only while its row is on its way, so no stored result is upset. -/
theorem Settled.execute {sh : Shared ι} (S : Settled sh) {id : JobId} {r₀ : JobRow}
    (hr₀ : sh.table.get? id = some r₀) (hs : Status.Running r₀.status) (ret : Int) :
    Settled { sh with runs := (id, ret) :: sh.runs } := by
  intro i r hr
  obtain ⟨hc, he⟩ := S i r hr
  constructor
  · intro hst
    obtain ⟨ret', hne, hm⟩ := hc hst
    exact ⟨ret', hne, List.mem_cons_of_mem _ hm⟩
  · intro hst ret' hm
    rcases List.mem_cons.mp hm with heq | hm
    · obtain ⟨rfl, rfl⟩ := Prod.mk.inj heq
      have hrr : r₀ = r := Option.some.inj (hr₀.symm.trans hr)
      rw [hrr, hst] at hs
      exact absurd hs Status.not_running_error
    · exact he hst ret' hm

/-- The trace holds at most one result for each job. -/
theorem Ledger.run_unique {sh : Shared ι} {pc : ι → Pc} (L : Ledger sh pc) {id : JobId}
    {a b : Int} (ha : (id, a) ∈ sh.runs) (hb : (id, b) ∈ sh.runs) : a = b :=
  congrArg Prod.snd (List.inj_on_of_nodup_map L.once ha hb rfl)

/-- Every step of a thread keeps the stored results justified. -/
theorem Settled.threadStep {cfg : Config} {q : ι} {sh sh' : Shared ι} {wq wq' : WorkQueue}
    {a : Action} {pc : ι → Pc} (S : Settled sh) (L : Ledger sh pc) (hq : pc q = wq.pc)
    (h : ThreadStep cfg q sh wq a sh' wq') : Settled sh' := by
  cases h with
  | check | timeout | popFirst | popNext | popNone | fetchOk | fetchNoResult | fetchFailed
  | create | returnJobs | batchEnd => exact S
  | claim w stamp reply hpc hfresh => exact S.claim _ w reply
  | release c reply hpc => exact S.release c.lock reply
  | discard c id known rest jobs reply hpc =>
    obtain ⟨_, hrun⟩ := (L.duty q).current id (by rw [hq, hpc]; rfl)
    refine S.key (get?_setError sh.table id) ?_ reply
    intro r
    refine ⟨fun h => by contradiction, ?_⟩
    intro _ ret hm
    exact absurd (List.mem_map_of_mem hm) hrun
  | mark c id rest jobs reply hpc =>
    exact S.key (get?_setProcessing sh.table id)
      (fun r => justified_of_ne Status.noConfusion Status.noConfusion) reply
  | execute w id jobs loadData execute hpc =>
    obtain ⟨_, _, r, hr, hs⟩ := (L.duty q).todo id (by rw [hq, hpc]; exact List.mem_cons_self ..)
    exact S.execute hr hs _
  | finish w id ret jobs reply hpc =>
    obtain ⟨_, _, hm⟩ := (L.duty q).finishing id ret (by rw [hq, hpc]; rfl)
    split
    · rename_i hne
      refine S.key (get?_setComplete sh.table id) ?_ reply
      intro r
      exact ⟨fun _ => ⟨ret, hne, hm⟩, fun h => by contradiction⟩
    · rename_i hne
      refine S.key (get?_setError sh.table id) ?_ reply
      intro r
      refine ⟨fun h => by contradiction, ?_⟩
      intro _ ret' hm'
      rw [← L.run_unique hm hm']
      exact not_not.mp hne

section Steps

variable [DecidableEq ι]

/-- Every step of the system keeps the stored results justified. -/
theorem Settled.step {cfg : ι → Config} {s t : System ι} {e : Event ι}
    (S : Settled s.shared) (L : Ledger s.shared s.pc) (h : step cfg s e = some t) :
    Settled t.shared := by
  cases step_cases h with
  | insert id name data hid =>
    intro i r hr
    rcases get?_insert_cases hid hr with hr | ⟨_, rfl⟩
    · exact S i r hr
    · exact justified_of_ne Status.noConfusion Status.noConfusion
  | send _ hsh hpc => rw [hsh]; exact S
  | thread q a sh wq hstep => exact S.threadStep L rfl hstep

/-- At-most-once execution: over any run that starts with clients' rows, with any
interleaving and any failing statements, a row's job is executed at most once; a
complete row was executed exactly once and returned non-zero, and no execution of an
error row returned non-zero. -/
theorem executed_at_most_once {cfg : ι → Config} {s t : System ι} {es : List (Event ι)}
    (hs : Fresh s) (hrun : exec (step cfg) s es = some t) (id : JobId) :
    (t.shared.executions id).length ≤ 1 ∧
      (∀ r, t.row id = some r → r.status = .complete →
        ∃ ret, ret ≠ 0 ∧ t.shared.executions id = [ret]) ∧
      (∀ r, t.row id = some r → r.status = .error →
        ∀ ret ∈ t.shared.executions id, ret = 0) := by
  have hstart : Settled s.shared := by
    intro i r hr
    rw [(hs.rows i r hr).1]
    exact justified_of_ne Status.noConfusion Status.noConfusion
  obtain ⟨L, S⟩ := exec_invariant (P := fun s => Ledger s.shared s.pc ∧ Settled s.shared)
    (fun _ _ _ h hstep => ⟨h.1.step hstep, h.2.step h.1 hstep⟩) ⟨hs.boot.ledger, hstart⟩ hrun
  have hlen := Shared.length_executions_le L.once id
  refine ⟨hlen, ?_, ?_⟩
  · intro r hr hst
    obtain ⟨ret, hne, hm⟩ := (S id r hr).1 hst
    have hmem := Shared.mem_executions.mpr hm
    have hone : (t.shared.executions id).length = 1 :=
      le_antisymm hlen (List.length_pos_of_mem hmem)
    obtain ⟨x, hx⟩ := List.length_eq_one_iff.mp hone
    rw [hx, List.mem_singleton] at hmem
    exact ⟨ret, hne, by rw [hx, hmem]⟩
  · intro r hr hst ret hret
    exact (S id r hr).2 hst ret (Shared.mem_executions.mp hret)

/-- The race runs to its end although a statement is lost: the row is complete with its
one execution. -/
theorem executed_at_most_once_race :
    ∃ t, exec (step fun _ => Config.runOnly) System.initial (raceEvents ++
        [.thread true (.update (.failed false)), .thread true .done,
          .thread true (.execute true 5), .thread true (.update .ok)]) = some t ∧
      (t.row 1).map JobRow.status = some .complete ∧
      (t.shared.executions 1).length ≤ 1 ∧ ∃ ret, ret ≠ 0 ∧ t.shared.executions 1 = [ret] := by
  have hrun : (exec (step fun _ => Config.runOnly) System.initial (raceEvents ++
      [.thread true (.update (.failed false)), .thread true .done,
        .thread true (.execute true 5), .thread true (.update .ok)])).map
      (fun t => (t.row 1).map JobRow.status) = some (some .complete) := by decide
  obtain ⟨t, ht, hstatus⟩ := Option.map_eq_some_iff.mp hrun
  obtain ⟨r, hr, hc⟩ := Option.map_eq_some_iff.mp hstatus
  obtain ⟨hle, hcomplete, _⟩ := executed_at_most_once fresh_initial ht 1
  exact ⟨t, ht, hstatus, hle, hcomplete r hr hc⟩

end Steps

end Workq.Worker
