import Mathlib.Logic.Relation
import Workq.Worker.AtMostOnce

/-!
# The history of a row

A row of the jobs table is never deleted and keeps its name and its data. Its status goes
from `pending` over `loading` and `processing` to `complete` or `error`, by the statements of
the queue that claimed it, and never back to `pending`. One edge leads out of `error`: a row
whose creator failed is set to `error` and then to `processing`. A stored result of an
execution is final.
-/

namespace Workq.Worker

open Workq.Core Workq.Jobs

variable {ι : Type*}

/-- One change of a row by a statement of a queue. -/
inductive Change (r : JobRow) : JobRow → Prop
  /-- The claiming `UPDATE`. -/
  | claim (lock : List Char) (hs : r.status = .pending) :
      Change r { r with lockedQueueId := some lock, status := .loading }
  /-- The compensating `UPDATE` after a failed `SELECT`. -/
  | release (hs : r.status = .loading) : Change r { r with lockedQueueId := some [] }
  /-- The `UPDATE` to `processing`. -/
  | mark (hs : Status.Running r.status ∨ r.status = .error) :
      Change r { r with status := .processing }
  /-- The `UPDATE` to `error` of a row that no job was made for, or after an execution. -/
  | fail (hs : Status.Running r.status) :
      Change r { r with status := .error, lockedQueueId := some [] }
  /-- The `UPDATE` to `complete`. -/
  | complete (hs : Status.Running r.status) :
      Change r { r with status := .complete, lockedQueueId := some [] }

/-- The next statuses of a row, in the order of a successful call. -/
inductive Status.Next : Status → Status → Prop
  | claim : Next .pending .loading
  | mark {st : Status} (hs : Status.Running st) : Next st .processing
  | fail {st : Status} (hs : Status.Running st) : Next st .error
  | complete {st : Status} (hs : Status.Running st) : Next st .complete
  /-- The row whose creator failed. -/
  | misplace : Next .error .processing

section Rows

variable {r r' : JobRow}

/-- No change touches the name or the data. -/
theorem Change.keeps (h : Change r r') : r'.name = r.name ∧ r'.data = r.data := by
  cases h <;> exact ⟨rfl, rfl⟩

/-- A change moves the status along the order, or leaves it alone. -/
theorem Change.status (h : Change r r') :
    Relation.ReflTransGen Status.Next r.status r'.status := by
  cases h with
  | claim lock hs =>
    rw [hs]
    exact .single .claim
  | release hs => exact .refl
  | mark hs =>
    rcases hs with hs | hs
    · exact .single (.mark hs)
    · rw [hs]
      exact .single .misplace
  | fail hs => exact .single (.fail hs)
  | complete hs => exact .single (.complete hs)

/-- Only a row that is pending, on its way or an error changes. -/
theorem Change.source (h : Change r r') :
    r.status = .pending ∨ Status.Running r.status ∨ r.status = .error := by
  cases h with
  | claim lock hs => exact Or.inl hs
  | release hs => exact Or.inr (Or.inl (Or.inl hs))
  | mark hs => exact Or.inr hs
  | fail hs | complete hs => exact Or.inr (Or.inl hs)

/-- Nothing leads back to `pending`. -/
theorem Status.Next.ne_pending {st st' : Status} (h : Relation.ReflTransGen Status.Next st st')
    (hs : st ≠ .pending) : st' ≠ .pending := by
  induction h with
  | refl => exact hs
  | tail _ hnext _ => cases hnext <;> exact Status.noConfusion

end Rows

/-- The row that the thread's next statement names is where that statement expects it. -/
def Placed (sh : Shared ι) : Pc → Prop
  | .discard _ id _ _ _ | .finish _ id _ _ =>
    ∃ r, sh.table.get? id = some r ∧ Status.Running r.status
  | .mark _ id _ _ =>
    ∃ r, sh.table.get? id = some r ∧ (Status.Running r.status ∨ r.status = .error)
  | _ => True

/-- At a start no statement names a row. -/
theorem Boot.placed {s : System ι} (hs : Boot s) (q : ι) : Placed s.shared (s.pc q) := by
  rcases hs.idle q with hq | ⟨w, hq⟩ <;> rw [hq] <;> trivial

/-- The row named by the thread's next statement. -/
def Pc.target : Pc → Option JobId
  | .discard _ id _ _ _ | .mark _ id _ _ | .finish _ id _ _ => some id
  | _ => none

section Places

variable {sh sh' : Shared ι} {pc : ι → Pc} {q : ι} {p : Pc}

/-- A thread names only rows of its own queue. -/
theorem Ledger.owns_target (L : Ledger sh pc) {id : JobId} (h : (pc q).target = some id) :
    sh.Owns q id := by
  cases hp : pc q with
  | discard c i known rest jobs | mark c i rest jobs =>
    rw [hp] at h
    obtain rfl := Option.some.inj h
    exact ((L.duty q).current i (by rw [hp]; rfl)).1
  | finish w i ret jobs =>
    rw [hp] at h
    obtain rfl := Option.some.inj h
    exact ((L.duty q).finishing i ret (by rw [hp]; rfl)).1
  | head | timedPop | tryPop | findJobs | select | release | rows | batch | exited =>
    rw [hp] at h
    contradiction

/-- What a place needs is the row that it names. -/
theorem Placed.congr (h : Placed sh p)
    (hrow : ∀ id, p.target = some id → sh'.table.get? id = sh.table.get? id) :
    Placed sh' p := by
  cases p with
  | discard c id known rest jobs | mark c id rest jobs | finish w id ret jobs =>
    simp only [Placed, hrow id rfl]
    exact h
  | head | timedPop | tryPop | findJobs | select | release | rows | batch | exited => trivial

/-- The branch for a fetched row finds it on its way. -/
theorem placed_rowPc {cfg : Config} {c : Call} {row : Fetched} {rest : List Fetched}
    {jobs : List JobId} (made : Bool)
    (h : ∃ r, sh.table.get? row.id = some r ∧ Status.Running r.status) :
    Placed sh (rowPc cfg c row rest jobs made) := by
  have hmark : ∃ r, sh.table.get? row.id = some r ∧
      (Status.Running r.status ∨ r.status = .error) := by
    obtain ⟨r, hr, hs⟩ := h
    exact ⟨r, hr, Or.inl hs⟩
  unfold rowPc
  split
  · split
    · exact hmark
    · split
      · exact h
      · exact hmark
  · split
    · exact h
    · trivial

/-- A step of the thread leaves the row of its next statement in place. -/
theorem Ledger.placed_own {cfg : Config} {wq wq' : WorkQueue} {a : Action} (L : Ledger sh pc)
    (hq : pc q = wq.pc) (P : Placed sh wq.pc) (h : ThreadStep cfg q sh wq a sh' wq') :
    Placed sh' wq'.pc := by
  cases h with
  | check hpc =>
    dsimp only
    split <;> trivial
  | popFirst m ms hpc hm | popNext w m ms hpc hm => cases m <;> trivial
  | popNone w hpc hm =>
    dsimp only
    split <;> trivial
  | claim w stamp reply hpc hfresh =>
    dsimp only
    split <;> trivial
  | create c row rest jobs made hpc =>
    refine placed_rowPc made ?_
    have htodo : row.id ∈ (pc q).todo := by
      rw [hq, hpc]
      exact List.mem_cons_self ..
    exact ((L.duty q).todo row.id htodo).2.2
  | discard c id known rest jobs reply hpc =>
    rw [hpc] at P
    obtain ⟨r, hr, hs⟩ := P
    cases known with
    | false => trivial
    | true =>
      refine reply.apply_of (P := fun T => ∃ r, T.get? id = some r ∧
        (Status.Running r.status ∨ r.status = .error)) ⟨r, hr, Or.inl hs⟩ ?_
      exact ⟨_, by rw [get?_setError, if_pos rfl, hr, Option.map_some], Or.inr rfl⟩
  | execute w id jobs loadData execute hpc =>
    have htodo : id ∈ (pc q).todo := by
      rw [hq, hpc]
      exact List.mem_cons_self ..
    exact ((L.duty q).todo id htodo).2.2
  | timeout | fetchOk | fetchNoResult | fetchFailed | release | returnJobs | mark | finish
  | batchEnd => trivial

end Places

/-- What a step may do to a row: nothing, or one change, which leaves a stored result of an
execution alone. -/
def Advances (sh : Shared ι) (id : JobId) (r r' : JobRow) : Prop :=
  r' = r ∨ (Change r r' ∧ (r.status = .error → id ∉ sh.runIds))

/-- A statement advances a row if it does when it takes effect. -/
theorem advances_reply {sh : Shared ι} {id : JobId} {r : JobRow} {T : JobsTable}
    (hr : sh.table.get? id = some r)
    (h : ∃ r', T.get? id = some r' ∧ Advances sh id r r') (reply : Reply) :
    ∃ r', (reply.apply sh.table T).get? id = some r' ∧ Advances sh id r r' :=
  reply.apply_of (P := fun T => ∃ r', T.get? id = some r' ∧ Advances sh id r r')
    ⟨r, hr, Or.inl rfl⟩ h

/-- A statement with `WHERE id=%d` changes that row and no other. -/
theorem advances_key {sh : Shared ι} {id i : JobId} {r : JobRow} {T : JobsTable}
    (f : JobRow → JobRow)
    (hT : ∀ j, T.get? j = if j = i then (sh.table.get? j).map f else sh.table.get? j)
    (hr : sh.table.get? id = some r) (h : id = i → Advances sh id r (f r)) (reply : Reply) :
    ∃ r', (reply.apply sh.table T).get? id = some r' ∧ Advances sh id r r' := by
  refine advances_reply hr ?_ reply
  by_cases hi : id = i
  · exact ⟨f r, by rw [hT, if_pos hi, hr, Option.map_some], h hi⟩
  · exact ⟨r, by rw [hT, if_neg hi, hr], Or.inl rfl⟩

/-- Every step of a thread advances every row. -/
theorem Ledger.advances_threadStep {c : Config} {q : ι} {sh sh' : Shared ι} {pc : ι → Pc}
    {wq wq' : WorkQueue} {a : Action} (L : Ledger sh pc) (hq : pc q = wq.pc)
    (P : Placed sh wq.pc) (h : ThreadStep c q sh wq a sh' wq') {id : JobId} {r : JobRow}
    (hr : sh.table.get? id = some r) :
    ∃ r', sh'.table.get? id = some r' ∧ Advances sh id r r' := by
  -- the row named by a statement is the one that `Placed` speaks of
  have hplaced : ∀ {i : JobId} {Q : Status → Prop}, id = i →
      (∃ r, sh.table.get? i = some r ∧ Q r.status) → Q r.status := by
    rintro i Q rfl ⟨r₀, hr₀, hQ⟩
    exact (Option.some.inj (hr₀.symm.trans hr)) ▸ hQ
  have hrunning : Status.Running r.status → r.status = .error → id ∉ sh.runIds := by
    intro hs he
    rw [he] at hs
    exact absurd hs Status.not_running_error
  cases h with
  | claim w stamp reply hpc hfresh =>
    refine advances_reply hr ?_ reply
    rw [get?_claim, hr]
    split
    · rename_i hid
      obtain ⟨r₀, hr₀, hs, _⟩ := mem_claimIds hid
      obtain rfl := Option.some.inj (hr₀.symm.trans hr)
      exact ⟨_, rfl, Or.inr ⟨.claim _ hs, fun he => by rw [hs] at he; contradiction⟩⟩
    · exact ⟨r, rfl, Or.inl rfl⟩
  | release call reply hpc =>
    refine advances_reply hr ?_ reply
    rw [get?_release, hr, Option.map_some]
    split
    · rename_i hlocked
      obtain ⟨cl, _, _, ho⟩ := (L.duty q).opened call (by rw [hq, hpc]; rfl)
      have hmarked := (ho.exact id r hr).mp hlocked.2
      have hloading : r.status = .loading :=
        hplaced (Q := fun st => st = .loading) rfl (ho.loading id hmarked)
      exact ⟨_, rfl, Or.inr ⟨.release hloading, hrunning (Or.inl hloading)⟩⟩
    · exact ⟨r, rfl, Or.inl rfl⟩
  | discard call i known rest jobs reply hpc =>
    rw [hpc] at P
    refine advances_key _ (get?_setError sh.table i) hr ?_ reply
    intro hi
    have hs : Status.Running r.status := hplaced hi P
    exact Or.inr ⟨.fail hs, hrunning hs⟩
  | mark call i rest jobs reply hpc =>
    rw [hpc] at P
    refine advances_key _ (get?_setProcessing sh.table i) hr ?_ reply
    intro hi
    obtain ⟨_, hrun⟩ := (L.duty q).current i (by rw [hq, hpc]; rfl)
    have hs : Status.Running r.status ∨ r.status = .error :=
      hplaced (Q := fun st => Status.Running st ∨ st = .error) hi P
    exact Or.inr ⟨.mark hs, fun _ => hi ▸ hrun⟩
  | finish w i ret jobs reply hpc =>
    rw [hpc] at P
    split
    · refine advances_key _ (get?_setComplete sh.table i) hr ?_ reply
      intro hi
      have hs : Status.Running r.status := hplaced hi P
      exact Or.inr ⟨.complete hs, hrunning hs⟩
    · refine advances_key _ (get?_setError sh.table i) hr ?_ reply
      intro hi
      have hs : Status.Running r.status := hplaced hi P
      exact Or.inr ⟨.fail hs, hrunning hs⟩
  | check | timeout | popFirst | popNext | popNone | fetchOk | fetchNoResult | fetchFailed
  | create | returnJobs | execute | batchEnd => exact ⟨r, hr, Or.inl rfl⟩

/-- The result of an execution is stored, or the row is complete. -/
def Stored (sh : Shared ι) (id : JobId) (r : JobRow) : Prop :=
  r.status = .complete ∨ (r.status = .error ∧ id ∈ sh.runIds)

theorem Stored.eq_of_advances {sh : Shared ι} {id : JobId} {r r' : JobRow} (h : Stored sh id r)
    (ha : Advances sh id r r') : r' = r := by
  rcases ha with rfl | ⟨hchange, hran⟩
  · rfl
  · rcases h with hs | ⟨hs, hid⟩
    · rcases hchange.source with hp | hp | hp
      · rw [hs] at hp; contradiction
      · rw [hs] at hp; exact absurd hp Status.not_running_complete
      · rw [hs] at hp; contradiction
    · exact absurd hid (hran hs)

section Steps

variable [DecidableEq ι] {cfg : ι → Config} {s t : System ι} {e : Event ι}

/-- Every thread's next statement finds its row in place, along every run. -/
theorem Ledger.placed_step (L : Ledger s.shared s.pc) (P : ∀ q, Placed s.shared (s.pc q))
    (h : Worker.step cfg s e = some t) (q : ι) : Placed t.shared (t.pc q) := by
  by_cases he : e.actor = some q
  · cases e with
    | thread q' a =>
      obtain rfl := Option.some.inj he
      obtain ⟨sh, wq, hstep, rfl⟩ := step_thread h
      rw [System.pc_update, Function.update_self]
      exact L.placed_own rfl (P q') hstep
    | insert | sendWork | sendStop | clearActive => contradiction
  · rw [pc_foreign_step h he]
    refine (P q).congr ?_
    intro id hid
    exact (L.foreign_step h he (L.owns_target hid)).1

/-- Every step of the system advances every row. -/
theorem Ledger.advances_step (L : Ledger s.shared s.pc) (P : ∀ q, Placed s.shared (s.pc q))
    (h : Worker.step cfg s e = some t) {id : JobId} {r : JobRow} (hr : s.row id = some r) :
    ∃ r', t.row id = some r' ∧ Advances s.shared id r r' := by
  cases step_cases h with
  | insert i name data hi => exact ⟨r, get?_insert_of_some hi hr, Or.inl rfl⟩
  | send _ hsh hpc =>
    rw [System.row, hsh]
    exact ⟨r, hr, Or.inl rfl⟩
  | thread q a sh wq hstep => exact L.advances_threadStep rfl (P q) hstep hr

/-- Executions are not forgotten. -/
theorem mem_runIds_step (h : step cfg s e = some t) {id : JobId} (hid : id ∈ s.shared.runIds) :
    id ∈ t.shared.runIds := by
  cases step_cases h with
  | insert => exact hid
  | send _ hsh _ =>
    rw [hsh]
    exact hid
  | thread q a sh wq hstep =>
    cases hstep with
    | execute => exact List.mem_cons_of_mem _ hid
    | _ => exact hid

/-- What a run makes of a row. -/
structure Kept (sh : Shared ι) (id : JobId) (r r' : JobRow) : Prop where
  name : r'.name = r.name
  data : r'.data = r.data
  status : Relation.ReflTransGen Status.Next r.status r'.status
  result : Stored sh id r → r' = r

/-- Along a run every row is kept. -/
theorem Ledger.kept_exec {es : List (Event ι)} (L : Ledger s.shared s.pc)
    (P : ∀ q, Placed s.shared (s.pc q)) (hrun : Core.exec (Worker.step cfg) s es = some t)
    {id : JobId} {r : JobRow} (hr : s.row id = some r) :
    ∃ r', t.row id = some r' ∧ Kept s.shared id r r' := by
  induction es generalizing s r with
  | nil =>
    obtain rfl := Option.some.inj hrun
    exact ⟨r, hr, rfl, rfl, .refl, fun _ => rfl⟩
  | cons e es ih =>
    obtain ⟨u, hu, ht⟩ := exec_cons_eq_some.mp hrun
    obtain ⟨r₁, hr₁, hadv⟩ := L.advances_step P hu hr
    obtain ⟨r', hr', K⟩ := ih (L.step hu) (L.placed_step P hu) ht hr₁
    refine ⟨r', hr', ?_, ?_, ?_, ?_⟩
    · rcases hadv with rfl | ⟨hchange, _⟩
      · exact K.name
      · exact K.name.trans hchange.keeps.1
    · rcases hadv with rfl | ⟨hchange, _⟩
      · exact K.data
      · exact K.data.trans hchange.keeps.2
    · rcases hadv with rfl | ⟨hchange, _⟩
      · exact K.status
      · exact hchange.status.trans K.status
    · intro hstored
      have hsame := hstored.eq_of_advances hadv
      rw [hsame] at K
      refine K.result ?_
      rcases hstored with hs | ⟨hs, hid⟩
      · exact Or.inl hs
      · exact Or.inr ⟨hs, mem_runIds_step hu hid⟩

/-- The history of a row, with any interleaving and any failing statements: from any state
that a start reaches, a row stays in the table under its id with its name and its data, its
status moves along its order and never back to `pending`, and a row that is complete, or is
an error after an execution, is not changed at all any more. -/
theorem row_history {s₀ : System ι} {es₀ es : List (Event ι)} (hboot : Boot s₀)
    (hreach : exec (step cfg) s₀ es₀ = some s) (hrun : exec (step cfg) s es = some t)
    {id : JobId} {r : JobRow} (hr : s.row id = some r) :
    ∃ r', t.row id = some r' ∧ r'.name = r.name ∧ r'.data = r.data ∧
      Relation.ReflTransGen Status.Next r.status r'.status ∧
      (r.status ≠ .pending → r'.status ≠ .pending) ∧
      (r.status = .complete ∨ (r.status = .error ∧ id ∈ s.shared.runIds) → r' = r) := by
  obtain ⟨L, P⟩ := exec_invariant
    (P := fun s : System ι => Ledger s.shared s.pc ∧ ∀ q, Placed s.shared (s.pc q))
    (fun _ _ _ h hstep => ⟨h.1.step hstep, h.1.placed_step h.2 hstep⟩)
    ⟨hboot.ledger, hboot.placed⟩ hreach
  obtain ⟨r', hr', K⟩ := L.kept_exec P hrun hr
  exact ⟨r', hr', K.name, K.data, K.status, Status.Next.ne_pending K.status, K.result⟩

/-- The raced row goes from `loading` to `complete`, although the `UPDATE` to `processing` is
lost. -/
theorem row_history_race :
    ∃ s t r r', exec (step fun _ => Config.runOnly) System.initial raceEvents = some s ∧
      exec (step fun _ => Config.runOnly) s
        [.thread true (.update (.failed false)), .thread true .done,
          .thread true (.execute true 5), .thread true (.update .ok)] = some t ∧
      s.row 1 = some r ∧ t.row 1 = some r' ∧ r'.status = .complete ∧
      r'.name = r.name ∧ Relation.ReflTransGen Status.Next r.status r'.status := by
  have hreach : ((exec (step fun _ => Config.runOnly) System.initial raceEvents).bind
      fun s => s.row 1).isSome := by decide
  obtain ⟨r, hr⟩ := Option.isSome_iff_exists.mp hreach
  obtain ⟨s, hs, hr⟩ := Option.bind_eq_some_iff.mp hr
  have hrun : (exec (step fun _ => Config.runOnly) System.initial (raceEvents ++
      [.thread true (.update (.failed false)), .thread true .done,
        .thread true (.execute true 5), .thread true (.update .ok)])).map
      (fun t => (t.row 1).map JobRow.status) = some (some .complete) := by decide
  obtain ⟨t, ht, hstatus⟩ := Option.map_eq_some_iff.mp hrun
  obtain ⟨s', hs', ht⟩ := exec_append.mp ht
  obtain rfl := Option.some.inj (hs.symm.trans hs')
  obtain ⟨r', hr', hname, _, hpath, _⟩ := row_history fresh_initial.boot hs ht hr
  rw [hr', Option.map_some] at hstatus
  exact ⟨s, t, r, r', hs, ht, hr, hr', Option.some.inj hstatus, hname, hpath⟩

end Steps

end Workq.Worker
