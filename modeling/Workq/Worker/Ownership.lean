import Workq.Worker.Ledger

/-!
# The ledger holds in every run

Each kind of step is one of four: it moves a thread without touching the database, it
writes rows of its own queue, it executes a job, or it claims. The step lemma sorts
the listed thread steps into these, and the run lemma follows for every interleaving
from any table whose locks were issued before.
-/

namespace Workq.Worker

open Workq.Core Workq.Jobs

variable {ι : Type*}

/-- A start: an arbitrary table, threads at the head of their loop or about to call
`find_jobs`, no claim traced yet beyond the lock ids that rows may already carry. -/
structure Boot (s : System ι) : Prop where
  idle : ∀ q, s.pc q = .head ∨ ∃ w, s.pc q = .findJobs w
  locks : s.shared.locks.Nodup
  unmarked : ∀ c ∈ s.shared.claims, c.marked = []
  locked : ∀ id r l, s.row id = some r → r.lockedQueueId = some l → l ≠ [] →
    l ∈ s.shared.locks
  runs : s.shared.runs = []

/-- The ledger of a start. -/
theorem Boot.ledger {s : System ι} (h : Boot s) : Ledger s.shared s.pc := by
  have hruns : s.shared.runIds = [] := by rw [Shared.runIds, h.runs, List.map_nil]
  constructor
  case apart =>
    have hl := h.locks
    rw [Shared.locks, List.Nodup, List.pairwise_map] at hl
    refine hl.imp_of_mem ?_
    intro a b ha _ hab
    refine ⟨hab, ?_⟩
    intro i hi
    rw [h.unmarked a ha] at hi
    contradiction
  case marked =>
    intro c hc i hi
    rw [h.unmarked c hc] at hi
    contradiction
  case locked => exact h.locked
  case ran => intro i hi; rw [hruns] at hi; contradiction
  case once => rw [hruns]; exact List.nodup_nil
  case duty =>
    intro q
    rcases h.idle q with hq | ⟨w, hq⟩ <;> rw [hq] <;> exact Duty.idle rfl rfl rfl rfl

/-- A start in which every row is a client's: pending and unlocked, with nothing traced. -/
structure Fresh (s : System ι) : Prop where
  idle : ∀ q, s.pc q = .head ∨ ∃ w, s.pc q = .findJobs w
  claims : s.shared.claims = []
  runs : s.shared.runs = []
  rows : ∀ id r, s.row id = some r → r.status = .pending ∧ r.lockedQueueId = some []

theorem Fresh.boot {s : System ι} (h : Fresh s) : Boot s where
  idle := h.idle
  locks := by rw [Shared.locks, h.claims]; exact List.nodup_nil
  unmarked c hc := by rw [h.claims] at hc; contradiction
  locked id r l hr hl hne := by
    rw [(h.rows id r hr).2] at hl
    exact absurd (Option.some.inj hl).symm hne
  runs := h.runs

/-- The system before its first event: an empty table and newly started queues. -/
def System.initial : System ι := ⟨⟨Table.empty, [], []⟩, fun _ => WorkQueue.new⟩

theorem fresh_initial : Fresh (System.initial : System ι) where
  idle _ := Or.inl rfl
  claims := rfl
  runs := rfl
  rows id r hr := by
    rw [System.row, System.initial, Table.get?_empty] at hr
    contradiction

/-- Every thread about to call `find_jobs` with the same workload, over a given table. -/
def System.calling (T : JobsTable) (w : Nat) : System ι :=
  ⟨⟨T, [], []⟩, fun _ => { WorkQueue.new with pc := .findJobs w }⟩

theorem fresh_calling {T : JobsTable} (w : Nat)
    (hT : ∀ r ∈ T.rows, r.2.status = .pending ∧ r.2.lockedQueueId = some []) :
    Fresh (System.calling T w : System ι) where
  idle _ := Or.inr ⟨w, rfl⟩
  claims := rfl
  runs := rfl
  rows id r hr := hT (id, r) (Table.get?_eq_some.mp hr)

/-- A process that knows the one job type `run` and discards the others. -/
def Config.runOnly : Config := ⟨fun name => name = "run".toList, true⟩

/-- Two queues are woken for one row. The second to claim gets nothing, and the first is
about to mark the row `processing`. -/
def raceEvents : List (Event Bool) :=
  [.insert 1 "run".toList none, .sendWork false, .sendWork true,
    .thread false .check, .thread true .check, .thread false .pop, .thread true .pop,
    .thread false .pop, .thread true .pop, .thread true (.claim ⟨2, 0, 0, 0⟩ .ok),
    .thread false (.claim ⟨1, 0, 0, 0⟩ .ok), .thread true (.fetch .ok),
    .thread false (.fetch .ok), .thread true (.create true), .thread false .done]

section Writes

variable {sh : Shared ι} {pc : ι → Pc} {q : ι}

/-- A statement that may have had no effect is still a write to own rows. -/
theorem OwnWrite.reply {T : JobsTable} (h : OwnWrite sh q T) (reply : Reply) :
    OwnWrite sh q (reply.apply sh.table T) :=
  reply.apply_of (P := OwnWrite sh q) (OwnWrite.refl sh q) h

/-- A statement with `WHERE id=%d` for an owned row. -/
theorem OwnWrite.key {T : JobsTable} {id : JobId} (hown : sh.Owns q id) (f : JobRow → JobRow)
    (hT : ∀ i, T.get? i = if i = id then (sh.table.get? i).map f else sh.table.get? i)
    (hs : ∀ r, (f r).status ≠ .pending)
    (hl : ∀ r, (f r).lockedQueueId = r.lockedQueueId ∨ (f r).lockedQueueId = some []) :
    OwnWrite sh q T where
  frame i hi := by
    rw [hT, if_neg]
    rintro rfl
    exact hi hown
  keep i r _ hr hp := by
    by_cases hi : i = id
    · exact ⟨f r, by rw [hT, if_pos hi, hr, Option.map_some], hs r, hl r⟩
    · exact ⟨r, by rw [hT, if_neg hi, hr], hp, Or.inl rfl⟩

theorem OwnWrite.setError {id : JobId} (hown : sh.Owns q id) :
    OwnWrite sh q (setError sh.table id) :=
  OwnWrite.key hown _ (get?_setError sh.table id) (fun _ => Status.noConfusion)
    (fun _ => Or.inr rfl)

theorem OwnWrite.setComplete {id : JobId} (hown : sh.Owns q id) :
    OwnWrite sh q (setComplete sh.table id) :=
  OwnWrite.key hown _ (get?_setComplete sh.table id) (fun _ => Status.noConfusion)
    (fun _ => Or.inr rfl)

theorem OwnWrite.setProcessing {id : JobId} (hown : sh.Owns q id) :
    OwnWrite sh q (setProcessing sh.table id) :=
  OwnWrite.key hown _ (get?_setProcessing sh.table id) (fun _ => Status.noConfusion)
    (fun _ => Or.inl rfl)

/-- The statement after an execution. -/
theorem OwnWrite.finish {id : JobId} (hown : sh.Owns q id) (ret : Int) : OwnWrite sh q
    (if ret ≠ 0 then Jobs.setComplete sh.table id else Jobs.setError sh.table id) := by
  split
  · exact OwnWrite.setComplete hown
  · exact OwnWrite.setError hown

/-- The compensating release touches only rows of the claim it compensates. -/
theorem Ledger.ownWrite_release (L : Ledger sh pc) {c : Call} (hpc : pc q = .release c) :
    OwnWrite sh q (release sh.table c.lock) := by
  obtain ⟨cl, hcl, hclq, ho⟩ := (L.duty q).opened c (by rw [hpc]; rfl)
  constructor
  · intro i hi
    rw [get?_release]
    cases hr : sh.table.get? i with
    | none => rfl
    | some r =>
      rw [Option.map_some, if_neg]
      rintro ⟨_, hl⟩
      exact hi ⟨cl, hcl, hclq, (ho.exact i r hr).mp hl⟩
  · intro i r _ hr hp
    rw [get?_release, hr, Option.map_some]
    refine ⟨_, rfl, ?_⟩
    split
    · exact ⟨hp, Or.inr rfl⟩
    · exact ⟨hp, Or.inl rfl⟩

/-- Apart from a claim, a thread writes only rows that its queue owns. -/
theorem Ledger.ownWrite {cfg : Config} {sh' : Shared ι} {wq wq' : WorkQueue} {a : Action}
    (L : Ledger sh pc) (hq : pc q = wq.pc) (h : ThreadStep cfg q sh wq a sh' wq') :
    (∃ w stamp reply, sh' = sh.claim q (lockid stamp) w reply) ∨
      (OwnWrite sh q sh'.table ∧ sh'.claims = sh.claims) := by
  cases h with
  | check | timeout | popFirst | popNext | popNone | fetchOk | fetchNoResult | fetchFailed
  | create | returnJobs | execute | batchEnd => exact Or.inr ⟨OwnWrite.refl sh q, rfl⟩
  | claim w stamp reply hpc hfresh => exact Or.inl ⟨w, stamp, reply, rfl⟩
  | release c reply hpc =>
    exact Or.inr ⟨(L.ownWrite_release (hq.trans hpc)).reply reply, rfl⟩
  | discard c id known rest jobs reply hpc =>
    obtain ⟨hown, _⟩ := (L.duty q).current id (by rw [hq, hpc]; rfl)
    exact Or.inr ⟨(OwnWrite.setError hown).reply reply, rfl⟩
  | mark c id rest jobs reply hpc =>
    obtain ⟨hown, _⟩ := (L.duty q).current id (by rw [hq, hpc]; rfl)
    exact Or.inr ⟨(OwnWrite.setProcessing hown).reply reply, rfl⟩
  | finish w id ret jobs reply hpc =>
    obtain ⟨hown, _⟩ := (L.duty q).finishing id ret (by rw [hq, hpc]; rfl)
    exact Or.inr ⟨(OwnWrite.finish hown ret).reply reply, rfl⟩

/-- A write to one row leaves the duty for the rest of the list. -/
theorem Ledger.duty_after (L : Ledger sh pc) {T : JobsTable} {p : Pc} (id : JobId)
    (hT : ∀ i, i ≠ id → T.get? i = sh.table.get? i)
    (hid : id ∈ p.todo → ∃ r, T.get? id = some r ∧ Status.Running r.status)
    (htodo : p.todo = (pc q).todo)
    (hcur : ∀ i, p.current = some i → sh.Owns q i ∧ i ∉ sh.runIds)
    (hdis : p.discarding = none) (hfin : p.finishing = none) (hop : p.opened = none) :
    Duty { sh with table := T } q p := by
  refine Duty.working (htodo ▸ (L.duty q).nodup) ?_ hcur ?_ hfin hop
  · intro i hi
    obtain ⟨hown, hrun, r, hr, hs⟩ := (L.duty q).todo i (htodo ▸ hi)
    refine ⟨hown, hrun, ?_⟩
    by_cases he : i = id
    · subst he
      exact hid hi
    · exact ⟨r, (hT i he).trans hr, hs⟩
  · intro i hi
    rw [hdis] at hi
    contradiction

/-- The same for a statement that may have had no effect. -/
theorem Ledger.duty_after_reply (L : Ledger sh pc) {T : JobsTable} {p : Pc} (id : JobId)
    (reply : Reply) (hT : ∀ i, i ≠ id → T.get? i = sh.table.get? i)
    (hid : id ∈ p.todo → ∃ r, T.get? id = some r ∧ Status.Running r.status)
    (htodo : p.todo = (pc q).todo)
    (hcur : ∀ i, p.current = some i → sh.Owns q i ∧ i ∉ sh.runIds)
    (hdis : p.discarding = none) (hfin : p.finishing = none) (hop : p.opened = none) :
    Duty { sh with table := reply.apply sh.table T } q p := by
  have hbefore : id ∈ p.todo → ∃ r, sh.table.get? id = some r ∧ Status.Running r.status := by
    intro hi
    exact ((L.duty q).todo id (htodo ▸ hi)).2.2
  exact reply.apply_of (P := fun T => Duty { sh with table := T } q p)
    (L.duty_after id (fun _ _ => rfl) hbefore htodo hcur hdis hfin hop)
    (L.duty_after id hT hid htodo hcur hdis hfin hop)

/-- The fetched rows are the thread's to work on. -/
theorem Ledger.duty_fetch (L : Ledger sh pc) {c : Call} (hpc : pc q = .select c) :
    Duty sh q (.rows c (fetch sh.table c.lock c.workload) []) := by
  obtain ⟨cl, hcl, hclq, ho⟩ := (L.duty q).opened c (by rw [hpc]; rfl)
  have htodo : (Pc.rows c (fetch sh.table c.lock c.workload) []).todo =
      sh.table.keysOf (lockedBy c.lock) (some c.workload) := by
    rw [Pc.todo, List.append_nil, fetch_ids]
  refine Duty.working ?_ ?_ ?_ ?_ rfl rfl
  · rw [htodo]
    exact sh.table.keysOf_nodup _ _
  · intro id hid
    rw [htodo] at hid
    obtain ⟨r, hr, hp⟩ := Table.mem_keysOf hid
    obtain ⟨hs, hl⟩ := of_decide_eq_true hp
    have hm := (ho.exact id r hr).mp hl
    exact ⟨⟨cl, hcl, hclq, hm⟩, ho.fresh id hm, r, hr, Or.inl hs⟩
  · intro id hid
    contradiction
  · intro id hid
    contradiction

/-- The branch taken for a fetched row meets the thread's duty. -/
theorem Ledger.duty_row (L : Ledger sh pc) {cfg : Config} {c : Call} {row : Fetched}
    {rest : List Fetched} {jobs : List JobId} (hpc : pc q = .rows c (row :: rest) jobs)
    (made : Bool) : Duty sh q (rowPc cfg c row rest jobs made) := by
  have htodo : (pc q).todo = row.id :: (rest.map Fetched.id ++ jobs) := by rw [hpc]; rfl
  have hnd := htodo ▸ (L.duty q).nodup
  have hrow := (L.duty q).todo row.id (htodo ▸ List.mem_cons_self ..)
  have hrest : ∀ id ∈ rest.map Fetched.id ++ jobs, sh.Owns q id ∧ id ∉ sh.runIds ∧
      ∃ r, sh.table.get? id = some r ∧ Status.Running r.status :=
    fun id hid => (L.duty q).todo id (htodo ▸ List.mem_cons_of_mem row.id hid)
  have hcur : ∀ id, some row.id = some id → sh.Owns q id ∧ id ∉ sh.runIds := by
    intro id hid
    exact Option.some.inj hid ▸ ⟨hrow.1, hrow.2.1⟩
  have hnone : ∀ {P : JobId → Prop} id, none = some id → P id := fun id h => by contradiction
  rw [List.nodup_cons] at hnd
  unfold rowPc
  split
  · split
    · -- a job was made: the row moves to the end of the job array
      have hperm : (rest.map Fetched.id ++ (jobs ++ [row.id])).Perm
          (row.id :: (rest.map Fetched.id ++ jobs)) := by
        rw [← List.append_assoc]
        exact List.perm_append_singleton _ _
      refine Duty.working (hperm.nodup_iff.mpr (List.nodup_cons.mpr hnd)) ?_ hcur hnone rfl rfl
      intro id hid
      exact (L.duty q).todo id (htodo ▸ hperm.mem_iff.mp hid)
    · split
      · exact Duty.working hnd.2 hrest hcur (fun id hid => Option.some.inj hid ▸ hnd.1) rfl rfl
      · exact Duty.working hnd.2 hrest hcur hnone rfl rfl
  · split
    · exact Duty.working hnd.2 hrest hcur (fun id hid => Option.some.inj hid ▸ hnd.1) rfl rfl
    · exact Duty.working hnd.2 hrest hnone hnone rfl rfl

/-- What is left to do after the `UPDATE` to `error` of a row without a job. -/
theorem Ledger.duty_discard (L : Ledger sh pc) {c : Call} {id : JobId} {known : Bool}
    {rest : List Fetched} {jobs : List JobId} (hpc : pc q = .discard c id known rest jobs)
    (reply : Reply) : Duty (sh.write reply (setError sh.table id)) q
      (if known then .mark c id rest jobs else .rows c rest jobs) := by
  obtain ⟨hown, hrun⟩ := (L.duty q).current id (by rw [hpc]; rfl)
  have hnot := (L.duty q).discarding id (by rw [hpc]; rfl)
  have htodo : (pc q).todo = rest.map Fetched.id ++ jobs := by rw [hpc]; rfl
  have hframe : ∀ i, i ≠ id → (setError sh.table id).get? i = sh.table.get? i := by
    intro i hi
    rw [get?_setError, if_neg hi]
  rw [htodo] at hnot
  cases known with
  | false =>
    exact L.duty_after_reply id reply hframe (fun h => absurd h hnot) htodo.symm
      (fun i hi => by contradiction) rfl rfl rfl
  | true =>
    exact L.duty_after_reply id reply hframe (fun h => absurd h hnot) htodo.symm
      (fun i hi => Option.some.inj hi ▸ ⟨hown, hrun⟩) rfl rfl rfl

/-- What is left to do after the `UPDATE` to `processing`. -/
theorem Ledger.duty_mark (L : Ledger sh pc) {c : Call} {id : JobId} {rest : List Fetched}
    {jobs : List JobId} (hpc : pc q = .mark c id rest jobs) (reply : Reply) :
    Duty (sh.write reply (setProcessing sh.table id)) q (.rows c rest jobs) := by
  have htodo : (pc q).todo = rest.map Fetched.id ++ jobs := by rw [hpc]; rfl
  refine L.duty_after_reply id reply ?_ ?_ htodo.symm (fun i hi => by contradiction) rfl rfl rfl
  · intro i hi
    rw [get?_setProcessing, if_neg hi]
  · intro hid
    obtain ⟨_, _, r, hr, _⟩ := (L.duty q).todo id (htodo ▸ hid)
    exact ⟨_, by rw [get?_setProcessing, if_pos rfl, hr, Option.map_some], Or.inr rfl⟩

/-- What is left to do after the `UPDATE` that follows an execution. -/
theorem Ledger.duty_finish (L : Ledger sh pc) {w ret : Int} {id : JobId} {jobs : List JobId}
    (hpc : pc q = .finish w id ret jobs) (reply : Reply) :
    Duty (sh.write reply (if ret ≠ 0 then setComplete sh.table id else setError sh.table id)) q
      (.batch (w - 1) jobs) := by
  obtain ⟨_, hnot, _⟩ := (L.duty q).finishing id ret (by rw [hpc]; rfl)
  have htodo : (pc q).todo = jobs := by rw [hpc]; rfl
  rw [htodo] at hnot
  refine L.duty_after_reply id reply ?_ (fun h => absurd h hnot) htodo.symm
    (fun i hi => by contradiction) rfl rfl rfl
  intro i hi
  split
  · rw [get?_setComplete, if_neg hi]
  · rw [get?_setError, if_neg hi]

end Writes

/-- A claim statement leaves every row alone that is not pending. -/
theorem Shared.get?_claim_of_ne {sh : Shared ι} {q : ι} {lock : List Char} {w : Nat}
    {reply : Reply} {id : JobId} {r : JobRow} (hr : sh.table.get? id = some r)
    (hs : r.status ≠ .pending) : (sh.claim q lock w reply).table.get? id = some r := by
  have hfull : (Jobs.claim sh.table lock w).get? id = some r := by
    rw [(marks_claim sh.table lock w).frame id ((marks_claim sh.table lock w).not_mem hr hs), hr]
  exact reply.apply_of (P := fun T => T.get? id = some r) hr hfull

section Steps

variable [DecidableEq ι]

/-- A step inside the thread keeps the ledger when the new point's duty is met. -/
theorem Ledger.move {sh : Shared ι} {pc : ι → Pc} (L : Ledger sh pc) {q : ι} {p : Pc}
    (hp : Duty sh q p) : Ledger sh (Function.update pc q p) :=
  L.write (OwnWrite.refl sh q) hp

/-- Every step of a thread keeps the ledger. -/
theorem Ledger.threadStep {cfg : Config} {q : ι} {sh sh' : Shared ι} {wq wq' : WorkQueue}
    {a : Action} {pc : ι → Pc} (L : Ledger sh pc) (hq : pc q = wq.pc)
    (h : ThreadStep cfg q sh wq a sh' wq') : Ledger sh' (Function.update pc q wq'.pc) := by
  cases h with
  | check hpc =>
    dsimp only
    split <;> exact L.move (Duty.idle rfl rfl rfl rfl)
  | timeout hpc hm => exact L.move (Duty.idle rfl rfl rfl rfl)
  | popFirst m ms hpc hm | popNext w m ms hpc hm =>
    cases m <;> exact L.move (Duty.idle rfl rfl rfl rfl)
  | popNone w hpc hm =>
    dsimp only
    split <;> exact L.move (Duty.idle rfl rfl rfl rfl)
  | claim w stamp reply hpc hfresh =>
    have hne := lockid_ne_nil stamp
    match reply with
    | .ok => exact L.claimMarks (marks_claim _ _ w) hne hfresh (Or.inl rfl)
    | .failed true => exact L.claimMarks (marks_claim _ _ w) hne hfresh (Or.inr rfl)
    | .failed false => exact L.claimMarks (marks_none _ _ w) hne hfresh (Or.inr rfl)
  | fetchOk c hpc => exact L.move (L.duty_fetch (hq.trans hpc))
  | fetchNoResult c hpc => exact L.move (Duty.idle rfl rfl rfl rfl)
  | fetchFailed c hpc =>
    refine L.move { Duty.idle (p := .head) rfl rfl rfl rfl with opened := ?_ }
    intro c' hc'
    exact (L.duty q).opened c' (by rw [hq, hpc]; exact hc')
  | release c reply hpc =>
    exact L.write ((L.ownWrite_release (hq.trans hpc)).reply reply) (Duty.idle rfl rfl rfl rfl)
  | create c row rest jobs made hpc => exact L.move (L.duty_row (hq.trans hpc) made)
  | returnJobs c jobs hpc =>
    have htodo : (pc q).todo = jobs := by rw [hq, hpc]; rfl
    exact L.move (Duty.working (htodo ▸ (L.duty q).nodup)
      (fun id hid => (L.duty q).todo id (htodo ▸ hid)) (fun id hid => by contradiction)
      (fun id hid => by contradiction) rfl rfl)
  | discard c id known rest jobs reply hpc =>
    obtain ⟨hown, _⟩ := (L.duty q).current id (by rw [hq, hpc]; rfl)
    exact L.write ((OwnWrite.setError hown).reply reply) (L.duty_discard (hq.trans hpc) reply)
  | mark c id rest jobs reply hpc =>
    obtain ⟨hown, _⟩ := (L.duty q).current id (by rw [hq, hpc]; rfl)
    exact L.write ((OwnWrite.setProcessing hown).reply reply) (L.duty_mark (hq.trans hpc) reply)
  | execute w id jobs loadData execute hpc => exact L.execute (hq.trans hpc) _
  | finish w id ret jobs reply hpc =>
    obtain ⟨hown, _⟩ := (L.duty q).finishing id ret (by rw [hq, hpc]; rfl)
    exact L.write ((OwnWrite.finish hown ret).reply reply) (L.duty_finish (hq.trans hpc) reply)
  | batchEnd w hpc => exact L.move (Duty.idle rfl rfl rfl rfl)

/-- Every step of the system keeps the ledger. -/
theorem Ledger.step {cfg : ι → Config} {s t : System ι} {e : Event ι}
    (L : Ledger s.shared s.pc) (h : step cfg s e = some t) : Ledger t.shared t.pc := by
  cases step_cases h with
  | insert id name data hid => exact L.insert hid name data
  | send _ hsh hpc => rw [hsh, hpc]; exact L
  | thread q a sh wq hstep =>
    rw [System.pc_update]
    exact L.threadStep rfl hstep

/-- Every run of the system keeps the ledger. -/
theorem Ledger.exec {cfg : ι → Config} {s t : System ι} {es : List (Event ι)}
    (L : Ledger s.shared s.pc) (h : Core.exec (Worker.step cfg) s es = some t) :
    Ledger t.shared t.pc :=
  exec_invariant (P := fun s => Ledger s.shared s.pc) (fun _ _ _ L h => L.step h) L h

/-- The ledger holds in every state that a start reaches. -/
theorem Boot.ledger_exec {cfg : ι → Config} {s t : System ι} {es : List (Event ι)}
    (hs : Boot s) (h : exec (step cfg) s es = some t) : Ledger t.shared t.pc :=
  hs.ledger.exec h

/-- A step of anyone else leaves a queue's rows as they are, and its claims in the ledger. -/
theorem Ledger.foreign_step {cfg : ι → Config} {s t : System ι} {e : Event ι} {q : ι}
    (L : Ledger s.shared s.pc) (h : Worker.step cfg s e = some t) (he : e.actor ≠ some q)
    {id : JobId} (hown : s.shared.Owns q id) :
    t.row id = s.row id ∧ t.shared.Owns q id := by
  obtain ⟨r, hr, hs⟩ := L.owned_row hown
  cases step_cases h with
  | insert i name data hi =>
    exact ⟨(get?_insert_of_some hi hr).trans hr.symm, hown⟩
  | send _ hsh hpc =>
    rw [System.row, hsh]
    exact ⟨rfl, hown⟩
  | thread q' a sh wq hstep =>
    have hq : q' ≠ q := fun hq => he (congrArg some hq)
    rcases L.ownWrite rfl hstep with ⟨w, stamp, reply, rfl⟩ | ⟨hw, hclaims⟩
    · obtain ⟨c, hc, hcq, hm⟩ := hown
      refine ⟨?_, c, List.mem_cons_of_mem _ hc, hcq, hm⟩
      change (s.shared.claim q' (lockid stamp) w reply).table.get? id = s.shared.table.get? id
      rw [Shared.get?_claim_of_ne hr hs, hr]
    · refine ⟨hw.frame id (fun ho => hq (L.owns_unique ho hown)), ?_⟩
      rw [Shared.Owns, hclaims]
      exact hown

/-- Any activity of the others leaves a queue's rows, its claims and its thread as they
are. -/
theorem Ledger.foreign_exec {cfg : ι → Config} {s t : System ι} {es : List (Event ι)} {q : ι}
    (L : Ledger s.shared s.pc) (h : Core.exec (Worker.step cfg) s es = some t)
    (hes : ∀ e ∈ es, e.actor ≠ some q) :
    t.pc q = s.pc q ∧ ∀ id, s.shared.Owns q id → t.row id = s.row id := by
  induction es generalizing s with
  | nil =>
    obtain rfl := Option.some.inj h
    exact ⟨rfl, fun _ _ => rfl⟩
  | cons e es ih =>
    obtain ⟨m, hm, ht⟩ := exec_cons_eq_some.mp h
    have he := hes e (List.mem_cons_self ..)
    obtain ⟨hpc, hrows⟩ := ih (L.step hm) ht (fun f hf => hes f (List.mem_cons_of_mem e hf))
    refine ⟨hpc.trans (pc_foreign_step hm he), ?_⟩
    intro id hown
    obtain ⟨hrow, hown'⟩ := L.foreign_step hm he hown
    exact (hrows id hown').trans hrow

end Steps

end Workq.Worker
