import Mathlib.Data.List.Pairwise
import Workq.Worker.System

/-!
# Who owns a row

The trace of claims is a ledger: every row is marked by at most one claim, a thread
names in its statements and executes only rows that its own queue's claims marked,
and while a thread is between its claim and its `SELECT` the rows under its lock id
are exactly the ones its claim marked. These facts hold in every run, whatever
statements fail; ownership across queues follows from the ledger alone.
-/

namespace Workq.Worker

open Workq.Core Workq.Jobs

variable {ι : Type*}

/-- The rows and jobs that a thread has yet to dispose of or to execute. -/
def Pc.todo : Pc → List JobId
  | .rows _ rest jobs | .discard _ _ _ rest jobs | .mark _ _ rest jobs =>
    rest.map Fetched.id ++ jobs
  | .batch _ jobs | .finish _ _ _ jobs => jobs
  | _ => []

/-- The row named by the thread's next statement in `find_jobs`' loop. -/
def Pc.current : Pc → Option JobId
  | .discard _ id _ _ _ | .mark _ id _ _ => some id
  | _ => none

/-- The row that the thread is about to set to `error` in `find_jobs`. -/
def Pc.discarding : Pc → Option JobId
  | .discard _ id _ _ _ => some id
  | _ => none

/-- The job whose result the thread is about to store. -/
def Pc.finishing : Pc → Option (JobId × Int)
  | .finish _ id ret _ => some (id, ret)
  | _ => none

/-- The call whose claim is made and whose rows are not fetched. -/
def Pc.opened : Pc → Option Call
  | .select c | .release c => some c
  | _ => none

/-- The two statuses of a claimed row on its way to execution. -/
def Status.Running (st : Status) : Prop := st = .loading ∨ st = .processing

theorem Status.not_running_pending : ¬ Status.Running .pending := by
  rintro (h | h) <;> contradiction

theorem Status.not_running_complete : ¬ Status.Running .complete := by
  rintro (h | h) <;> contradiction

theorem Status.not_running_error : ¬ Status.Running .error := by
  rintro (h | h) <;> contradiction

/-- The ids of the executed jobs. -/
def Shared.runIds (sh : Shared ι) : List JobId := sh.runs.map Prod.fst

/-- Some claim of the queue marked the row. -/
def Shared.Owns (sh : Shared ι) (q : ι) (id : JobId) : Prop :=
  ∃ c ∈ sh.claims, c.queue = q ∧ id ∈ c.marked

/-- Two claims share neither lock id nor row. -/
def Claim.Apart (a b : Claim ι) : Prop := a.lock ≠ b.lock ∧ List.Disjoint a.marked b.marked

instance : Std.Symm (@Claim.Apart ι) :=
  ⟨fun _ _ h => ⟨h.1.symm, fun _ hb ha => h.2 ha hb⟩⟩

/-- The state of a claim that is made and not fetched: its rows are exactly the rows
under its lock id, all loading and none executed. -/
structure OpenClaim (sh : Shared ι) (c : Call) (cl : Claim ι) : Prop where
  lock : cl.lock = c.lock
  workload : cl.workload = c.workload
  nonempty : c.lock ≠ []
  sorted : cl.marked.Pairwise (· < ·)
  length : cl.marked.length ≤ c.workload
  exact : ∀ id r, sh.table.get? id = some r → (r.lockedQueueId = some c.lock ↔ id ∈ cl.marked)
  loading : ∀ id ∈ cl.marked, ∃ r, sh.table.get? id = some r ∧ r.status = .loading
  fresh : ∀ id ∈ cl.marked, id ∉ sh.runIds

/-- What a thread at the given program point may rely on: the rows it has in hand are its
queue's and not executed, those still to be worked on are on their way, and its open claim
is untouched. -/
structure Duty (sh : Shared ι) (q : ι) (p : Pc) : Prop where
  nodup : p.todo.Nodup
  todo : ∀ id ∈ p.todo, sh.Owns q id ∧ id ∉ sh.runIds ∧
    ∃ r, sh.table.get? id = some r ∧ Status.Running r.status
  current : ∀ id, p.current = some id → sh.Owns q id ∧ id ∉ sh.runIds
  discarding : ∀ id, p.discarding = some id → id ∉ p.todo
  finishing : ∀ id ret, p.finishing = some (id, ret) →
    sh.Owns q id ∧ id ∉ p.todo ∧ (id, ret) ∈ sh.runs
  opened : ∀ c, p.opened = some c → ∃ cl ∈ sh.claims, cl.queue = q ∧ OpenClaim sh c cl

/-- The ownership invariant. -/
structure Ledger (sh : Shared ι) (pc : ι → Pc) : Prop where
  apart : sh.claims.Pairwise Claim.Apart
  marked : ∀ c ∈ sh.claims, ∀ id ∈ c.marked, ∃ r, sh.table.get? id = some r ∧ r.status ≠ .pending
  locked : ∀ id r l, sh.table.get? id = some r → r.lockedQueueId = some l → l ≠ [] →
    l ∈ sh.locks
  ran : ∀ id ∈ sh.runIds, ∃ q, sh.Owns q id
  once : sh.runIds.Nodup
  duty : ∀ q, Duty sh q (pc q)

/-- A row is marked by at most one claim. -/
theorem Ledger.claim_unique {sh : Shared ι} {pc : ι → Pc} (L : Ledger sh pc)
    {a b : Claim ι} (ha : a ∈ sh.claims) (hb : b ∈ sh.claims) {id : JobId}
    (hia : id ∈ a.marked) (hib : id ∈ b.marked) : a = b := by
  by_contra hne
  exact (L.apart.forall ha hb hne).2 hia hib

/-- A lock id names at most one claim. -/
theorem Ledger.lock_unique {sh : Shared ι} {pc : ι → Pc} (L : Ledger sh pc)
    {a b : Claim ι} (ha : a ∈ sh.claims) (hb : b ∈ sh.claims) (h : a.lock = b.lock) : a = b := by
  by_contra hne
  exact (L.apart.forall ha hb hne).1 h

/-- Two queues never own the same row. -/
theorem Ledger.owns_unique {sh : Shared ι} {pc : ι → Pc} (L : Ledger sh pc) {q q' : ι}
    {id : JobId} (h : sh.Owns q id) (h' : sh.Owns q' id) : q = q' := by
  obtain ⟨a, ha, rfl, hia⟩ := h
  obtain ⟨b, hb, rfl, hib⟩ := h'
  rw [L.claim_unique ha hb hia hib]

/-- An owned row is in the table and no longer pending. -/
theorem Ledger.owned_row {sh : Shared ι} {pc : ι → Pc} (L : Ledger sh pc) {q : ι} {id : JobId}
    (h : sh.Owns q id) : ∃ r, sh.table.get? id = some r ∧ r.status ≠ .pending := by
  obtain ⟨c, hc, _, hid⟩ := h
  exact L.marked c hc id hid

/-- A claim of another queue marked none of the rows that a queue owns. -/
theorem Ledger.not_mem_marked {sh : Shared ι} {pc : ι → Pc} (L : Ledger sh pc) {q : ι}
    {id : JobId} (h : sh.Owns q id) {cl : Claim ι} (hcl : cl ∈ sh.claims) (hq : cl.queue ≠ q) :
    id ∉ cl.marked := by
  intro hid
  exact hq (L.owns_unique ⟨cl, hcl, rfl, hid⟩ h)

/-- What a table write of queue `q` may do: rows that `q` does not own stay as they are,
and an owned row keeps its place, is not made pending and keeps or loses its lock. -/
structure OwnWrite (sh : Shared ι) (q : ι) (T : JobsTable) : Prop where
  frame : ∀ i, ¬ sh.Owns q i → T.get? i = sh.table.get? i
  keep : ∀ i r, sh.Owns q i → sh.table.get? i = some r → r.status ≠ .pending →
    ∃ r', T.get? i = some r' ∧ r'.status ≠ .pending ∧
      (r'.lockedQueueId = r.lockedQueueId ∨ r'.lockedQueueId = some [])

theorem OwnWrite.refl (sh : Shared ι) (q : ι) : OwnWrite sh q sh.table :=
  ⟨fun _ _ => rfl, fun _ r _ hr hp => ⟨r, hr, hp, Or.inl rfl⟩⟩

/-- What a claiming statement did: it marked pending rows with the lock id. -/
structure Marks (T T' : JobsTable) (lock : List Char) (w : Nat) (M : List JobId) : Prop where
  frame : ∀ i, i ∉ M → T'.get? i = T.get? i
  marked : ∀ i ∈ M, ∃ r, T.get? i = some r ∧ r.status = .pending ∧
    T'.get? i = some { r with lockedQueueId := some lock, status := .loading }
  sorted : M.Pairwise (· < ·)
  length : M.length ≤ w

theorem marks_claim (T : JobsTable) (lock : List Char) (w : Nat) :
    Marks T (Jobs.claim T lock w) lock w (claimIds T w) where
  frame i hi := by rw [get?_claim, if_neg hi]
  marked i hi := by
    obtain ⟨r, hr, hs, _⟩ := mem_claimIds hi
    exact ⟨r, hr, hs, by rw [get?_claim, if_pos hi, hr, Option.map_some]⟩
  sorted := T.keysOf_sorted claimable (some w)
  length := claimIds_length_le T w

theorem marks_none (T : JobsTable) (lock : List Char) (w : Nat) : Marks T T lock w [] where
  frame _ _ := rfl
  marked _ hi := absurd hi List.not_mem_nil
  sorted := List.Pairwise.nil
  length := Nat.zero_le w

/-- A claiming statement leaves every row alone that is not pending. -/
theorem Marks.not_mem {T T' : JobsTable} {lock : List Char} {w : Nat} {M : List JobId}
    (hM : Marks T T' lock w M) {id : JobId} {r : JobRow} (hr : T.get? id = some r)
    (hs : r.status ≠ .pending) : id ∉ M := by
  intro hid
  obtain ⟨r', hr', hs', _⟩ := hM.marked id hid
  exact hs ((Option.some.inj (hr.symm.trans hr')) ▸ hs')

/-- The duty of a point between the `SELECT` and the next result to store. -/
theorem Duty.working {sh : Shared ι} {q : ι} {p : Pc} (hnodup : p.todo.Nodup)
    (htodo : ∀ id ∈ p.todo, sh.Owns q id ∧ id ∉ sh.runIds ∧
      ∃ r, sh.table.get? id = some r ∧ Status.Running r.status)
    (hcurrent : ∀ id, p.current = some id → sh.Owns q id ∧ id ∉ sh.runIds)
    (hdiscarding : ∀ id, p.discarding = some id → id ∉ p.todo) (hfinishing : p.finishing = none)
    (hopened : p.opened = none) : Duty sh q p where
  nodup := hnodup
  todo := htodo
  current := hcurrent
  discarding := hdiscarding
  finishing id ret h := by rw [hfinishing] at h; contradiction
  opened c h := by rw [hopened] at h; contradiction

/-- A program point with nothing in hand has no duty. -/
theorem Duty.idle {sh : Shared ι} {q : ι} {p : Pc} (ht : p.todo = []) (hc : p.current = none)
    (hf : p.finishing = none) (ho : p.opened = none) : Duty sh q p := by
  refine Duty.working (ht ▸ List.nodup_nil) ?_ ?_ ?_ hf ho
  · intro id hid
    exact absurd (ht ▸ hid) List.not_mem_nil
  · intro id hid
    rw [hc] at hid
    contradiction
  · intro id _
    rw [ht]
    exact List.not_mem_nil

section OtherThreads

variable {sh : Shared ι} {pc : ι → Pc} {q q' : ι} {p : Pc}

/-- Another queue's open claim survives a write to rows that it did not mark. -/
theorem OpenClaim.write {c : Call} {cl : Claim ι} (ho : OpenClaim sh c cl) (L : Ledger sh pc)
    {T : JobsTable} (hw : OwnWrite sh q T) (hcl : cl ∈ sh.claims) (hq : cl.queue ≠ q) :
    OpenClaim { sh with table := T } c cl := by
  refine { ho with exact := ?_, loading := ?_, fresh := ho.fresh }
  · intro id r hr
    by_cases hown : sh.Owns q id
    · have hnot := L.not_mem_marked hown hcl hq
      obtain ⟨r₀, hr₀, hp⟩ := L.owned_row hown
      obtain ⟨r', hr', _, hlock⟩ := hw.keep id r₀ hown hr₀ hp
      have he : r' = r := Option.some.inj (hr'.symm.trans hr)
      have h₀ := ho.exact id r₀ hr₀
      rw [iff_false_right hnot] at h₀ ⊢
      intro hc
      rcases hlock with hlock | hlock
      · exact h₀ (by rw [← hlock, he, hc])
      · rw [he, hc] at hlock
        exact ho.nonempty (Option.some.inj hlock)
    · exact ho.exact id r ((hw.frame id hown).symm.trans hr)
  · intro id hid
    obtain ⟨r, hr, hs⟩ := ho.loading id hid
    have hown : ¬ sh.Owns q id := fun h => L.not_mem_marked h hcl hq hid
    exact ⟨r, (hw.frame id hown).trans hr, hs⟩

/-- A write to one queue's rows leaves the duties of the other queues as they are. -/
theorem Duty.write (D : Duty sh q' p) (L : Ledger sh pc) {T : JobsTable}
    (hw : OwnWrite sh q T) (hq : q' ≠ q) : Duty { sh with table := T } q' p := by
  refine { D with todo := ?_, opened := ?_ }
  · intro id hid
    obtain ⟨hown, hrun, r, hr, hs⟩ := D.todo id hid
    have hother : ¬ sh.Owns q id := fun h => hq (L.owns_unique hown h)
    exact ⟨hown, hrun, r, (hw.frame id hother).trans hr, hs⟩
  · intro c hc
    obtain ⟨cl, hcl, rfl, ho⟩ := D.opened c hc
    exact ⟨cl, hcl, rfl, ho.write L hw hcl hq⟩

/-- An execution touches no duty of a queue that does not own the job. -/
theorem Duty.execute (D : Duty sh q' p) {id : JobId} (hother : ¬ sh.Owns q' id) (ret : Int) :
    Duty { sh with runs := (id, ret) :: sh.runs } q' p := by
  have hfresh : ∀ i, sh.Owns q' i → i ∉ sh.runIds → i ∉ id :: sh.runIds := by
    intro i hi hr hm
    rcases List.mem_cons.mp hm with rfl | hm
    · exact hother hi
    · exact hr hm
  refine { D with todo := ?_, current := ?_, finishing := ?_, opened := ?_ }
  · intro i hi
    obtain ⟨ho, hr, hrow⟩ := D.todo i hi
    exact ⟨ho, hfresh i ho hr, hrow⟩
  · intro i hi
    obtain ⟨ho, hr⟩ := D.current i hi
    exact ⟨ho, hfresh i ho hr⟩
  · intro i ret' hf
    obtain ⟨ho, ht, hm⟩ := D.finishing i ret' hf
    exact ⟨ho, ht, List.mem_cons_of_mem _ hm⟩
  · intro c hc
    obtain ⟨cl, hcl, hclq, ho⟩ := D.opened c hc
    refine ⟨cl, hcl, hclq, { ho with fresh := ?_ }⟩
    intro i hi
    exact hfresh i ⟨cl, hcl, hclq, hi⟩ (ho.fresh i hi)

end OtherThreads

section Inserts

variable {sh : Shared ι} {pc : ι → Pc} {id : JobId}

/-- The rows besides a client's new one are the old ones. -/
theorem get?_insert_cases {T : JobsTable} (hid : T.get? id = none) {new : JobRow} {i : JobId}
    {r : JobRow} (hr : (T.insert id new).get? i = some r) :
    T.get? i = some r ∨ (i = id ∧ r = new) := by
  rw [Table.get?_insert hid] at hr
  split at hr
  · exact Or.inr ⟨‹_›, (Option.some.inj hr).symm⟩
  · exact Or.inl hr

theorem get?_insert_of_some {T : JobsTable} (hid : T.get? id = none) {new : JobRow} {i : JobId}
    {r : JobRow} (hr : T.get? i = some r) : (T.insert id new).get? i = some r := by
  have hne : i ≠ id := by
    rintro rfl
    rw [hid] at hr
    contradiction
  rw [Table.get?_insert hid, if_neg hne, hr]

/-- An open claim survives a client's insert. -/
theorem OpenClaim.insert {c : Call} {cl : Claim ι} (ho : OpenClaim sh c cl)
    (hid : sh.table.get? id = none) (name : List Char) (data : Option (List Char)) :
    OpenClaim { sh with table := sh.table.insert id (newRow name data) } c cl := by
  refine { ho with exact := ?_, loading := ?_, fresh := ho.fresh }
  · intro i r hr
    rcases get?_insert_cases hid hr with hr | ⟨rfl, rfl⟩
    · exact ho.exact i r hr
    · refine iff_of_false (fun hl => ho.nonempty (Option.some.inj hl).symm) (fun hmem => ?_)
      obtain ⟨r', hr', _⟩ := ho.loading i hmem
      rw [hid] at hr'
      contradiction
  · intro i hi
    obtain ⟨r, hr, hs⟩ := ho.loading i hi
    exact ⟨r, get?_insert_of_some hid hr, hs⟩

/-- A client's insert keeps the ledger. -/
theorem Ledger.insert (L : Ledger sh pc) (hid : sh.table.get? id = none) (name : List Char)
    (data : Option (List Char)) :
    Ledger { sh with table := sh.table.insert id (newRow name data) } pc := by
  refine { L with marked := ?_, locked := ?_, duty := ?_ }
  · intro c hc i hi
    obtain ⟨r, hr, hs⟩ := L.marked c hc i hi
    exact ⟨r, get?_insert_of_some hid hr, hs⟩
  · intro i r l hr hl hne
    rcases get?_insert_cases hid hr with hr | ⟨_, rfl⟩
    · exact L.locked i r l hr hl hne
    · exact absurd (Option.some.inj hl).symm hne
  · intro q
    refine { L.duty q with todo := ?_, opened := ?_ }
    · intro i hi
      obtain ⟨ho, hrun, r, hr, hs⟩ := (L.duty q).todo i hi
      exact ⟨ho, hrun, r, get?_insert_of_some hid hr, hs⟩
    · intro c hc
      obtain ⟨cl, hcl, hclq, ho⟩ := (L.duty q).opened c hc
      exact ⟨cl, hcl, hclq, ho.insert hid name data⟩

end Inserts

section Claims

variable {sh : Shared ι} {pc : ι → Pc} {q q' : ι} {p : Pc} {T : JobsTable} {lock : List Char}
  {w : Nat} {M : List JobId}

/-- A claiming statement keeps rows that are not pending. -/
theorem Marks.keep (hM : Marks sh.table T lock w M) {i : JobId} {r : JobRow}
    (hr : sh.table.get? i = some r) (hs : r.status ≠ .pending) : T.get? i = some r := by
  rw [hM.frame i (hM.not_mem hr hs), hr]

/-- A new claim takes no ownership away. -/
theorem Shared.Owns.cons {i : JobId} (h : sh.Owns q' i) (cl : Claim ι) :
    Shared.Owns { sh with table := T, claims := cl :: sh.claims } q' i := by
  obtain ⟨c, hc, hown⟩ := h
  exact ⟨c, List.mem_cons_of_mem _ hc, hown⟩

/-- An open claim survives a claim under another lock id. -/
theorem OpenClaim.claim {c : Call} {cl : Claim ι} (ho : OpenClaim sh c cl) (L : Ledger sh pc)
    (hM : Marks sh.table T lock w M) (hfresh : lock ∉ sh.locks) (hcl : cl ∈ sh.claims)
    (new : Claim ι) : OpenClaim { sh with table := T, claims := new :: sh.claims } c cl := by
  refine { ho with exact := ?_, loading := ?_, fresh := ho.fresh }
  · intro i r hr
    by_cases hi : i ∈ M
    · obtain ⟨r', _, _, hr'⟩ := hM.marked i hi
      rw [← Option.some.inj (hr'.symm.trans hr)]
      refine iff_of_false (fun hl => hfresh ?_) (fun hmem => ?_)
      · rw [Option.some.inj hl, ← ho.lock]
        exact List.mem_map_of_mem hcl
      · obtain ⟨r'', hr'', hs''⟩ := L.marked cl hcl i hmem
        exact hM.not_mem hr'' hs'' hi
    · rw [hM.frame i hi] at hr
      exact ho.exact i r hr
  · intro i hi
    obtain ⟨r, hr, hs⟩ := ho.loading i hi
    exact ⟨r, hM.keep hr (by rw [hs]; decide), hs⟩

/-- A claim leaves the duties of the other queues as they are. -/
theorem Duty.claim (D : Duty sh q' p) (L : Ledger sh pc) (hM : Marks sh.table T lock w M)
    (hfresh : lock ∉ sh.locks) (new : Claim ι) :
    Duty { sh with table := T, claims := new :: sh.claims } q' p := by
  refine { D with todo := ?_, current := ?_, finishing := ?_, opened := ?_ }
  · intro i hi
    obtain ⟨ho, hrun, r, hr, hs⟩ := D.todo i hi
    have hnp : r.status ≠ .pending := fun h => Status.not_running_pending (h ▸ hs)
    exact ⟨ho.cons new, hrun, r, hM.keep hr hnp, hs⟩
  · intro i hi
    obtain ⟨ho, hrun⟩ := D.current i hi
    exact ⟨ho.cons new, hrun⟩
  · intro i ret hf
    obtain ⟨ho, h⟩ := D.finishing i ret hf
    exact ⟨ho.cons new, h⟩
  · intro c hc
    obtain ⟨cl, hcl, hclq, ho⟩ := D.opened c hc
    exact ⟨cl, List.mem_cons_of_mem _ hcl, hclq, ho.claim L hM hfresh hcl new⟩

/-- A claim under a fresh lock id is open. -/
theorem Ledger.openClaim_new (L : Ledger sh pc) (hM : Marks sh.table T lock w M)
    (hne : lock ≠ []) (hfresh : lock ∉ sh.locks) (q : ι) :
    OpenClaim { sh with table := T, claims := ⟨lock, q, w, M⟩ :: sh.claims } ⟨lock, w⟩
      ⟨lock, q, w, M⟩ where
  lock := rfl
  workload := rfl
  nonempty := hne
  sorted := hM.sorted
  length := hM.length
  exact i r hr := by
    by_cases hi : i ∈ M
    · obtain ⟨r', _, _, hr'⟩ := hM.marked i hi
      rw [← Option.some.inj (hr'.symm.trans hr)]
      exact iff_of_true rfl hi
    · rw [show T.get? i = _ from hM.frame i hi] at hr
      exact iff_of_false (fun hl => hfresh (L.locked i r lock hr hl hne)) hi
  loading i hi := by
    obtain ⟨r, _, _, hr⟩ := hM.marked i hi
    exact ⟨_, hr, rfl⟩
  fresh i hi hrun := by
    obtain ⟨q', ho⟩ := L.ran i hrun
    obtain ⟨r, hr, hs⟩ := L.owned_row ho
    exact hM.not_mem hr hs hi

end Claims

section Preservation

variable [DecidableEq ι] {sh : Shared ι} {pc : ι → Pc} {q : ι}

/-- A write to own rows followed by a point whose duty is met keeps the ledger. -/
theorem Ledger.write (L : Ledger sh pc) {T : JobsTable} {p : Pc} (hw : OwnWrite sh q T)
    (hp : Duty { sh with table := T } q p) :
    Ledger { sh with table := T } (Function.update pc q p) where
  apart := L.apart
  marked c hc id hid := by
    obtain ⟨r, hr, hs⟩ := L.marked c hc id hid
    by_cases hown : sh.Owns q id
    · obtain ⟨r', hr', hs', _⟩ := hw.keep id r hown hr hs
      exact ⟨r', hr', hs'⟩
    · exact ⟨r, (hw.frame id hown).trans hr, hs⟩
  locked id r l hr hl hne := by
    by_cases hown : sh.Owns q id
    · obtain ⟨r₀, hr₀, hs₀⟩ := L.owned_row hown
      obtain ⟨r', hr', _, hlock⟩ := hw.keep id r₀ hown hr₀ hs₀
      have he : r' = r := Option.some.inj (hr'.symm.trans hr)
      rcases hlock with hlock | hlock
      · exact L.locked id r₀ l hr₀ (by rw [← hlock, he, hl]) hne
      · rw [he, hl] at hlock
        exact absurd (Option.some.inj hlock) hne
    · exact L.locked id r l ((hw.frame id hown).symm.trans hr) hl hne
  ran := L.ran
  once := L.once
  duty := (Function.forall_update_iff pc fun q p => Duty { sh with table := T } q p).mpr
    ⟨hp, fun q' hq => (L.duty q').write L hw hq⟩

/-- Executing the next job of a batch keeps the ledger. -/
theorem Ledger.execute (L : Ledger sh pc) {w : Int} {id : JobId} {jobs : List JobId}
    (hpc : pc q = .batch w (id :: jobs)) (ret : Int) :
    Ledger { sh with runs := (id, ret) :: sh.runs }
      (Function.update pc q (.finish w id ret jobs)) := by
  have htodo : (pc q).todo = id :: jobs := by rw [hpc]; rfl
  obtain ⟨hown, hrun, _⟩ := (L.duty q).todo id (htodo ▸ List.mem_cons_self ..)
  have hnd := htodo ▸ (L.duty q).nodup
  rw [List.nodup_cons] at hnd
  have hself : Duty { sh with runs := (id, ret) :: sh.runs } q (.finish w id ret jobs) := by
    refine ⟨hnd.2, ?_, fun i hi => by contradiction, fun i hi => by contradiction, ?_,
      fun c hc => by contradiction⟩
    · intro i hi
      obtain ⟨ho, hr, hrow⟩ := (L.duty q).todo i (htodo ▸ List.mem_cons_of_mem id hi)
      refine ⟨ho, ?_, hrow⟩
      intro hm
      rcases List.mem_cons.mp hm with rfl | hm
      · exact hnd.1 hi
      · exact hr hm
    · intro i ret' hf
      obtain ⟨rfl, rfl⟩ := Prod.mk.inj (Option.some.inj hf)
      exact ⟨hown, hnd.1, List.mem_cons_self ..⟩
  refine { L with ran := ?_, once := List.nodup_cons.mpr ⟨hrun, L.once⟩, duty := ?_ }
  · intro i hi
    rcases List.mem_cons.mp hi with rfl | hi
    · exact ⟨q, hown⟩
    · exact L.ran i hi
  · refine (Function.forall_update_iff pc fun q p =>
      Duty { sh with runs := (id, ret) :: sh.runs } q p).mpr ⟨hself, ?_⟩
    intro q' hq
    exact (L.duty q').execute (fun h => hq (L.owns_unique h hown)) ret

/-- A claim under a fresh lock id keeps the ledger; it leaves the thread before its
`SELECT` or, when the statement failed, at the head of `run`'s loop. -/
theorem Ledger.claimMarks (L : Ledger sh pc) {T : JobsTable} {lock : List Char} {w : Nat}
    {M : List JobId} {p : Pc} (hM : Marks sh.table T lock w M) (hne : lock ≠ [])
    (hfresh : lock ∉ sh.locks) (hp : p = .select ⟨lock, w⟩ ∨ p = .head) :
    Ledger { sh with table := T, claims := ⟨lock, q, w, M⟩ :: sh.claims }
      (Function.update pc q p) := by
  constructor
  case apart =>
    refine List.pairwise_cons.mpr ⟨?_, L.apart⟩
    intro c hc
    refine ⟨fun h => hfresh (List.mem_map.mpr ⟨c, hc, h.symm⟩), ?_⟩
    intro i hi hic
    obtain ⟨r, hr, hs⟩ := L.marked c hc i hic
    exact hM.not_mem hr hs hi
  case marked =>
    intro c hc i hi
    rcases List.mem_cons.mp hc with rfl | hc
    · obtain ⟨r, _, _, hr⟩ := hM.marked i hi
      exact ⟨_, hr, Status.noConfusion⟩
    · obtain ⟨r, hr, hs⟩ := L.marked c hc i hi
      exact ⟨r, hM.keep hr hs, hs⟩
  case locked =>
    intro i r l hr hl hl'
    by_cases hi : i ∈ M
    · obtain ⟨r', _, _, hr'⟩ := hM.marked i hi
      have he := Option.some.inj (hr'.symm.trans hr)
      rw [← he] at hl
      exact Option.some.inj hl ▸ List.mem_cons_self ..
    · rw [hM.frame i hi] at hr
      exact List.mem_cons_of_mem _ (L.locked i r l hr hl hl')
  case ran =>
    intro i hi
    obtain ⟨q', ho⟩ := L.ran i hi
    exact ⟨q', ho.cons _⟩
  case once => exact L.once
  case duty =>
    refine (Function.forall_update_iff pc fun q' p => Duty { sh with
      table := T, claims := ⟨lock, q, w, M⟩ :: sh.claims } q' p).mpr
      ⟨?_, fun q' _ => (L.duty q').claim L hM hfresh _⟩
    rcases hp with rfl | rfl
    · refine { Duty.idle (p := .head) rfl rfl rfl rfl with opened := ?_ }
      intro c hc
      obtain rfl : ⟨lock, w⟩ = c := Option.some.inj hc
      exact ⟨_, List.mem_cons_self .., rfl, L.openClaim_new hM hne hfresh q⟩
    · exact Duty.idle rfl rfl rfl rfl

end Preservation

end Workq.Worker
