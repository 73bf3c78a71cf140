import Workq.Core.Table
import Workq.Core.CString

/-!
# The jobs table and the statements issued on it

One definition for each SQL statement of `find_jobs` and `run`, with its own
condition, order and limit, and one for the count of the server's idle poll. Rows keep
the columns these statements read or write; the other columns of the schema are never
named by them. Each statement has one lemma that says what it leaves under a given id.
-/

namespace Workq.Jobs

open Workq.Core

/-- The status column. The five values the code writes or compares with, and any other text. -/
inductive Status where
  | pending
  | loading
  | processing
  | complete
  | error
  | other (text : List Char)
  deriving DecidableEq, Repr

/-- A row of the jobs table; `locked_queue_id` is nullable in the installed schema. -/
structure JobRow where
  name : List Char
  data : Option (List Char)
  status : Status
  lockedQueueId : Option (List Char)
  deriving DecidableEq, Repr

/-- The value of the integer primary key `id`. -/
abbrev JobId := Int

/-- The jobs table. -/
abbrev JobsTable := Table JobId JobRow

/-- What `find_jobs` formats its lock id from: process, `WorkQueue` address and time. -/
structure Stamp where
  pidId : Int
  threadId : Int
  tvSec : Int
  tvUsec : Int
  deriving DecidableEq, Repr

/-- `g_snprintf(lockid, sizeof(lockid), "%ld:%ld:%ld:%ld", ...)` into `gchar lockid[40]`. -/
def lockid (s : Stamp) : List Char :=
  snprintf 40 (formatLong s.pidId ++ ':' :: formatLong s.threadId ++
    ':' :: formatLong s.tvSec ++ ':' :: formatLong s.tvUsec)

/-- Truncation never empties a lock id, so it is told apart from the unlocked value. -/
theorem lockid_ne_nil (s : Stamp) : lockid s ≠ [] := by
  have hp := formatLong_ne_nil s.pidId
  cases hd : formatLong s.pidId with
  | nil => exact absurd hd hp
  | cons c cs =>
    simp only [lockid, snprintf, hd, List.cons_append]
    exact List.cons_ne_nil _ _

/-- A lock id of a real process reads as a number other than zero, truncated or not. -/
theorem leadingDecimal_lockid {s : Stamp} (hpid : 1 ≤ s.pidId) :
    leadingDecimal (lockid s) ≠ 0 := by
  obtain ⟨n, hn⟩ := Int.eq_ofNat_of_zero_le (Int.le_trans (by decide) hpid)
  have hpos : 0 < n := by omega
  obtain ⟨c, cs, hcs, hdigit, hzero⟩ := toDigits_head hpos
  have hformat : formatLong s.pidId = c :: cs := by rw [hn]; exact hcs
  simp only [lockid, snprintf, hformat, List.cons_append]
  exact leadingDecimal_ne_zero hdigit hzero

/-- `status='pending' AND locked_queue_id=''`. -/
def claimable (_ : JobId) (r : JobRow) : Bool :=
  r.status = .pending ∧ r.lockedQueueId = some []

/-- The ids that a claim of the given workload marks. -/
def claimIds (T : JobsTable) (workload : Nat) : List JobId :=
  T.keysOf claimable (some workload)

/-- `UPDATE jobs SET locked_queue_id='%s', status='loading' WHERE status='pending' AND
locked_queue_id='' ORDER BY id LIMIT %d`. -/
def claim (T : JobsTable) (lock : List Char) (workload : Nat) : JobsTable :=
  T.update claimable (some workload) fun r =>
    { r with lockedQueueId := some lock, status := .loading }

/-- The columns `id, name, data` of a selected row. -/
structure Fetched where
  id : JobId
  name : List Char
  data : Option (List Char)
  deriving DecidableEq, Repr

/-- The selected columns of a row. -/
def toFetched (r : JobId × JobRow) : Fetched := ⟨r.1, r.2.name, r.2.data⟩

/-- `status='loading' AND locked_queue_id='%s'`. -/
def lockedBy (lock : List Char) (_ : JobId) (r : JobRow) : Bool :=
  r.status = .loading ∧ r.lockedQueueId = some lock

/-- `SELECT id, name, data FROM jobs WHERE status='loading' AND locked_queue_id='%s'
ORDER BY id LIMIT %d`. -/
def fetch (T : JobsTable) (lock : List Char) (workload : Nat) : List Fetched :=
  (T.select (lockedBy lock) (some workload)).map toFetched

/-- `UPDATE jobs SET locked_queue_id='' WHERE status!='pending' AND locked_queue_id='%s'
ORDER BY id`. -/
def release (T : JobsTable) (lock : List Char) : JobsTable :=
  T.update (fun _ r => r.status ≠ .pending ∧ r.lockedQueueId = some lock) none fun r =>
    { r with lockedQueueId := some [] }

/-- `UPDATE jobs SET status='processing' WHERE id=%d`. -/
def setProcessing (T : JobsTable) (id : JobId) : JobsTable :=
  T.update (fun i _ => decide (i = id)) none fun r => { r with status := .processing }

/-- `UPDATE jobs SET status='error', locked_queue_id='' WHERE id=%d ORDER BY id`. -/
def setError (T : JobsTable) (id : JobId) : JobsTable :=
  T.update (fun i _ => decide (i = id)) none fun r =>
    { r with status := .error, lockedQueueId := some [] }

/-- `UPDATE jobs SET locked_queue_id='', status='complete' WHERE id=%d ORDER BY id`. -/
def setComplete (T : JobsTable) (id : JobId) : JobsTable :=
  T.update (fun i _ => decide (i = id)) none fun r =>
    { r with status := .complete, lockedQueueId := some [] }

/-- `status='pending' and locked_queue_id=0`: the text is converted to a number for the
comparison, and NULL matches nothing. -/
def pollable (_ : JobId) (r : JobRow) : Bool :=
  r.status = .pending ∧ ∃ l ∈ r.lockedQueueId, leadingDecimal l = 0

/-- `Worker::count_select_sql`: `select count(id) as pending from jobs where
status='pending' and locked_queue_id=0`. -/
def countSelect (T : JobsTable) : Nat := (T.select pollable none).length

/-- A client's new row. -/
def newRow (name : List Char) (data : Option (List Char)) : JobRow :=
  ⟨name, data, .pending, some []⟩

/-- The row under an id after a claim. -/
theorem get?_claim (T : JobsTable) (lock : List Char) (w : Nat) (id : JobId) :
    (claim T lock w).get? id =
      if id ∈ claimIds T w then
        (T.get? id).map fun r => { r with lockedQueueId := some lock, status := .loading }
      else T.get? id :=
  Table.get?_update T claimable (some w) _ id

/-- A claim marks only rows that were pending and unlocked. -/
theorem mem_claimIds {T : JobsTable} {w : Nat} {id : JobId} (h : id ∈ claimIds T w) :
    ∃ r, T.get? id = some r ∧ r.status = .pending ∧ r.lockedQueueId = some [] := by
  obtain ⟨r, hr, hp⟩ := Table.mem_keysOf h
  simp only [claimable, decide_eq_true_eq] at hp
  exact ⟨r, hr, hp⟩

/-- On rows that are unlocked or locked by a real process, the poll's condition is the
claim's. -/
theorem pollable_eq_claimable {id : JobId} {r : JobRow}
    (hlock : r.lockedQueueId = none ∨ r.lockedQueueId = some [] ∨
      ∃ stamp : Stamp, 1 ≤ stamp.pidId ∧ r.lockedQueueId = some (lockid stamp)) :
    pollable id r = claimable id r := by
  rcases hlock with hl | hl | ⟨stamp, hpid, hl⟩
  · simp [pollable, claimable, hl]
  · have hempty : leadingDecimal [] = 0 := by decide +kernel
    simp [pollable, claimable, hl, hempty]
  · simp [pollable, claimable, hl, leadingDecimal_lockid hpid, lockid_ne_nil]

theorem claimIds_length_le (T : JobsTable) (w : Nat) : (claimIds T w).length ≤ w := by
  rw [claimIds, Table.length_keysOf_some]
  exact min_le_left _ _

/-- The ids of the fetched rows, in order. -/
theorem fetch_ids (T : JobsTable) (lock : List Char) (w : Nat) :
    (fetch T lock w).map Fetched.id = T.keysOf (lockedBy lock) (some w) := by
  rw [fetch, List.map_map]
  rfl

/-- Every fetched row is loading under the given lock id. -/
theorem mem_fetch {T : JobsTable} {lock : List Char} {w : Nat} {f : Fetched}
    (h : f ∈ fetch T lock w) : ∃ r, T.get? f.id = some r ∧ r.name = f.name ∧ r.data = f.data ∧
      r.status = .loading ∧ r.lockedQueueId = some lock := by
  obtain ⟨⟨id, r⟩, hr, rfl⟩ := List.mem_map.mp h
  obtain ⟨hget, hp⟩ := Table.mem_select hr
  simp only [lockedBy, decide_eq_true_eq] at hp
  exact ⟨r, hget, rfl, rfl, hp.1, hp.2⟩

/-- The row under an id after the compensating release. -/
theorem get?_release (T : JobsTable) (lock : List Char) (id : JobId) :
    (release T lock).get? id = (T.get? id).map fun r =>
      if r.status ≠ .pending ∧ r.lockedQueueId = some lock then
        { r with lockedQueueId := some [] } else r := by
  rw [release, Table.get?_update]
  split
  · rename_i hm
    obtain ⟨r, hr, hp⟩ := Table.mem_keysOf hm
    rw [hr]
    exact congrArg some (if_pos (of_decide_eq_true hp)).symm
  · rename_i hm
    cases hr : T.get? id with
    | none => rfl
    | some r =>
      rw [Option.map_some, if_neg]
      intro hp
      exact hm (Table.mem_keysOf_none.mpr ⟨r, hr, decide_eq_true hp⟩)

theorem get?_setProcessing (T : JobsTable) (id i : JobId) :
    (setProcessing T id).get? i =
      if i = id then (T.get? i).map fun r => { r with status := .processing }
      else T.get? i :=
  Table.get?_update_key T id i _

theorem get?_setError (T : JobsTable) (id i : JobId) :
    (setError T id).get? i =
      if i = id then (T.get? i).map fun r =>
        { r with status := .error, lockedQueueId := some [] }
      else T.get? i :=
  Table.get?_update_key T id i _

theorem get?_setComplete (T : JobsTable) (id i : JobId) :
    (setComplete T id).get? i =
      if i = id then (T.get? i).map fun r =>
        { r with status := .complete, lockedQueueId := some [] }
      else T.get? i :=
  Table.get?_update_key T id i _

end Workq.Jobs
