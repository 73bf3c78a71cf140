import Workq.Jobs.Texts

/-!
# The operations that the statements stand for

The rest of the development works with operations on the jobs table. What the database runs
of a statement as it is sent is its operation, for every table, lock id, workload and job id;
no statement is cut on its way.
-/

namespace Workq.Jobs

open Workq.Core
open Workq.Adaptor (Bytes RealQuery realQuery realQuery_of_length_lt bufferSize)

/-- The columns that the rows of `find_jobs` have. -/
def Fetched.cells (f : Fetched) : List Cell := [.number f.id, .text f.name, .ofOption f.data]

/-- The operation on the jobs table that a statement stands for. -/
def Statement.outcome (T : JobsTable) : Statement → Outcome
  | .claim stamp workload => .updated (Jobs.claim T (lockid stamp) workload)
  | .fetch stamp workload => .rows ((Jobs.fetch T (lockid stamp) workload).map Fetched.cells)
  | .release stamp => .updated (Jobs.release T (lockid stamp))
  | .discard id | .fail id => .updated (setError T id)
  | .mark id => .updated (setProcessing T id)
  | .complete id => .updated (setComplete T id)
  | .count => .count (countSelect T)

/-- Every command is the operation that the statement stands for. -/
theorem Statement.run_command (s : Statement) (T : JobsTable) :
    Command.run T s.command = some (s.outcome T) := by
  have hpending : Status.ofText "pending".toList = .pending := ofText_status .pending nofun
  have hloading : Status.ofText "loading".toList = .loading := ofText_status .loading nofun
  have herror : Status.ofText "error".toList = .error := ofText_status .error nofun
  have hcomplete : Status.ofText "complete".toList = .complete := ofText_status .complete nofun
  have hprocessing : Status.ofText "processing".toList = .processing :=
    ofText_status .processing nofun
  cases s with
  | claim stamp workload =>
    refine run_update (by simp) ?_ ?_
    · intro i r
      simp only [List.all_cons, List.all_nil, Bool.and_true, holds_status i r hpending, holds_lock,
        claimable, Bool.decide_and]
    · intro r
      simp only [List.foldl_cons, List.foldl_nil, assign, Value.toText, hloading]
  | fetch stamp workload =>
    refine (run_select (p := lockedBy (lockid stamp)) ?_).trans ?_
    · intro i r
      simp only [List.all_cons, List.all_nil, Bool.and_true, holds_status i r hloading, holds_lock,
        lockedBy, Bool.decide_and]
    · rw [Statement.outcome, Jobs.fetch, List.map_map]
      rfl
  | release stamp =>
    refine run_update (by simp) ?_ ?_
    · intro i r
      simp only [List.all_cons, List.all_nil, Bool.and_true, holds_status_ne i r hpending,
        holds_lock, Bool.decide_and]
    · intro r
      rfl
  | discard id | fail id | complete id | mark id =>
    refine run_update_key (by simp) ?_
    intro r
    simp only [List.foldl_cons, List.foldl_nil, assign, Value.toText, herror, hcomplete,
      hprocessing]
  | count =>
    refine run_count ?_
    intro i r
    simp only [List.all_cons, List.all_nil, Bool.and_true, holds_status i r hpending,
      holds_lock_number, pollable, Bool.decide_and, Int.cast_zero]

/-- Formatting, in bytes. -/
def formatBytes (sql : List Char) (args : List Arg) : Option Bytes :=
  (printf sql args).map bytesOf

/-- What the client library takes from the query buffer. -/
def sentText (q : RealQuery) : List Char := charsOf (q.stored.take q.length)

/-- For all arguments that the calls can pass, a statement goes out whole, nothing behind it is
sent, and what the database runs is the operation on the jobs table that the statement stands
for. -/
theorem statements_run_as_operations (s : Statement) (hs : s.InRange) (T : JobsTable) :
    let q := realQuery formatBytes s.sql s.args
    q.length = q.stored.length ∧ runSql (sentText q) T = some (s.outcome T) := by
  have hreads := s.reads hs
  have hformat : formatBytes s.sql s.args = some (bytesOf s.text) := by
    rw [formatBytes, hreads.printed, Option.map_some]
  have hlength : (bytesOf s.text).length < bufferSize := by
    rw [bytesOf, List.length_map]
    exact hreads.short
  have hq := realQuery_of_length_lt formatBytes hformat hlength
  rw [hq]
  refine ⟨rfl, ?_⟩
  rw [sentText, List.take_length, charsOf_bytesOf hreads.ascii, runSql, hreads.read]
  exact s.run_command T

/-- Two rows are claimed by a text. -/
theorem statements_run_as_operations_claim :
    let T := ((Table.empty : JobsTable).insert 4 (newRow "run".toList none)).insert 2
      (newRow "pdf".toList none)
    let q := realQuery formatBytes claimSql [.s (lockid ⟨412, 140, 1200000000, 7⟩), .d 5]
    Statement.InRange (.claim ⟨412, 140, 1200000000, 7⟩ 5) ∧
      runSql (sentText q) T = some (.updated (claim T (lockid ⟨412, 140, 1200000000, 7⟩) 5)) ∧
      claimIds T 5 = [2, 4] := by
  have hrange : (5 : Nat) < 0x80000000 := by decide
  exact ⟨hrange,
    (statements_run_as_operations (.claim ⟨412, 140, 1200000000, 7⟩ 5) hrange _).2,
    by decide +kernel⟩

end Workq.Jobs
