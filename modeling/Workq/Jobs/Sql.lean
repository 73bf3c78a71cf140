import Workq.Core.Lexer
import Workq.Jobs.Statements

/-!
# The SQL of the jobs table

The fragment of SQL that the program's statements are written in, with its meaning over the
jobs table: updates with assignments, selections of columns and a count, each with a
conjunction of comparisons and, where rows are limited, the order of the key. Comparisons with
NULL are neither true nor false, and a text that is compared with a number is converted to
one.
-/

namespace Workq.Jobs

open Workq.Core

/-- The columns that the statements name. -/
inductive Column where
  | id
  | name
  | data
  | status
  | lockedQueueId
  deriving DecidableEq, Repr

/-- The other words of the fragment. -/
inductive Keyword where
  | update
  | jobs
  | set
  | filter
  | and
  | order
  | by
  | limit
  | select
  | source
  | count
  | alias
  deriving DecidableEq, Repr

/-- The symbols of the fragment. -/
inductive Mark where
  | equals
  | bang
  | comma
  | opening
  | closing
  deriving DecidableEq, Repr

/-- A token with its role. -/
inductive Lexeme where
  | key (k : Keyword)
  | column (c : Column)
  | mark (m : Mark)
  | text (t : List Char)
  | number (i : Int)
  | other (t : Token)
  deriving DecidableEq, Repr

/-- The words that are read as keywords, in lower case. -/
def keywords : List (List Char × Keyword) :=
  [("update".toList, .update), ("jobs".toList, .jobs), ("set".toList, .set),
    ("where".toList, .filter), ("and".toList, .and), ("order".toList, .order),
    ("by".toList, .by), ("limit".toList, .limit), ("select".toList, .select),
    ("from".toList, .source), ("count".toList, .count), ("as".toList, .alias)]

/-- The names of the columns. -/
def columns : List (List Char × Column) :=
  [("id".toList, .id), ("name".toList, .name), ("data".toList, .data),
    ("status".toList, .status), ("locked_queue_id".toList, .lockedQueueId)]

/-- The symbols. -/
def marks : List (Char × Mark) :=
  [('=', .equals), ('!', .bang), (',', .comma), ('(', .opening), (')', .closing)]

/-- Whether a word is a number. -/
def isNumeral : List Char → Bool
  | [] => false
  | c :: _ => c.isDigit || c = '-'

/-- The role of a token. -/
def Lexeme.ofToken : Token → Lexeme
  | .text t => .text t
  | .symbol c => ((marks.lookup c).map Lexeme.mark).getD (.other (.symbol c))
  | .word w =>
    if isNumeral w then .number (leadingInt w)
    else (((keywords.lookup (w.map Char.toLower)).map Lexeme.key).or
      ((columns.lookup (w.map Char.toLower)).map Lexeme.column)).getD (.other (.word w))

/-- A value in a statement. -/
inductive Value where
  | text (t : List Char)
  | number (i : Int)
  deriving DecidableEq, Repr

/-- A comparison with `=` or `!=`. -/
structure Cond where
  column : Column
  equal : Bool
  value : Value
  deriving DecidableEq, Repr

/-- A statement of the fragment. -/
inductive Command where
  | update (sets : List (Column × Value)) (conds : List Cond) (limit : Option Nat)
  | select (cols : List Column) (conds : List Cond) (limit : Option Nat)
  | count (conds : List Cond)
  deriving DecidableEq, Repr

/-- The lexeme as a value. -/
def Lexeme.value? : Lexeme → Option Value
  | .text t => some (.text t)
  | .number i => some (.number i)
  | _ => none

/-- The assignments after `SET`. -/
def parseSets : List Lexeme → Option (List (Column × Value) × List Lexeme)
  | .column c :: .mark .equals :: l :: .mark .comma :: ls =>
    l.value?.bind fun v => (parseSets ls).map fun r => ((c, v) :: r.1, r.2)
  | .column c :: .mark .equals :: l :: ls => l.value?.map fun v => ([(c, v)], ls)
  | _ => none

/-- The comparisons after `WHERE`. -/
def parseConds : List Lexeme → Option (List Cond × List Lexeme)
  | .column c :: .mark .equals :: l :: .key .and :: ls =>
    l.value?.bind fun v => (parseConds ls).map fun r => (⟨c, true, v⟩ :: r.1, r.2)
  | .column c :: .mark .bang :: .mark .equals :: l :: .key .and :: ls =>
    l.value?.bind fun v => (parseConds ls).map fun r => (⟨c, false, v⟩ :: r.1, r.2)
  | .column c :: .mark .equals :: l :: ls => l.value?.map fun v => ([⟨c, true, v⟩], ls)
  | .column c :: .mark .bang :: .mark .equals :: l :: ls =>
    l.value?.map fun v => ([⟨c, false, v⟩], ls)
  | _ => none

/-- The columns after `SELECT`. -/
def parseColumns : List Lexeme → Option (List Column × List Lexeme)
  | .column c :: .mark .comma :: ls => (parseColumns ls).map fun r => (c :: r.1, r.2)
  | .column c :: ls => some ([c], ls)
  | _ => none

/-- The order and the limit at the end; rows are limited in the order of the key only. -/
def parseLimit : List Lexeme → Option (Option Nat)
  | [] | [.key .order, .key .by, .column .id] => some none
  | [.key .order, .key .by, .column .id, .key .limit, .number n] =>
    if 0 ≤ n then some (some n.toNat) else none
  | _ => none

/-- A statement. -/
def parse : List Lexeme → Option Command
  | .key .update :: .key .jobs :: .key .set :: ls =>
    match parseSets ls with
    | some (sets, .key .filter :: ls) =>
      (parseConds ls).bind fun r => (parseLimit r.2).map fun limit => .update sets r.1 limit
    | _ => none
  | .key .select :: .key .count :: .mark .opening :: .column .id :: .mark .closing ::
      .key .alias :: .other _ :: .key .source :: .key .jobs :: .key .filter :: ls =>
    match parseConds ls with
    | some (conds, []) => some (.count conds)
    | _ => none
  | .key .select :: ls =>
    match parseColumns ls with
    | some (cols, .key .source :: .key .jobs :: .key .filter :: ls) =>
      (parseConds ls).bind fun r => (parseLimit r.2).map fun limit => .select cols r.1 limit
    | _ => none
  | _ => none

/-- The text of a status. -/
def Status.text : Status → List Char
  | .pending => "pending".toList
  | .loading => "loading".toList
  | .processing => "processing".toList
  | .complete => "complete".toList
  | .error => "error".toList
  | .other t => t

/-- The status that a text is. -/
def Status.ofText (t : List Char) : Status :=
  if t = "pending".toList then .pending
  else if t = "loading".toList then .loading
  else if t = "processing".toList then .processing
  else if t = "complete".toList then .complete
  else if t = "error".toList then .error
  else .other t

/-- What a row has in a column. -/
inductive Cell where
  | null
  | number (i : Int)
  | text (t : List Char)
  | status (s : Status)
  deriving DecidableEq, Repr

/-- A nullable text. -/
def Cell.ofOption : Option (List Char) → Cell
  | none => .null
  | some t => .text t

def Column.cell (id : JobId) (r : JobRow) : Column → Cell
  | .id => .number id
  | .name => .text r.name
  | .data => .ofOption r.data
  | .status => .status r.status
  | .lockedQueueId => .ofOption r.lockedQueueId

/-- Whether a cell equals a value, `none` for NULL. -/
def Cell.equals : Cell → Value → Option Bool
  | .null, _ => none
  | .number i, .number j => some (i = j)
  | .number i, .text t => some (leadingDecimal t = i)
  | .text s, .text t => some (s = t)
  | .text s, .number j => some (leadingDecimal s = j)
  | .status s, .text t => some (s = Status.ofText t)
  | .status s, .number j => some (leadingDecimal s.text = j)

def Cond.holds (id : JobId) (r : JobRow) (c : Cond) : Bool :=
  (c.column.cell id r).equals c.value = some c.equal

/-- The value as a text. -/
def Value.toText : Value → List Char
  | .text t => t
  | .number i => formatLong i

/-- An assignment; the key is not assigned to. -/
def assign (r : JobRow) (a : Column × Value) : JobRow :=
  match a.1 with
  | .id => r
  | .name => { r with name := a.2.toText }
  | .data => { r with data := some a.2.toText }
  | .status => { r with status := .ofText a.2.toText }
  | .lockedQueueId => { r with lockedQueueId := some a.2.toText }

/-- What a statement does and returns. -/
inductive Outcome where
  | updated (T : JobsTable)
  | rows (rows : List (List Cell))
  | count (n : Nat)

/-- The meaning of a statement. -/
def Command.run (T : JobsTable) : Command → Option Outcome
  | .update sets conds limit =>
    if ∀ a ∈ sets, a.1 ≠ .id then
      some (.updated (T.update (fun id r => conds.all fun c => c.holds id r) limit
        fun r => sets.foldl assign r))
    else none
  | .select cols conds limit =>
    some (.rows ((T.select (fun id r => conds.all fun c => c.holds id r) limit).map
      fun r => cols.map fun c => c.cell r.1 r.2))
  | .count conds =>
    some (.count (T.select (fun id r => conds.all fun c => c.holds id r) none).length)

section Meaning

variable (i : JobId) (r : JobRow)

theorem holds_status {t : List Char} {st : Status} (ht : Status.ofText t = st) :
    Cond.holds i r ⟨.status, true, .text t⟩ = decide (r.status = st) := by
  simp only [Cond.holds, Column.cell, Cell.equals, ht, Option.some.injEq, decide_eq_true_eq]

theorem holds_status_ne {t : List Char} {st : Status} (ht : Status.ofText t = st) :
    Cond.holds i r ⟨.status, false, .text t⟩ = decide (r.status ≠ st) := by
  simp only [Cond.holds, Column.cell, Cell.equals, ht, Option.some.injEq, decide_eq_false_iff_not,
    ne_eq]

theorem holds_lock (t : List Char) :
    Cond.holds i r ⟨.lockedQueueId, true, .text t⟩ = decide (r.lockedQueueId = some t) := by
  cases hlock : r.lockedQueueId with
  | none => simp [Cond.holds, Column.cell, Cell.equals, Cell.ofOption, hlock]
  | some l => simp [Cond.holds, Column.cell, Cell.equals, Cell.ofOption, hlock]

theorem holds_lock_number (j : Int) : Cond.holds i r ⟨.lockedQueueId, true, .number j⟩ =
    decide (∃ l ∈ r.lockedQueueId, leadingDecimal l = j) := by
  cases hlock : r.lockedQueueId with
  | none => simp [Cond.holds, Column.cell, Cell.equals, Cell.ofOption, hlock]
  | some l => simp [Cond.holds, Column.cell, Cell.equals, Cell.ofOption, hlock]

theorem holds_id (id : Int) : Cond.holds i r ⟨.id, true, .number id⟩ = decide (i = id) := by
  simp only [Cond.holds, Column.cell, Cell.equals, Option.some.injEq, decide_eq_true_eq]

theorem ofText_status (st : Status) (hst : ∀ t, st ≠ .other t) : Status.ofText st.text = st := by
  cases st with
  | pending | loading | processing | complete | error => decide +kernel
  | other t => exact absurd rfl (hst t)

variable {T : JobsTable} {conds : List Cond} {p : JobId → JobRow → Bool}
  {sets : List (Column × Value)} {f : JobRow → JobRow}

/-- An update with a known condition and known assignments. -/
theorem run_update {limit : Option Nat} (hkey : ∀ a ∈ sets, a.1 ≠ .id)
    (hconds : ∀ i r, (conds.all fun c => c.holds i r) = p i r)
    (hsets : ∀ r, sets.foldl assign r = f r) :
    Command.run T (.update sets conds limit) = some (.updated (T.update p limit f)) := by
  have hp : (fun i r => conds.all fun c => c.holds i r) = p := funext fun i => funext (hconds i)
  have hf : (fun r => sets.foldl assign r) = f := funext hsets
  rw [Command.run, if_pos hkey, hp, hf]

/-- An update of the row under an id. -/
theorem run_update_key {id : Int} (hkey : ∀ a ∈ sets, a.1 ≠ .id)
    (hsets : ∀ r, sets.foldl assign r = f r) :
    Command.run T (.update sets [⟨.id, true, .number id⟩] none) =
      some (.updated (T.update (fun i _ => decide (i = id)) none f)) := by
  refine run_update hkey ?_ hsets
  intro i r
  rw [List.all_cons, List.all_nil, Bool.and_true, holds_id]

theorem run_select {cols : List Column} {limit : Option Nat}
    (hconds : ∀ i r, (conds.all fun c => c.holds i r) = p i r) :
    Command.run T (.select cols conds limit) =
      some (.rows ((T.select p limit).map fun r => cols.map fun c => c.cell r.1 r.2)) := by
  have hp : (fun i r => conds.all fun c => c.holds i r) = p := funext fun i => funext (hconds i)
  rw [Command.run, hp]

theorem run_count (hconds : ∀ i r, (conds.all fun c => c.holds i r) = p i r) :
    Command.run T (.count conds) = some (.count (T.select p none).length) := by
  have hp : (fun i r => conds.all fun c => c.holds i r) = p := funext fun i => funext (hconds i)
  rw [Command.run, hp]

end Meaning

/-- The lexemes of a text. -/
def lexemesOf (text : List Char) : Option (List Lexeme) :=
  (tokensOf text).map fun ts => ts.map Lexeme.ofToken

/-- The statement that a text is. -/
def readCommand (text : List Char) : Option Command := (lexemesOf text).bind parse

/-- A text as the database runs it. -/
def runSql (text : List Char) (T : JobsTable) : Option Outcome :=
  (readCommand text).bind (Command.run T)

end Workq.Jobs
