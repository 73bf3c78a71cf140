import Mathlib.Data.List.TakeDrop
import Workq.Core.CString
import Workq.Core.LastWrite

/-!
# Rows of a result set

`create_column` prints each field into the adaptor's query buffer, with a precision taken
from the field's metadata, and copies what it finds there. The copy outlives the buffer's
next use, but what does not fit the buffer never gets into it, and a NULL field is printed
like any other.
-/

namespace Workq.Adaptor

open Workq.Core

/-- The bytes of a C string, without its terminator. -/
abbrev Bytes := List UInt8

/-- `sizeof(m_query_buffer)`. -/
def bufferSize : Nat := 4098

/-- The column types that `create_column` tells apart. -/
inductive FieldType where
  | decimal | newDecimal | tiny | short | long | longLong | int24
  | float | double
  | null
  | timestamp | date | time | datetime | newDate | year | enum | set
  | tinyBlob | mediumBlob | longBlob | blob | varString | string
  | geometry | bit
  deriving DecidableEq, Repr

/-- The metadata of a field. -/
structure Field where
  name : List Char
  type : FieldType
  /-- The field's `length`, an `unsigned long`. -/
  length : Nat
  deriving DecidableEq, Repr

/-- A field of one row as `mysql_fetch_row` returns it, `none` for SQL NULL. -/
structure Column where
  field : Field
  value : Option Bytes
  deriving DecidableEq, Repr

/-- A column of `MyRow`: its `ColType` with the member of the union that it has. The number
of a numeric column is kept as the text given to `atof`. -/
inductive Col where
  | fixed (value : Int)
  | numeric (text : Bytes)
  | string (value : Bytes)
  | undefined
  deriving DecidableEq, Repr

/-- The precision that `%.*s` takes from the field's length: the argument is read as an
`int`, and a negative one counts as absent. -/
def precision (length : Nat) : Option Nat :=
  let p := (length : Int).bmod 0x100000000
  if p < 0 then none else some p.toNat

/-- The part of a text that a precision lets through. -/
def limited (p : Option Nat) (s : Bytes) : Bytes :=
  match p with
  | none => s
  | some n => s.take n

/-- `atol` on the buffer. -/
def atol (s : Bytes) : Int :=
  max longMin (min longMax (leadingInt (s.map fun b => Char.ofNat b.toNat)))

section Rows

-- What the C library prints for a NULL pointer under a precision, and the buffer's size.
variable (nullText : Option Nat → Bytes) (size : Nat)

/-- `g_snprintf(buffer, size, "%.*s", field->length, row_field)`: the text left in the
buffer. -/
def printField (c : Column) : Bytes :=
  let p := precision c.field.length
  let text := match c.value with
    | none => nullText p
    | some v => limited p (v.takeWhile (· ≠ 0))
  text.take (size - 1)

/-- `MyRow::create_column`: the column and the text left in the buffer. -/
def createColumn (c : Column) : Col × Bytes :=
  let buffer := printField nullText size c
  match c.field.type with
  | .decimal | .newDecimal | .tiny | .short | .long | .longLong | .int24 =>
    (.fixed (atol buffer), buffer)
  | .float | .double => (.numeric buffer, buffer)
  | .tinyBlob | .mediumBlob | .longBlob | .blob | .varString | .string =>
    (.string (buffer.takeWhile (· ≠ 0)), buffer)
  | .null | .timestamp | .date | .time | .datetime | .newDate | .year | .enum | .set
  | .geometry | .bit => (.undefined, buffer)

/-- The columns of a `MyRow` by name. -/
abbrev MyRow := AList fun _ : List Char => Col

/-- The constructor of `MyRow`; a later column replaces an earlier one of the same name. -/
def newRow (columns : List Column) : MyRow :=
  insertAll (columns.map fun c => (c.field.name, (createColumn nullText size c).1)) ∅

/-- `MyRow::str_field`. -/
def MyRow.strField (row : MyRow) (col : List Char) : Option Bytes :=
  match row.lookup col with
  | some (.string v) => some v
  | _ => none

/-- An adaptor's query buffer, and the rows built from its results so far. -/
structure Session where
  buffer : Bytes
  rows : List MyRow

/-- What is done with an adaptor. -/
inductive SessionEvent where
  /-- `query` or `query_with_result` with a formatted statement. -/
  | query (sql : Bytes)
  /-- `begin` or `next` of an iterator, with the row it fetches. -/
  | fetch (columns : List Column)
  deriving DecidableEq, Repr

/-- `prepare_query` reuses the buffer; building a row leaves its last field there. -/
def Session.step (s : Session) : SessionEvent → Session
  | .query sql => { s with buffer := sql.take (size - 1) }
  | .fetch columns =>
    ⟨(columns.getLast?.map fun c => (createColumn nullText size c).2).getD s.buffer,
      s.rows ++ [newRow nullText size columns]⟩

/-- The value that the row with the given index has for a column. -/
def Session.strField (s : Session) (i : Nat) (col : List Char) : Option Bytes :=
  (s.rows[i]?).bind fun row => row.strField col

end Rows

/-- A value of a TEXT column that is not NULL. -/
abbrev TextValue := { v : Bytes // 0 ∉ v ∧ v.length ≤ 65535 }

/-- The metadata of the column `data`; TEXT columns have the type `blob`. -/
def dataField (length : Nat) : Field := ⟨"data".toList, .blob, length⟩

section Data

variable {nullText : Option Nat → Bytes} {size : Nat}

/-- The last column of a name is the one that a row has. -/
theorem lookup_newRow (nullText : Option Nat → Bytes) (size : Nat) (before : List Column)
    {after : List Column} {c : Column} (hafter : ∀ d ∈ after, d.field.name ≠ c.field.name) :
    (newRow nullText size (before ++ c :: after)).lookup c.field.name =
      some (createColumn nullText size c).1 := by
  rw [newRow, lookup_insertAll_empty]
  refine ⟨before.map fun d => (d.field.name, (createColumn nullText size d).1),
    after.map fun d => (d.field.name, (createColumn nullText size d).1), ?_, ?_⟩
  · rw [List.map_append, List.map_cons]
  · intro e he
    obtain ⟨d, hd, rfl⟩ := List.mem_map.mp he
    exact hafter d hd

theorem takeWhile_ne_zero {v : Bytes} (h : 0 ∉ v) : v.takeWhile (· ≠ 0) = v := by
  rw [List.takeWhile_eq_self_iff]
  intro b hb
  simp only [ne_eq, decide_eq_true_eq]
  exact fun h0 => h (h0 ▸ hb)

theorem mem_of_mem_limited {p : Option Nat} {s : Bytes} {b : UInt8} (h : b ∈ limited p s) :
    b ∈ s := by
  cases p with
  | none => exact h
  | some n => exact List.mem_of_mem_take h

/-- What is left of a value of the column `data`. -/
theorem createColumn_data {v : Bytes} (hv : 0 ∉ v) (length : Nat) :
    (createColumn nullText size ⟨dataField length, some v⟩).1 =
      .string ((limited (precision length) v).take (size - 1)) := by
  have hprint : printField nullText size ⟨dataField length, some v⟩ =
      (limited (precision length) v).take (size - 1) := by
    simp only [printField, takeWhile_ne_zero hv]
    rfl
  have hzero : 0 ∉ (limited (precision length) v).take (size - 1) := fun h =>
    hv (mem_of_mem_limited (List.mem_of_mem_take h))
  have hblob : (createColumn nullText size ⟨dataField length, some v⟩).1 =
      .string ((printField nullText size ⟨dataField length, some v⟩).takeWhile (· ≠ 0)) := rfl
  rw [hblob, hprint, takeWhile_ne_zero hzero]

/-- Cutting to the precision and to the buffer leaves a value whole exactly if it is as
short as both. -/
theorem limited_take_eq_self {p : Option Nat} {v : Bytes} {n : Nat} :
    (limited p v).take n = v ↔ v.length ≤ n ∧ ∀ m, p = some m → v.length ≤ m := by
  cases p with
  | none =>
    simp only [limited, List.take_eq_self_iff, reduceCtorEq, false_implies, implies_true, and_true]
  | some m =>
    simp only [limited, List.take_take, List.take_eq_self_iff, Option.some.injEq, forall_eq']
    exact le_min_iff

/-- Rows that were built stay as they are. -/
theorem Session.rows_kept (nullText : Option Nat → Bytes) (size : Nat) (s : Session)
    (es : List SessionEvent) :
    s.rows <+: (es.foldl (Session.step nullText size) s).rows := by
  induction es generalizing s with
  | nil => exact List.prefix_refl _
  | cons e es ih =>
    refine List.IsPrefix.trans ?_ (ih (s.step nullText size e))
    cases e with
    | query sql => exact List.prefix_refl _
    | fetch columns => exact List.prefix_append _ _

/-- What a fetched row shows after any further use of the adaptor. -/
theorem Session.strField_fetch (s : Session) (columns : List Column) (es : List SessionEvent)
    (col : List Char) :
    (es.foldl (Session.step nullText size) (s.step nullText size (.fetch columns))).strField
      s.rows.length col = (newRow nullText size columns).strField col := by
  obtain ⟨more, hmore⟩ := (s.step nullText size (.fetch columns)).rows_kept nullText size es
  rw [Session.strField, ← hmore]
  simp [Session.step]

/-- What `str_field` shows of a value of the column `data`, or of NULL there. -/
theorem strField_data (before : List Column) {after : List Column}
    (hafter : ∀ c ∈ after, c.field.name ≠ "data".toList) (length : Nat) {v : Option Bytes}
    (hv : ∀ b ∈ v, 0 ∉ b) :
    (newRow nullText size (before ++ ⟨dataField length, v⟩ :: after)).strField "data".toList = v ↔
      ∃ b, v = some b ∧ b.length ≤ size - 1 ∧ ∀ n, precision length = some n → b.length ≤ n := by
  have hlookup := lookup_newRow nullText size before (c := ⟨dataField length, v⟩) hafter
  have hstring : ∀ b, (createColumn nullText size ⟨dataField length, v⟩).1 = .string b →
      (newRow nullText size (before ++ ⟨dataField length, v⟩ :: after)).strField
        "data".toList = some b := by
    intro b hb
    rw [hb] at hlookup
    rw [MyRow.strField, show "data".toList = (dataField length).name from rfl, hlookup]
  cases v with
  | none =>
    -- the text printed for a NULL pointer is a string like any other
    rw [hstring _ rfl]
    simp
  | some b =>
    rw [hstring _ (createColumn_data (hv b rfl) length), Option.some.injEq, limited_take_eq_self]
    simp

/-- The job's data reaches the job unchanged, and stays so whatever is done with the adaptor
afterwards, exactly if it is not NULL and fits the query buffer and the field's length. -/
theorem job_data_unchanged_iff (nullText : Option Nat → Bytes) (s : Session)
    (before : List Column) {after : List Column}
    (hafter : ∀ c ∈ after, c.field.name ≠ "data".toList) (length : Nat) (v : Option TextValue) :
    (∀ es : List SessionEvent,
      (es.foldl (Session.step nullText bufferSize) (s.step nullText bufferSize
        (.fetch (before ++ ⟨dataField length, v.map Subtype.val⟩ :: after)))).strField
          s.rows.length "data".toList = v.map Subtype.val) ↔
      ∃ w, v = some w ∧ w.1.length ≤ 4097 ∧ ∀ n, precision length = some n → w.1.length ≤ n := by
  have hv : ∀ b ∈ v.map Subtype.val, 0 ∉ b := by
    intro b hb
    obtain ⟨w, _, rfl⟩ := Option.mem_map.mp hb
    exact w.2.1
  simp only [Session.strField_fetch, forall_const]
  rw [strField_data before hafter length hv]
  constructor
  · rintro ⟨b, hb, hlen⟩
    obtain ⟨w, rfl, rfl⟩ := Option.map_eq_some_iff.mp hb
    exact ⟨w, rfl, hlen⟩
  · rintro ⟨w, rfl, hlen⟩
    exact ⟨w.1, rfl, hlen⟩

end Data

/-- What the GNU C library prints for a NULL pointer: nothing when it does not fit. -/
def gnuNullText : Option Nat → Bytes
  | some n => if n < 6 then [] else "(null)".toUTF8.toList
  | none => "(null)".toUTF8.toList

/-- The first two columns of the `SELECT` of `find_jobs`, in a row with the id 1. -/
def idAndName : List Column :=
  [⟨⟨"id".toList, .long, 11⟩, some [0x31]⟩, ⟨⟨"name".toList, .varString, 765⟩, some [0x72]⟩]

/-- The columns of such a row. -/
def jobColumns (data : Option Bytes) : List Column := idAndName ++ [⟨dataField 65535, data⟩]

/-- A short value is still there after the next query. -/
theorem job_data_unchanged_short :
    ([.query [0x53]].foldl (Session.step gnuNullText bufferSize) (Session.step gnuNullText
      bufferSize ⟨[], []⟩ (.fetch (jobColumns (some [0x7b, 0x7d]))))).strField 0 "data".toList =
        some [0x7b, 0x7d] := by
  have hshort : precision 65535 = some 65535 := by decide +kernel
  refine (job_data_unchanged_iff gnuNullText ⟨[], []⟩ idAndName
    (fun c hc => absurd hc List.not_mem_nil) 65535 (some ⟨[0x7b, 0x7d], by decide⟩)).mpr
    ⟨_, rfl, by decide, ?_⟩ [.query [0x53]]
  intro n hn
  rw [hshort] at hn
  rw [← Option.some.inj hn]
  decide

/-- A NULL arrives as the text `(null)`, and a value of 4098 bytes without its last one. -/
theorem job_data_changed :
    (Session.step gnuNullText bufferSize ⟨[], []⟩ (.fetch (jobColumns none))).strField 0
      "data".toList = some "(null)".toUTF8.toList ∧
    (Session.step gnuNullText bufferSize ⟨[], []⟩
      (.fetch (jobColumns (some (List.replicate 4098 0x61))))).strField 0 "data".toList ≠
        some (List.replicate 4098 0x61) := by
  refine ⟨by decide +kernel, ?_⟩
  intro h
  have hv : ∀ b ∈ some (List.replicate 4098 (0x61 : UInt8)), 0 ∉ b := by
    intro b hb h0
    rw [← Option.some.inj hb] at h0
    exact absurd (List.eq_of_mem_replicate h0) (by decide)
  have hrow := ((Session.mk [] []).strField_fetch (jobColumns _) [] "data".toList).symm.trans h
  obtain ⟨b, hb, hlen, _⟩ := (strField_data idAndName
    (fun c hc => absurd hc List.not_mem_nil) 65535 hv).mp hrow
  rw [← Option.some.inj hb, List.length_replicate] at hlen
  exact absurd hlen (by decide)

end Workq.Adaptor
