import Workq.Adaptor.Row

/-!
# Statements and the query buffer

`query` and `query_with_result` format a statement into `m_query_buffer` and hand the buffer
to the client with the length that `g_vsnprintf` returned. This is the length of the whole
statement, so that a longer one is cut in the buffer but not in its length. Formatting is a
parameter; it is `none` where a conversion fails.
-/

namespace Workq.Adaptor

/-- What `g_vsnprintf` stores, without the terminator, and what it returns. -/
structure Printed where
  stored : Bytes
  size : Int
  deriving DecidableEq

/-- `g_vsnprintf` into a buffer of the given size: it returns the length of the whole text,
or -1 when that is not an `int` or a conversion fails. Such a call has stored what stood before
the conversion; here it stores nothing, which changes neither what it returns nor that the
statement is not whole. -/
def vsnprintf (size : Nat) (text : Option Bytes) : Printed :=
  match text with
  | none => ⟨[], -1⟩
  | some text => ⟨text.take (size - 1), if text.length ≤ 0x7fffffff then text.length else -1⟩

/-- A `gint` passed as an `unsigned long`. -/
def toUnsignedLong (i : Int) : Nat := (i % 0x10000000000000000).toNat

/-- A call of `mysql_real_query`: what was stored in the buffer for it, and the length. -/
structure RealQuery where
  stored : Bytes
  length : Nat
  deriving DecidableEq

section Queries

variable {F A : Type*} (format : F → A → Option Bytes)

/-- `MysqlAdaptor::prepare_query`. -/
def prepareQuery (sql : F) (args : A) : Printed := vsnprintf bufferSize (format sql args)

/-- `mysql_real_query(m_mysql, m_query_buffer, size)` behind the macro `prepare`. -/
def realQuery (sql : F) (args : A) : RealQuery :=
  let p := prepareQuery format sql args
  ⟨p.stored, toUnsignedLong p.size⟩

/-- `MysqlAdaptor::query`: what it returns, and its call of the client, which replies as
given. -/
def query (connected : Bool) (reply : Int) (sql : F) (args : A) : Int × Option RealQuery :=
  if connected then (reply, some (realQuery format sql args)) else (-1, none)

/-- `MysqlAdaptor::query_with_result`: whether it returns an iterator, and its call of the
client, which replies as given. -/
def queryWithResult (connected : Bool) (reply : Int) (sql : F) (args : A) :
    Bool × Option RealQuery :=
  if connected then (reply = 0, some (realQuery format sql args)) else (false, none)

end Queries

/-- The statement and its terminator fit the buffer. -/
def Fits (text : Option Bytes) : Prop := ∃ t ∈ text, t.length < bufferSize

/-- What is sent of a statement is all of it, and a statement that does not fit is reported
as an error and not sent. -/
structure SentWhole (text : Option Bytes) (sent : Option RealQuery) (error : Prop) : Prop where
  whole : ∀ q ∈ sent, q.length ≤ q.stored.length ∧ text = some (q.stored.take q.length)
  refused : ¬ Fits text → error ∧ sent = none

/-- A statement that fits is stored whole, and its length is passed on. -/
theorem realQuery_of_length_lt {F A : Type*} (format : F → A → Option Bytes) {sql : F}
    {args : A} {text : Bytes} (htext : format sql args = some text)
    (hfits : text.length < bufferSize) : realQuery format sql args = ⟨text, text.length⟩ := by
  have hint : text.length ≤ 0x7fffffff := hfits.le.trans (by decide)
  have hstored : text.take (bufferSize - 1) = text :=
    List.take_of_length_le (Nat.le_sub_one_of_lt hfits)
  have hlong : toUnsignedLong text.length = text.length := by
    rw [toUnsignedLong, Int.emod_eq_of_lt (by omega) (by omega), Int.toNat_natCast]
  simp only [realQuery, prepareQuery, htext, vsnprintf]
  rw [if_pos hint, hstored, hlong]

/-- Sending a statement sends all of it exactly if it fits the buffer. -/
theorem sentWhole_realQuery_iff {F A : Type*} (format : F → A → Option Bytes) (sql : F)
    (args : A) (error : Prop) :
    SentWhole (format sql args) (some (realQuery format sql args)) error ↔
      Fits (format sql args) := by
  constructor
  · intro h
    by_contra hfits
    exact Option.some_ne_none _ (h.refused hfits).2
  · intro hfits
    obtain ⟨text, htext, hlt⟩ := id hfits
    refine ⟨?_, fun hno => absurd hfits hno⟩
    rintro q ⟨⟩
    rw [realQuery_of_length_lt format htext hlt, List.take_length]
    exact ⟨le_rfl, htext⟩

/-- Without a connection nothing is sent, and the call fails. -/
theorem sentWhole_none {text : Option Bytes} {error : Prop} (h : error) :
    SentWhole text none error :=
  ⟨fun _ hq => absurd hq (Option.not_mem_none _), fun _ => ⟨h, rfl⟩⟩

/-- Both calls send a statement whole, or refuse it and send nothing, exactly if there is no
connection or the formatted statement has at most 4097 bytes. -/
theorem query_sent_whole_iff {F A : Type*} (format : F → A → Option Bytes) (connected : Bool)
    (reply : Int) (sql : F) (args : A) :
    (SentWhole (format sql args) (query format connected reply sql args).2
        ((query format connected reply sql args).1 ≠ 0) ↔
      connected = false ∨ ∃ text, format sql args = some text ∧ text.length ≤ 4097) ∧
    (SentWhole (format sql args) (queryWithResult format connected reply sql args).2
        ((queryWithResult format connected reply sql args).1 = false) ↔
      connected = false ∨ ∃ text, format sql args = some text ∧ text.length ≤ 4097) := by
  have hfits : Fits (format sql args) ↔
      ∃ text, format sql args = some text ∧ text.length ≤ 4097 := by
    simp only [Fits, Option.mem_def, bufferSize, Nat.lt_succ_iff]
  cases connected with
  | false =>
    simp only [query, queryWithResult, Bool.false_eq_true, if_false, true_or, iff_true]
    exact ⟨sentWhole_none (by decide), sentWhole_none trivial⟩
  | true =>
    simp only [query, queryWithResult, if_true, Bool.true_eq_false, false_or, ← hfits]
    exact ⟨sentWhole_realQuery_iff format sql args _, sentWhole_realQuery_iff format sql args _⟩

/-- A statement without any conversion is its own text. -/
def plainText (sql : Bytes) (_ : Unit) : Option Bytes := some sql

/-- A statement of 4098 bytes: the client is told to read more than what was stored. -/
theorem query_reads_past_what_is_stored :
    ∃ q, (query plainText true 0 (List.replicate 4098 0x61) ()).2 = some q ∧
      q.stored.length = 4097 ∧ q.length = 4098 ∧
      ¬ SentWhole (plainText (List.replicate 4098 0x61) ())
        (query plainText true 0 (List.replicate 4098 0x61) ()).2
        ((query plainText true 0 (List.replicate 4098 0x61) ()).1 ≠ 0) := by
  have hlen := List.length_replicate (n := 4098) (a := (0x61 : UInt8))
  have hstored : (realQuery plainText (List.replicate 4098 0x61) ()).stored.length = 4097 := by
    simp only [realQuery, prepareQuery, plainText, vsnprintf, List.length_take, hlen]
    decide
  have hlength : (realQuery plainText (List.replicate 4098 0x61) ()).length = 4098 := by
    simp only [realQuery, prepareQuery, plainText, vsnprintf, hlen]
    decide
  refine ⟨_, rfl, hstored, hlength, ?_⟩
  intro h
  have hle := (h.whole _ rfl).1
  rw [hstored, hlength] at hle
  exact absurd hle (by decide)

end Workq.Adaptor
