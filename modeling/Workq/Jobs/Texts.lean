import Workq.Adaptor.Query
import Workq.Jobs.Sql

/-!
# The texts of the statements

Every statement of the workers and of the server's poll is a format string of the source with
its arguments, formatted into the query buffer. For all arguments that the calls can pass, the
text fits the buffer, and it is read as one command of the fragment: a lock id never ends its
quotes, and a number is read back.
-/

namespace Workq.Jobs

open Workq.Core
open Workq.Adaptor (Bytes bufferSize)

/-- The statements of `find_jobs`, `run` and `idle_jobcheck`, with their arguments. -/
inductive Statement where
  | claim (stamp : Stamp) (workload : Nat)
  | fetch (stamp : Stamp) (workload : Nat)
  | release (stamp : Stamp)
  /-- The row that no job was made for. -/
  | discard (id : Int)
  | mark (id : Int)
  | complete (id : Int)
  /-- The row of a failed job. -/
  | fail (id : Int)
  | count
  deriving DecidableEq, Repr

section Formats

/-! The format strings of the source, as they stand there. -/

/-- `find_jobs`, when it claims its rows. -/
def claimSql : List Char :=
  "UPDATE jobs SET locked_queue_id='%s', status='loading' ".toList ++
    "WHERE status='pending' AND locked_queue_id='' ORDER BY id LIMIT %d".toList

/-- `find_jobs`, when it reads the rows it claimed. -/
def fetchSql : List Char :=
  "SELECT id, name, data FROM jobs ".toList ++
    "WHERE status='loading' AND locked_queue_id='%s' ORDER BY id LIMIT %d".toList

/-- `find_jobs`, when the rows it claimed could not be read. -/
def releaseSql : List Char :=
  "UPDATE jobs SET locked_queue_id='' WHERE status!='pending' AND ".toList ++
    "locked_queue_id='%s' ORDER BY id".toList

/-- `find_jobs`, for a row of an unknown type or without a job. -/
def discardSql : List Char :=
  "UPDATE jobs SET status='error', locked_queue_id='' WHERE id=%d ORDER BY id".toList

/-- `find_jobs`, before a job is executed. -/
def markSql : List Char := "UPDATE jobs SET status='processing' WHERE id=%d".toList

/-- `run`, after a job that succeeded. -/
def completeSql : List Char :=
  "UPDATE jobs SET locked_queue_id='', status='complete' WHERE id=%d ORDER BY id".toList

/-- `run`, after a job that failed. -/
def failSql : List Char :=
  "UPDATE jobs SET locked_queue_id='', status='error' WHERE id=%d ORDER BY id".toList

/-- `count_select_sql`, the server's poll. The empty lock id is compared with a number. -/
def countSelectSql : List Char :=
  "select count(id) as pending from jobs where status='pending' and locked_queue_id=0".toList

end Formats

/-- The format string of a statement. -/
def Statement.sql : Statement → List Char
  | .claim _ _ => claimSql
  | .fetch _ _ => fetchSql
  | .release _ => releaseSql
  | .discard _ => discardSql
  | .mark _ => markSql
  | .complete _ => completeSql
  | .fail _ => failSql
  | .count => countSelectSql

/-- The arguments that the calls pass. -/
def Statement.args : Statement → List Arg
  | .claim stamp workload | .fetch stamp workload => [.s (lockid stamp), .d workload]
  | .release stamp => [.s (lockid stamp)]
  | .discard id | .mark id | .complete id | .fail id => [.d id]
  | .count => []

/-- The arguments that the calls can pass: job ids and workloads are an `int`. -/
def Statement.InRange : Statement → Prop
  | .claim _ workload | .fetch _ workload => workload < 0x80000000
  | .discard id | .mark id | .complete id | .fail id => -0x80000000 ≤ id ∧ id < 0x80000000
  | .release _ | .count => True

section Pieces

/-! What stands before, between and after the arguments of the formats. -/

/-- A claim up to its lock id. -/
def claimHead : List Char := "UPDATE jobs SET locked_queue_id='".toList

/-- A claim from its lock id to its limit. -/
def claimTail : List Char :=
  ", status='loading' WHERE status='pending' AND locked_queue_id='' ORDER BY id LIMIT ".toList

/-- A fetch up to its lock id. -/
def fetchHead : List Char :=
  "SELECT id, name, data FROM jobs WHERE status='loading' AND locked_queue_id='".toList

/-- A fetch from its lock id to its limit. -/
def fetchTail : List Char := " ORDER BY id LIMIT ".toList

/-- A release up to its lock id. -/
def releaseHead : List Char :=
  "UPDATE jobs SET locked_queue_id='' WHERE status!='pending' AND locked_queue_id='".toList

/-- A discard up to its row's id. -/
def discardHead : List Char :=
  "UPDATE jobs SET status='error', locked_queue_id='' WHERE id=".toList

/-- The mark of a row up to the row's id. -/
def markHead : List Char := "UPDATE jobs SET status='processing' WHERE id=".toList

/-- The report of a success up to the row's id. -/
def completeHead : List Char :=
  "UPDATE jobs SET locked_queue_id='', status='complete' WHERE id=".toList

/-- The report of a failure up to the row's id. -/
def failHead : List Char :=
  "UPDATE jobs SET locked_queue_id='', status='error' WHERE id=".toList

/-- The order that ends most statements. -/
def orderTail : List Char := "ORDER BY id".toList

end Pieces

/-- A statement as it is formatted. -/
def Statement.text : Statement → List Char
  | .claim stamp workload =>
    claimHead ++ (lockid stamp ++ quote :: (claimTail ++ formatLong workload))
  | .fetch stamp workload =>
    fetchHead ++ (lockid stamp ++ quote :: (fetchTail ++ formatLong workload))
  | .release stamp => releaseHead ++ (lockid stamp ++ quote :: ' ' :: orderTail)
  | .discard id => discardHead ++ (formatLong id ++ ' ' :: orderTail)
  | .mark id => markHead ++ formatLong id
  | .complete id => completeHead ++ (formatLong id ++ ' ' :: orderTail)
  | .fail id => failHead ++ (formatLong id ++ ' ' :: orderTail)
  | .count => countSelectSql

/-- What a text says, as a command. -/
def Statement.command : Statement → Command
  | .claim stamp workload =>
    .update [(.lockedQueueId, .text (lockid stamp)), (.status, .text "loading".toList)]
      [⟨.status, true, .text "pending".toList⟩, ⟨.lockedQueueId, true, .text []⟩] (some workload)
  | .fetch stamp workload =>
    .select [.id, .name, .data]
      [⟨.status, true, .text "loading".toList⟩, ⟨.lockedQueueId, true, .text (lockid stamp)⟩]
      (some workload)
  | .release stamp =>
    .update [(.lockedQueueId, .text [])]
      [⟨.status, false, .text "pending".toList⟩, ⟨.lockedQueueId, true, .text (lockid stamp)⟩] none
  | .discard id =>
    .update [(.status, .text "error".toList), (.lockedQueueId, .text [])]
      [⟨.id, true, .number id⟩] none
  | .mark id => .update [(.status, .text "processing".toList)] [⟨.id, true, .number id⟩] none
  | .complete id =>
    .update [(.lockedQueueId, .text []), (.status, .text "complete".toList)]
      [⟨.id, true, .number id⟩] none
  | .fail id =>
    .update [(.lockedQueueId, .text []), (.status, .text "error".toList)]
      [⟨.id, true, .number id⟩] none
  | .count => .count [⟨.status, true, .text "pending".toList⟩, ⟨.lockedQueueId, true, .number 0⟩]

section Arguments

/-- Texts of one byte for each character. -/
def Ascii (s : List Char) : Prop := ∀ c ∈ s, c.toNat < 128

instance (s : List Char) : Decidable (Ascii s) :=
  List.decidableBAll (p := fun c : Char => c.toNat < 128) s

@[simp] theorem ascii_append {s t : List Char} : Ascii (s ++ t) ↔ Ascii s ∧ Ascii t :=
  List.forall_mem_append

@[simp] theorem ascii_cons {c : Char} {s : List Char} :
    Ascii (c :: s) ↔ c.toNat < 128 ∧ Ascii s :=
  List.forall_mem_cons

/-- The bytes of a text. -/
def bytesOf (s : List Char) : Bytes := s.map fun c => UInt8.ofNat c.toNat

/-- The text that bytes spell. -/
def charsOf (b : Bytes) : List Char := b.map fun u => Char.ofNat u.toNat

/-- An ASCII text is spelled by its bytes. -/
theorem charsOf_bytesOf {s : List Char} (hs : Ascii s) : charsOf (bytesOf s) = s := by
  rw [charsOf, bytesOf, List.map_map]
  refine (List.map_congr_left ?_).trans (List.map_id s)
  intro c hc
  have hbyte : (UInt8.ofNat c.toNat).toNat = c.toNat :=
    UInt8.toNat_ofNat_of_lt' ((hs c hc).trans (by decide))
  rw [Function.comp_apply, hbyte, Char.ofNat_toNat]
  rfl

/-- A lock id is made of digits, signs and colons, also when it is cut. -/
theorem quote_notMem_lockid (stamp : Stamp) : quote ∉ lockid stamp := by
  have hformat : ∀ i, quote ∉ formatLong i := notMem_formatLong (by decide) (by decide)
  have hcolon : quote ≠ ':' := by decide
  intro h
  have h' := List.mem_of_mem_take h
  simp only [List.mem_append, List.mem_cons, hformat, hcolon, or_self] at h'

/-- A formatted number is one word for the lexer. -/
theorem isWordChar_formatLong (i : Int) : ∀ c ∈ formatLong i, isWordChar c = true := by
  intro c hc
  by_contra hword
  simp only [isWordChar, Char.isAlphanum, Bool.or_eq_true, decide_eq_true_eq, not_or,
    Bool.not_eq_true] at hword
  exact notMem_formatLong hword.1.1.2 hword.2 i hc

/-- A formatted number is ASCII. -/
theorem ascii_formatLong (i : Int) : Ascii (formatLong i) := by
  intro c hc
  by_contra hlarge
  refine notMem_formatLong (c := c) ?_ ?_ i hc
  · by_contra hdigit
    simp only [Char.isDigit, Bool.and_eq_true, decide_eq_true_eq, Bool.not_eq_false] at hdigit
    exact hlarge (lt_of_le_of_lt (UInt32.le_iff_toNat_le.mp hdigit.2) (by decide))
  · rintro rfl
    exact hlarge (by decide)

/-- A lock id is ASCII. -/
theorem ascii_lockid (stamp : Stamp) : Ascii (lockid stamp) := by
  have hcolon : (':' : Char).toNat < 128 := by decide
  have hall : Ascii (formatLong stamp.pidId ++ ':' :: formatLong stamp.threadId ++
      ':' :: formatLong stamp.tvSec ++ ':' :: formatLong stamp.tvUsec) := by
    simp only [ascii_append, ascii_cons, ascii_formatLong, hcolon, and_self]
  exact fun c hc => hall c (List.mem_of_mem_take hc)

/-- A formatted number is read back. -/
theorem ofToken_formatLong (i : Int) : Lexeme.ofToken (.word (formatLong i)) = .number i := by
  have hnumeral : isNumeral (formatLong i) = true := by
    cases h : formatLong i with
    | nil => exact absurd h (formatLong_ne_nil i)
    | cons c cs =>
      by_contra hnot
      simp only [isNumeral, Bool.or_eq_true, decide_eq_true_eq, not_or, Bool.not_eq_true] at hnot
      refine notMem_formatLong hnot.1 hnot.2 i ?_
      rw [h]
      exact List.mem_cons_self ..
  rw [Lexeme.ofToken, if_pos hnumeral, leadingInt_formatLong]

/-- The lock buffer has 40 bytes, one of them for the terminator. -/
theorem length_lockid_le (stamp : Stamp) : (lockid stamp).length ≤ 39 := by
  rw [lockid, snprintf, List.length_take]
  exact min_le_left _ _

/-- A `gint` has at most ten digits and a sign. -/
theorem length_formatLong_int {i : Int} (hlow : -0x80000000 ≤ i) (hhigh : i < 0x80000000) :
    (formatLong i).length ≤ 11 := by
  have hpos : ∀ j : Int, 0 ≤ j → j ≤ 0x80000000 → (formatLong j).length ≤ 10 := fun j h0 hj =>
    length_formatLong_le h0 (by decide) (lt_of_le_of_lt hj (by decide))
  cases i with
  | ofNat n => exact (hpos (.ofNat n) (Int.natCast_nonneg n) hhigh.le).trans (by decide)
  | negSucc n =>
    have hle : ((n + 1 : Nat) : Int) ≤ 0x80000000 := by omega
    exact Nat.succ_le_succ (hpos (n + 1 : Nat) (Int.natCast_nonneg _) hle)

end Arguments

section Reading

/-- The lexemes of a piece of text, and what it leaves open. -/
def opens (a : List Char) : List Lexeme × Reading :=
  ((Lexer.ofText a).tokens.map Lexeme.ofToken, (Lexer.ofText a).reading)

/-- A piece of a format that is copied, what is read of it, and what it leaves open. -/
structure Piece (a : List Char) (ls : List Lexeme) (r : Reading) : Prop where
  plain : '%' ∉ a
  opens : opens a = (ls, r)
  ascii : Ascii a
  short : a.length ≤ 100

instance (a : List Char) (ls : List Lexeme) (r : Reading) : Decidable (Piece a ls r) :=
  decidable_of_iff ('%' ∉ a ∧ opens a = (ls, r) ∧ Ascii a ∧ a.length ≤ 100)
    ⟨fun h => ⟨h.1, h.2.1, h.2.2.1, h.2.2.2⟩, fun h => ⟨h.plain, h.opens, h.ascii, h.short⟩⟩

variable {a b s : List Char} {before after : List Lexeme} {r : Reading} {c : Command}

/-- A conversion at the end of a format. -/
theorem printf_last (i : Int) : printf ['%', 'd'] [.d i] = some (formatLong i) := by
  rw [printf, printf, Option.map_some, List.append_nil]

/-- A text without quotes that is put between quotes is read as one text, and the rest of the
statement as if it stood alone. -/
theorem lexemesOf_quoted (ha : opens a = (before, .text [])) (hs : quote ∉ s) :
    lexemesOf (a ++ (s ++ quote :: b)) =
      (lexemesOf b).map fun ls => before ++ .text s :: ls := by
  obtain ⟨rfl, hopen⟩ := Prod.mk.inj ha
  rw [lexemesOf, tokensOf, Lexer.ofText_quoted hopen hs, Lexer.finish_after, lexemesOf, tokensOf,
    Option.map_map, Option.map_map]
  congr 1
  funext ts
  simp only [Function.comp_apply, List.map_append, List.map_cons, List.append_assoc,
    List.singleton_append, Lexeme.ofToken]

/-- A number at the end of a statement. -/
theorem lexemesOf_number (ha : opens a = (before, .gap)) (i : Int) :
    lexemesOf (a ++ formatLong i) = some (before ++ [.number i]) := by
  obtain ⟨rfl, hopen⟩ := Prod.mk.inj ha
  rw [lexemesOf, tokensOf,
    Lexer.ofText_last_word hopen (isWordChar_formatLong i) (formatLong_ne_nil i), Lexer.finish,
    Option.map_some, List.map_append, List.map_singleton, ofToken_formatLong]

/-- A number inside a statement. -/
theorem lexemesOf_number_then (ha : opens a = (before, .gap)) (i : Int) :
    lexemesOf (a ++ (formatLong i ++ ' ' :: b)) =
      (lexemesOf b).map fun ls => before ++ .number i :: ls := by
  obtain ⟨rfl, hopen⟩ := Prod.mk.inj ha
  rw [lexemesOf, tokensOf,
    Lexer.ofText_inner_word hopen (isWordChar_formatLong i) (formatLong_ne_nil i),
    Lexer.finish_after, lexemesOf, tokensOf, Option.map_map, Option.map_map]
  congr 1
  funext ts
  simp only [Function.comp_apply, List.map_append, List.map_cons, List.append_assoc,
    List.singleton_append, ofToken_formatLong]

/-- What a format and its arguments give, what is read of it, and that it can be sent. -/
structure Reads (sql : List Char) (args : List Arg) (text : List Char) (c : Command) : Prop where
  printed : printf sql args = some text
  read : readCommand text = some c
  ascii : Ascii text
  short : text.length < bufferSize

end Reading

section Evaluation

/-- What is read of the fixed pieces. -/
structure Pieces : Prop where
  claim : Piece claimHead [.key .update, .key .jobs, .key .set, .column .lockedQueueId,
    .mark .equals] (.text [])
  claimLimit : Piece claimTail [.mark .comma, .column .status, .mark .equals,
    .text "loading".toList, .key .filter, .column .status, .mark .equals, .text "pending".toList,
    .key .and, .column .lockedQueueId, .mark .equals, .text [], .key .order, .key .by,
    .column .id, .key .limit] .gap
  fetch : Piece fetchHead [.key .select, .column .id, .mark .comma, .column .name, .mark .comma,
    .column .data, .key .source, .key .jobs, .key .filter, .column .status, .mark .equals,
    .text "loading".toList, .key .and, .column .lockedQueueId, .mark .equals] (.text [])
  fetchLimit : Piece fetchTail [.key .order, .key .by, .column .id, .key .limit] .gap
  release : Piece releaseHead [.key .update, .key .jobs, .key .set, .column .lockedQueueId,
    .mark .equals, .text [], .key .filter, .column .status, .mark .bang, .mark .equals,
    .text "pending".toList, .key .and, .column .lockedQueueId, .mark .equals] (.text [])
  discard : Piece discardHead [.key .update, .key .jobs, .key .set, .column .status,
    .mark .equals, .text "error".toList, .mark .comma, .column .lockedQueueId, .mark .equals,
    .text [], .key .filter, .column .id, .mark .equals] .gap
  mark : Piece markHead [.key .update, .key .jobs, .key .set, .column .status, .mark .equals,
    .text "processing".toList, .key .filter, .column .id, .mark .equals] .gap
  complete : Piece completeHead [.key .update, .key .jobs, .key .set, .column .lockedQueueId,
    .mark .equals, .text [], .mark .comma, .column .status, .mark .equals,
    .text "complete".toList, .key .filter, .column .id, .mark .equals] .gap
  fail : Piece failHead [.key .update, .key .jobs, .key .set, .column .lockedQueueId,
    .mark .equals, .text [], .mark .comma, .column .status, .mark .equals, .text "error".toList,
    .key .filter, .column .id, .mark .equals] .gap
  order : lexemesOf orderTail = some [.key .order, .key .by, .column .id]
  orderPlain : '%' ∉ quote :: ' ' :: orderTail
  orderAscii : Ascii (' ' :: orderTail)
  orderLength : orderTail.length = 11
  count : Reads countSelectSql [] countSelectSql Statement.count.command

/-! A literal is turned into its characters before it is evaluated: evaluating it is slow. -/

/-- A piece that is checked by its characters. -/
theorem Piece.of_chars {cs : List Char} {ls : List Lexeme} {r : Reading} (h : Piece cs ls r) :
    Piece (String.ofList cs).toList ls r := by
  rwa [String.toList_ofList]

/-- A literal that begins with another one. -/
theorem literal_eq {cs head rest : List Char} (h : cs = head ++ rest) :
    (String.ofList cs).toList = (String.ofList head).toList ++ rest := by
  rw [String.toList_ofList, String.toList_ofList, h]

/-- Two adjacent literals that begin with another one. -/
theorem literals_eq {cs ds head rest : List Char} (h : cs ++ ds = head ++ rest) :
    (String.ofList cs).toList ++ (String.ofList ds).toList =
      (String.ofList head).toList ++ rest := by
  rw [String.toList_ofList, String.toList_ofList, ← @String.toList_ofList (cs ++ ds),
    literal_eq h]

/-- The fixed pieces are read as listed. -/
theorem pieces : Pieces where
  claim := .of_chars (by decide +kernel)
  claimLimit := .of_chars (by decide +kernel)
  fetch := .of_chars (by decide +kernel)
  fetchLimit := .of_chars (by decide +kernel)
  release := .of_chars (by decide +kernel)
  discard := .of_chars (by decide +kernel)
  mark := .of_chars (by decide +kernel)
  complete := .of_chars (by decide +kernel)
  fail := .of_chars (by decide +kernel)
  order := by decide +kernel
  orderPlain := by decide +kernel
  orderAscii := by decide +kernel
  orderLength := by decide +kernel
  count := by
    have hchars : countSelectSql = _ := String.toList_ofList
    rw [hchars]
    exact ⟨printf_eq_self (by decide +kernel) [], by decide +kernel, by decide +kernel,
      by decide +kernel⟩

end Evaluation

section Shapes

variable {sql a b : List Char} {before after : List Lexeme} {c : Command}

/-- A statement about the rows with a lock id, up to a limit. -/
theorem reads_limited {stamp : Stamp} {n : Nat} (hn : n < 0x80000000)
    (hsql : sql = a ++ '%' :: 's' :: quote :: (b ++ ['%', 'd']))
    (ha : Piece a before (.text [])) (hb : Piece b after .gap)
    (hparse : parse (before ++ .text (lockid stamp) :: (after ++ [.number n])) = some c) :
    Reads sql [.s (lockid stamp), .d n]
      (a ++ (lockid stamp ++ quote :: (b ++ formatLong n))) c where
  printed := by
    rw [hsql, printf_append ha.plain, printf, printf_cons (by decide), printf_append hb.plain,
      printf_last]
    rfl
  read := by
    rw [readCommand, lexemesOf_quoted ha.opens (quote_notMem_lockid stamp),
      lexemesOf_number hb.opens]
    exact hparse
  ascii := ascii_append.mpr ⟨ha.ascii, ascii_append.mpr ⟨ascii_lockid stamp,
    ascii_cons.mpr ⟨by decide, ascii_append.mpr ⟨hb.ascii, ascii_formatLong n⟩⟩⟩⟩
  short := by
    have hstamp := length_lockid_le stamp
    have hnumber := length_formatLong_int (i := n) (by omega) (by omega)
    have hhead := ha.short
    have htail := hb.short
    simp only [List.length_append, List.length_cons, bufferSize]
    omega

/-- A statement about all rows with a lock id. -/
theorem reads_locked {stamp : Stamp}
    (hsql : sql = a ++ '%' :: 's' :: quote :: ' ' :: orderTail) (ha : Piece a before (.text []))
    (hparse : parse (before ++ .text (lockid stamp) ::
      [.key .order, .key .by, .column .id]) = some c) :
    Reads sql [.s (lockid stamp)] (a ++ (lockid stamp ++ quote :: ' ' :: orderTail)) c where
  printed := by
    rw [hsql, printf_append ha.plain, printf, printf_eq_self pieces.orderPlain]
    rfl
  read := by
    have hblank : lexemesOf (' ' :: orderTail) = lexemesOf orderTail := rfl
    rw [readCommand, lexemesOf_quoted ha.opens (quote_notMem_lockid stamp), hblank,
      pieces.order]
    exact hparse
  ascii := ascii_append.mpr ⟨ha.ascii, ascii_append.mpr ⟨ascii_lockid stamp,
    ascii_cons.mpr ⟨by decide, pieces.orderAscii⟩⟩⟩
  short := by
    have hstamp := length_lockid_le stamp
    have hhead := ha.short
    simp only [List.length_append, List.length_cons, pieces.orderLength, bufferSize]
    omega

/-- A statement about the row under an id. -/
theorem reads_key {id : Int} (hid : -0x80000000 ≤ id ∧ id < 0x80000000)
    (hsql : sql = a ++ ['%', 'd']) (ha : Piece a before .gap)
    (hparse : parse (before ++ [.number id]) = some c) :
    Reads sql [.d id] (a ++ formatLong id) c where
  printed := by
    rw [hsql, printf_append ha.plain, printf_last]
    rfl
  read := by
    rw [readCommand, lexemesOf_number ha.opens]
    exact hparse
  ascii := ascii_append.mpr ⟨ha.ascii, ascii_formatLong id⟩
  short := by
    have hnumber := length_formatLong_int hid.1 hid.2
    have hhead := ha.short
    simp only [List.length_append, bufferSize]
    omega

/-- A statement about the row under an id, with an order. -/
theorem reads_ordered {id : Int} (hid : -0x80000000 ≤ id ∧ id < 0x80000000)
    (hsql : sql = a ++ '%' :: 'd' :: ' ' :: orderTail) (ha : Piece a before .gap)
    (hparse : parse (before ++ [.number id, .key .order, .key .by, .column .id]) = some c) :
    Reads sql [.d id] (a ++ (formatLong id ++ ' ' :: orderTail)) c where
  printed := by
    have horder : '%' ∉ ' ' :: orderTail := fun h => pieces.orderPlain (List.mem_cons_of_mem _ h)
    rw [hsql, printf_append ha.plain, printf, printf_eq_self horder]
    rfl
  read := by
    rw [readCommand, lexemesOf_number_then ha.opens, pieces.order]
    exact hparse
  ascii := ascii_append.mpr ⟨ha.ascii, ascii_append.mpr ⟨ascii_formatLong id, pieces.orderAscii⟩⟩
  short := by
    have hnumber := length_formatLong_int hid.1 hid.2
    have hhead := ha.short
    simp only [List.length_append, List.length_cons, pieces.orderLength, bufferSize]
    omega

/-- The order and the limit of a claim and of a fetch. -/
theorem parseLimit_order (n : Nat) :
    parseLimit [.key .order, .key .by, .column .id, .key .limit, .number n] = some (some n) := by
  rw [parseLimit, if_pos (Int.natCast_nonneg n), Int.toNat_natCast]

/-- The formats and arguments give the texts, and these are read as their commands. -/
theorem Statement.reads {s : Statement} (hs : s.InRange) :
    Reads s.sql s.args s.text s.command := by
  cases s with
  | claim stamp workload =>
    refine reads_limited hs (literals_eq ?_) pieces.claim pieces.claimLimit ?_
    · decide +kernel
    · exact congrArg (Option.map fun limit => Command.update _ _ limit)
        (parseLimit_order workload)
  | fetch stamp workload =>
    refine reads_limited hs (literals_eq ?_) pieces.fetch pieces.fetchLimit ?_
    · decide +kernel
    · exact congrArg (Option.map fun limit => Command.select _ _ limit)
        (parseLimit_order workload)
  | release stamp => exact reads_locked (literals_eq (by decide +kernel)) pieces.release rfl
  | discard id => exact reads_ordered hs (literal_eq (by decide +kernel)) pieces.discard rfl
  | mark id => exact reads_key hs (literal_eq (by decide +kernel)) pieces.mark rfl
  | complete id => exact reads_ordered hs (literal_eq (by decide +kernel)) pieces.complete rfl
  | fail id => exact reads_ordered hs (literal_eq (by decide +kernel)) pieces.fail rfl
  | count => exact pieces.count

end Shapes

end Workq.Jobs
