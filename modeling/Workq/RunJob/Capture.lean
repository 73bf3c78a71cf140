import Mathlib.Logic.Function.Basic
import Workq.Core.Pieces
import Workq.Core.Run

/-!
# Capturing a command's output

The loop of `RunJob::execute` reads a line of the child's standard output and a line of its
standard error in turn. Each `fgets` blocks until its stream has a newline, 1023 bytes or its
end, while the other pipe fills up and may block the child. What the loop has read when it
blocks depends only on what the child has written so far, and so does the deadlock.
-/

namespace Workq.RunJob

open Workq.Core

/-- The child's two output streams. -/
inductive Stream where
  | out
  | err
  deriving DecidableEq, Repr

/-- The other stream. -/
def Stream.other : Stream → Stream
  | .out => .err
  | .err => .out

/-- Whether the byte ends an `fgets` that has `n` bytes already: it is a newline, or the
buffer of 1024 bytes is full. -/
def fgetsEnds (n : Nat) (x : UInt8) : Bool := x == 10 || n + 1 == 1023

/-- The child, the two pipes, and the parent in its loop. -/
structure Capture where
  /-- What the child has written. -/
  written : List (Stream × UInt8)
  /-- What it has still to write. -/
  todo : List (Stream × UInt8)
  exited : Bool
  pipe : Stream → List UInt8
  /-- What `ostream` and `estream` have read ahead. -/
  buffer : Stream → List UInt8
  eof : Stream → Bool
  /-- The stream of the `fgets` call, `none` after the loop. -/
  turn : Option Stream
  /-- What this call has put into its line. -/
  line : List UInt8
  /-- What the calls before it returned. -/
  lines : Stream → List (List UInt8)

/-- The `do` loop after an `fgets` on a stream: a stream at its end is passed over, and the
loop ends when both are. -/
def nextTurn (eof : Stream → Bool) (t : Stream) : Option Stream :=
  if eof t.other = false then some t.other
  else if eof t = false then some t
  else none

/-- `fgets` returns: an empty line means that it returns `NULL`. -/
def Capture.ret (s : Capture) (t : Stream) (line : List UInt8) (eof : Stream → Bool) : Capture :=
  { s with
    lines := if line = [] then s.lines else Function.update s.lines t (s.lines t ++ [line])
    line := []
    eof := eof
    turn := nextTurn eof t }

/-- One step of the parent. Where it calls `read`, this returns `n` bytes of those that are
there, or the end of the file when there are none and the child has exited. -/
def Capture.parent (s : Capture) (n : Nat) : Option Capture :=
  s.turn.bind fun t =>
    match s.buffer t with
    | x :: rest =>
      let u := { s with buffer := Function.update s.buffer t rest }
      if fgetsEnds s.line.length x then some (u.ret t (s.line ++ [x]) s.eof)
      else some { u with line := s.line ++ [x] }
    | [] =>
      if s.pipe t = [] then
        if s.exited then some (s.ret t s.line (Function.update s.eof t true)) else none
      else if 1 ≤ n ∧ n ≤ (s.pipe t).length then
        some { s with
          buffer := Function.update s.buffer t ((s.pipe t).take n)
          pipe := Function.update s.pipe t ((s.pipe t).drop n) }
      else none

/-- One step of the child: it writes a byte if the pipe has room, or exits after its last
write, which closes both pipes. -/
def Capture.child (capacity : Nat) (s : Capture) : Option Capture :=
  match s.todo with
  | (t, x) :: todo =>
    if (s.pipe t).length < capacity then
      some { s with
        written := s.written ++ [(t, x)]
        todo := todo
        pipe := Function.update s.pipe t (s.pipe t ++ [x]) }
    else none
  | [] => if s.exited then none else some { s with exited := true }

/-- Who moves; the parent with the number of bytes that its next `read` returns. -/
inductive CaptureEvent where
  | child
  | parent (n : Nat)
  deriving DecidableEq, Repr

/-- One step of the two processes. -/
def Capture.step (capacity : Nat) (s : Capture) : CaptureEvent → Option Capture
  | .child => s.child capacity
  | .parent n => s.parent n

/-- The bytes of a sequence of writes, in order. -/
def bytesOf (writes : List (Stream × List UInt8)) : List (Stream × UInt8) :=
  writes.flatMap fun w => w.2.map fun x => (w.1, x)

/-- After `fork`, with a child that makes the given writes and then exits. -/
def Capture.start (writes : List (Stream × List UInt8)) : Capture where
  written := []
  todo := bytesOf writes
  exited := false
  pipe := fun _ => []
  buffer := fun _ => []
  eof := fun _ => false
  turn := some .out
  line := []
  lines := fun _ => []

/-- `std_out->str` and `std_err->str`: each line is appended up to its first NUL. -/
def Capture.text (s : Capture) (t : Stream) : List UInt8 :=
  (s.lines t).flatMap fun line => line.takeWhile (· ≠ 0)

/-- The bytes written to one stream. -/
def ofStream (t : Stream) (written : List (Stream × UInt8)) : List UInt8 :=
  (written.filter fun b => b.1 = t).map Prod.snd

/-- The lines of a stream that the loop reads before it waits for more than the given number
of the other stream's: one more where the stream is read first. -/
def linesBefore (t : Stream) (others : Nat) : Nat :=
  match t with
  | .out => others + 1
  | .err => others

/-- What a step can do. -/
inductive Capture.Move (capacity : Nat) (s : Capture) : Capture → Prop where
  | write {t : Stream} {x : UInt8} {todo : List (Stream × UInt8)}
      (htodo : s.todo = (t, x) :: todo) (hroom : (s.pipe t).length < capacity) :
      Move capacity s { s with
        written := s.written ++ [(t, x)]
        todo := todo
        pipe := Function.update s.pipe t (s.pipe t ++ [x]) }
  | exit (htodo : s.todo = []) (hexit : s.exited = false) :
      Move capacity s { s with exited := true }
  | read {t : Stream} {n : Nat} (hturn : s.turn = some t) (hbuffer : s.buffer t = [])
      (hpos : 1 ≤ n) (hle : n ≤ (s.pipe t).length) :
      Move capacity s { s with
        buffer := Function.update s.buffer t ((s.pipe t).take n)
        pipe := Function.update s.pipe t ((s.pipe t).drop n) }
  | byte {t : Stream} {x : UInt8} {rest : List UInt8} (hturn : s.turn = some t)
      (hbuffer : s.buffer t = x :: rest) (hend : fgetsEnds s.line.length x = false) :
      Move capacity s { s with
        buffer := Function.update s.buffer t rest
        line := s.line ++ [x] }
  | line {t : Stream} {x : UInt8} {rest : List UInt8} (hturn : s.turn = some t)
      (hbuffer : s.buffer t = x :: rest) (hend : fgetsEnds s.line.length x = true) :
      Move capacity s
        (Capture.ret { s with buffer := Function.update s.buffer t rest } t (s.line ++ [x]) s.eof)
  | eof {t : Stream} (hturn : s.turn = some t) (hbuffer : s.buffer t = [])
      (hpipe : s.pipe t = []) (hexit : s.exited = true) :
      Move capacity s (s.ret t s.line (Function.update s.eof t true))

/-- Every step is such a move. -/
theorem Capture.move_of_step {capacity : Nat} {s u : Capture} {e : CaptureEvent}
    (h : s.step capacity e = some u) : s.Move capacity u := by
  cases e with
  | child =>
    rw [Capture.step, Capture.child] at h
    split at h
    · rename_i t x todo htodo
      split at h
      · rename_i hroom
        exact Option.some.inj h ▸ Move.write htodo hroom
      · contradiction
    · rename_i htodo
      split at h
      · contradiction
      · rename_i hexit
        exact Option.some.inj h ▸ Move.exit htodo (by simpa using hexit)
  | parent n =>
    rw [Capture.step, Capture.parent] at h
    obtain ⟨t, hturn, h⟩ := Option.bind_eq_some_iff.mp h
    split at h
    · rename_i x rest hbuffer
      split at h
      · rename_i hend
        exact Option.some.inj h ▸ Move.line hturn hbuffer hend
      · rename_i hend
        exact Option.some.inj h ▸ Move.byte hturn hbuffer (by simpa using hend)
    · rename_i hbuffer
      split at h
      · rename_i hpipe
        split at h
        · rename_i hexit
          exact Option.some.inj h ▸ Move.eof hturn hbuffer hpipe hexit
        · contradiction
      · split at h
        · rename_i hn
          exact Option.some.inj h ▸ Move.read hturn hbuffer hn.1 hn.2
        · contradiction

section Invariant

/-- What the `fgets` call on a stream, if it is the current one, has in its line. -/
def Capture.current (s : Capture) (t : Stream) : List UInt8 :=
  if s.turn = some t then s.line else []

/-- While the child runs, each returned line is complete, the current one is not, and the
streams take turns. -/
structure Capture.Live (s : Capture) : Prop where
  pieces : ∀ t, ∀ line ∈ s.lines t, IsPiece fgetsEnds line
  unended : Unended fgetsEnds 0 s.line
  balance : ∃ t, s.turn = some t ∧
    (s.lines t.other).length = linesBefore t.other (s.lines t).length

/-- Every byte written is in a line, in a buffer or in a pipe, in order. -/
structure Capture.Inv (output : List (Stream × UInt8)) (s : Capture) : Prop where
  output : s.written ++ s.todo = output
  split : ∀ t, ofStream t s.written =
    (s.lines t).flatten ++ (s.current t ++ (s.buffer t ++ s.pipe t))
  exit : s.exited = true → s.todo = []
  eof : ∀ t, s.eof t = true → s.exited = true ∧ s.buffer t = [] ∧ s.pipe t = []
  turn : ∀ t, s.turn = some t → s.eof t = false
  done : s.turn = none → ∀ t, s.eof t = true
  live : s.exited = false → s.Live

variable {capacity : Nat} {s u : Capture} {t : Stream} {output : List (Stream × UInt8)}

@[simp] theorem Stream.other_other (t : Stream) : t.other.other = t := by cases t <;> rfl

theorem Stream.other_ne (t : Stream) : t.other ≠ t := by cases t <;> simp [Stream.other]

theorem Stream.eq_other {t t' : Stream} (h : t' ≠ t) : t' = t.other := by
  cases t <;> cases t' <;> simp_all [Stream.other]

theorem linesBefore_other (t : Stream) (n : Nat) :
    linesBefore t (linesBefore t.other n) = n + 1 := by cases t <;> rfl

theorem linesBefore_add (t : Stream) (m n : Nat) :
    linesBefore t (m + n) = linesBefore t m + n := by
  cases t with
  | out => exact Nat.add_right_comm m n 1
  | err => rfl

theorem ofStream_append_self (written : List (Stream × UInt8)) (t : Stream) (x : UInt8) :
    ofStream t (written ++ [(t, x)]) = ofStream t written ++ [x] := by simp [ofStream]

theorem ofStream_append_other (written : List (Stream × UInt8)) {t t' : Stream} (h : t' ≠ t)
    (x : UInt8) : ofStream t' (written ++ [(t, x)]) = ofStream t' written := by
  simp [ofStream, h.symm]

/-- The loop turns to a stream that is not at its end. -/
theorem eof_of_nextTurn {eof : Stream → Bool} {t' : Stream} (h : nextTurn eof t = some t') :
    eof t' = false := by
  rw [nextTurn] at h
  split at h
  · rename_i hother
    exact Option.some.inj h ▸ hother
  · split at h
    · rename_i hself
      exact Option.some.inj h ▸ hself
    · contradiction

/-- The loop ends when both streams are at their end. -/
theorem eof_of_nextTurn_none {eof : Stream → Bool} (h : nextTurn eof t = none) (t' : Stream) :
    eof t' = true := by
  rw [nextTurn] at h
  split at h
  · contradiction
  · rename_i hother
    split at h
    · contradiction
    · rename_i hself
      by_cases ht : t' = t
      · rw [ht]
        simpa using hself
      · rw [Stream.eq_other ht]
        simpa using hother

/-- The lines of the other stream, at a known turn. -/
theorem Capture.Live.balance_at (L : s.Live) (hturn : s.turn = some t) :
    (s.lines t.other).length = linesBefore t.other (s.lines t).length := by
  obtain ⟨t', ht', hcount⟩ := L.balance
  rw [Option.some.inj (hturn.symm.trans ht')]
  exact hcount

theorem Capture.current_self (hturn : s.turn = some t) : s.current t = s.line := if_pos hturn

theorem Capture.current_other (hturn : s.turn = some t) {t' : Stream} (h : t' ≠ t) :
    s.current t' = [] := by
  rw [Capture.current, hturn, if_neg]
  exact fun ht => h (Option.some.inj ht).symm

/-- After `fgets` has returned there is no line. -/
@[simp] theorem Capture.current_ret (s : Capture) (t t' : Stream) (line : List UInt8)
    (eof : Stream → Bool) : (s.ret t line eof).current t' = [] := by
  rw [Capture.current]
  split <;> rfl

theorem Capture.flatten_ret_self (s : Capture) (t : Stream) (line : List UInt8)
    (eof : Stream → Bool) :
    ((s.ret t line eof).lines t).flatten = (s.lines t).flatten ++ line := by
  rw [Capture.ret]
  dsimp only
  split
  · rename_i hline
    rw [hline, List.append_nil]
  · rw [Function.update_self, List.flatten_append, List.flatten_singleton]

theorem Capture.lines_ret_other (s : Capture) {t t' : Stream} (h : t' ≠ t) (line : List UInt8)
    (eof : Stream → Bool) : (s.ret t line eof).lines t' = s.lines t' := by
  rw [Capture.ret]
  dsimp only
  split
  · rfl
  · rw [Function.update_of_ne h]

/-- `fgets` returns what it has taken from the stream, and nothing is lost. -/
theorem Capture.Inv.ret (I : s.Inv output) (hturn : s.turn = some t) {line rest : List UInt8}
    (hline : s.line ++ s.buffer t = line ++ rest) {eof : Stream → Bool}
    (heof : ∀ t', eof t' = true →
      s.exited = true ∧ Function.update s.buffer t rest t' = [] ∧ s.pipe t' = [])
    (hlive : s.exited = false →
      (Capture.ret { s with buffer := Function.update s.buffer t rest } t line eof).Live) :
    (Capture.ret { s with buffer := Function.update s.buffer t rest } t line eof).Inv output where
  output := I.output
  split t' := by
    have hsplit := I.split t'
    rw [Capture.current_ret, List.nil_append]
    by_cases ht : t' = t
    · subst ht
      rw [Capture.flatten_ret_self]
      simp only [Capture.ret, Function.update_self]
      rw [hsplit, Capture.current_self hturn, ← List.append_assoc s.line, hline,
        List.append_assoc, List.append_assoc]
    · rw [Capture.lines_ret_other _ ht]
      simp only [Capture.ret, Function.update_of_ne ht]
      rw [hsplit, Capture.current_other hturn ht, List.nil_append]
  exit := I.exit
  eof := heof
  turn _ h := eof_of_nextTurn h
  done h := eof_of_nextTurn_none h
  live := hlive

/-- While the child runs, no stream is at its end. -/
theorem Capture.Inv.not_eof (I : s.Inv output) (hexit : s.exited = false) (t : Stream) :
    s.eof t = false := by
  cases heof : s.eof t with
  | false => rfl
  | true => exact absurd ((I.eof t heof).1.symm.trans hexit) (by decide)

/-- A byte of a write goes into its pipe. -/
theorem Capture.Inv.write (I : s.Inv output) {x : UInt8} {todo : List (Stream × UInt8)}
    (htodo : s.todo = (t, x) :: todo) :
    Capture.Inv output { s with
      written := s.written ++ [(t, x)]
      todo := todo
      pipe := Function.update s.pipe t (s.pipe t ++ [x]) } where
  output := by
    rw [← I.output, htodo, List.append_assoc, List.singleton_append]
  split t' := by
    have hsplit := I.split t'
    dsimp only [Capture.current] at hsplit ⊢
    by_cases ht : t' = t
    · subst ht
      rw [ofStream_append_self, hsplit, Function.update_self]
      simp only [List.append_assoc]
    · rw [ofStream_append_other s.written ht, hsplit, Function.update_of_ne ht]
  exit hexit := by
    rw [I.exit hexit] at htodo
    contradiction
  eof t' heof := by
    rw [I.exit (I.eof t' heof).1] at htodo
    contradiction
  turn := I.turn
  done := I.done
  live hexit := ⟨(I.live hexit).pieces, (I.live hexit).unended, (I.live hexit).balance⟩

/-- `read` moves bytes from the pipe to the stream's buffer. -/
theorem Capture.Inv.read (I : s.Inv output) {n : Nat} (hbuffer : s.buffer t = []) (hpos : 1 ≤ n)
    (hle : n ≤ (s.pipe t).length) :
    Capture.Inv output { s with
      buffer := Function.update s.buffer t ((s.pipe t).take n)
      pipe := Function.update s.pipe t ((s.pipe t).drop n) } where
  output := I.output
  split t' := by
    have hsplit := I.split t'
    dsimp only [Capture.current] at hsplit ⊢
    by_cases ht : t' = t
    · subst ht
      rw [hsplit, Function.update_self, Function.update_self, List.take_append_drop, hbuffer,
        List.nil_append]
    · rw [hsplit, Function.update_of_ne ht, Function.update_of_ne ht]
  exit := I.exit
  eof t' heof := by
    obtain ⟨hexit, hb, hp⟩ := I.eof t' heof
    have ht : t' ≠ t := by
      rintro rfl
      rw [hp, List.length_nil] at hle
      omega
    dsimp only
    rw [Function.update_of_ne ht, Function.update_of_ne ht]
    exact ⟨hexit, hb, hp⟩
  turn := I.turn
  done := I.done
  live hexit := ⟨(I.live hexit).pieces, (I.live hexit).unended, (I.live hexit).balance⟩

/-- A stream with bytes in its buffer is not at its end. -/
theorem Capture.Inv.eof_update (I : s.Inv output) {x : UInt8} {rest : List UInt8}
    (hbuffer : s.buffer t = x :: rest) (t' : Stream) (heof : s.eof t' = true) :
    s.exited = true ∧ Function.update s.buffer t rest t' = [] ∧ s.pipe t' = [] := by
  obtain ⟨hexit, hb, hp⟩ := I.eof t' heof
  have ht : t' ≠ t := by
    rintro rfl
    rw [hb] at hbuffer
    contradiction
  rw [Function.update_of_ne ht]
  exact ⟨hexit, hb, hp⟩

/-- `fgets` takes a byte that does not end its line. -/
theorem Capture.Inv.byte (I : s.Inv output) {x : UInt8} {rest : List UInt8}
    (hturn : s.turn = some t) (hbuffer : s.buffer t = x :: rest)
    (hend : fgetsEnds s.line.length x = false) :
    Capture.Inv output { s with
      buffer := Function.update s.buffer t rest
      line := s.line ++ [x] } where
  output := I.output
  split t' := by
    have hsplit := I.split t'
    dsimp only [Capture.current] at hsplit ⊢
    by_cases ht : t' = t
    · subst ht
      rw [hsplit, Function.update_self, hbuffer, if_pos hturn, if_pos hturn, List.cons_append,
        List.append_assoc s.line, List.singleton_append]
    · have hother : s.turn ≠ some t' := fun h => ht (Option.some.inj (h.symm.trans hturn))
      rw [hsplit, Function.update_of_ne ht, if_neg hother, if_neg hother]
  exit := I.exit
  eof := I.eof_update hbuffer
  turn := I.turn
  done := I.done
  live hexit := by
    have L := I.live hexit
    refine ⟨L.pieces, ?_, L.balance⟩
    exact L.unended.append_singleton (by rwa [Nat.zero_add])

/-- `fgets` takes the byte that ends its line: the line is complete, and it is the other
stream's turn. -/
theorem Capture.Inv.line (I : s.Inv output) {x : UInt8} {rest : List UInt8}
    (hturn : s.turn = some t) (hbuffer : s.buffer t = x :: rest)
    (hend : fgetsEnds s.line.length x = true) :
    (Capture.ret { s with buffer := Function.update s.buffer t rest } t (s.line ++ [x])
      s.eof).Inv output := by
  refine I.ret hturn ?_ (I.eof_update hbuffer) ?_
  · rw [hbuffer, List.append_assoc, List.singleton_append]
  · intro hexit
    have L := I.live hexit
    have hpiece : IsPiece fgetsEnds (s.line ++ [x]) := ⟨s.line, x, rfl, L.unended, hend⟩
    have hself : (Capture.ret { s with buffer := Function.update s.buffer t rest } t
        (s.line ++ [x]) s.eof).lines t = s.lines t ++ [s.line ++ [x]] := by
      simp [Capture.ret]
    constructor
    case pieces =>
      intro t' l hl
      by_cases ht : t' = t
      · subst ht
        rw [hself, List.mem_append, List.mem_singleton] at hl
        rcases hl with hl | rfl
        · exact L.pieces t' l hl
        · exact hpiece
      · rw [Capture.lines_ret_other _ ht] at hl
        exact L.pieces t' l hl
    case unended => trivial
    case balance =>
      have hcount := L.balance_at hturn
      refine ⟨t.other, ?_, ?_⟩
      · simp [Capture.ret, nextTurn, I.not_eof hexit]
      · rw [Stream.other_other, hself, Capture.lines_ret_other _ t.other_ne, List.length_append]
        dsimp only
        rw [hcount, linesBefore_other]
        rfl

/-- `fgets` finds the end of its stream. -/
theorem Capture.Inv.atEof (I : s.Inv output) (hturn : s.turn = some t)
    (hbuffer : s.buffer t = []) (hpipe : s.pipe t = []) (hexit : s.exited = true) :
    (s.ret t s.line (Function.update s.eof t true)).Inv output := by
  have hsame : Function.update s.buffer t [] = s.buffer := by
    rw [← hbuffer, Function.update_eq_self]
  have h : (Capture.ret { s with buffer := Function.update s.buffer t [] } t s.line
      (Function.update s.eof t true)).Inv output := by
    refine I.ret hturn (by rw [hbuffer]) ?_ ?_
    · intro t' heof
      by_cases ht : t' = t
      · rw [hsame, ht]
        exact ⟨hexit, hbuffer, hpipe⟩
      · rw [Function.update_of_ne ht] at heof
        rw [hsame]
        exact I.eof t' heof
    · intro hlive
      exact absurd (hexit.symm.trans hlive) (by decide)
  rw [hsame] at h
  exact h

/-- Every step keeps the invariant. -/
theorem Capture.Inv.move (I : s.Inv output) (h : s.Move capacity u) : u.Inv output := by
  cases h with
  | write htodo hroom => exact I.write htodo
  | exit htodo hexit =>
    refine ⟨I.output, I.split, fun _ => htodo, ?_, I.turn, I.done, ?_⟩
    · exact fun t heof => ⟨rfl, (I.eof t heof).2⟩
    · exact fun h => nomatch h
  | read hturn hbuffer hpos hle => exact I.read hbuffer hpos hle
  | byte hturn hbuffer hend => exact I.byte hturn hbuffer hend
  | line hturn hbuffer hend => exact I.line hturn hbuffer hend
  | eof hturn hbuffer hpipe hexit => exact I.atEof hturn hbuffer hpipe hexit

theorem Capture.Inv.start (writes : List (Stream × List UInt8)) :
    (Capture.start writes).Inv (bytesOf writes) where
  output := rfl
  split t := by simp [Capture.start, Capture.current, ofStream]
  exit h := nomatch h
  eof _ h := nomatch h
  turn _ _ := rfl
  done h := nomatch h
  live _ := ⟨fun t l h => absurd h List.not_mem_nil, trivial, .out, rfl, rfl⟩

/-- Every state that a run reaches has the invariant. -/
theorem Capture.Inv.run (I : s.Inv output) {events : List CaptureEvent}
    (hrun : exec (Capture.step capacity) s events = some u) : u.Inv output :=
  exec_invariant (fun _ _ _ J h => Capture.Inv.move J (Capture.move_of_step h)) I hrun

end Invariant

end Workq.RunJob
