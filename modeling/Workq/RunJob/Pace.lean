import Mathlib.Data.List.TakeWhile
import Workq.RunJob.Capture

/-!
# When the child and the loop block each other

A deadlock needs the parent blocked on one stream and the child blocked on the other. When
the parent blocks, it has read the complete lines of its stream and as many of the other, so
how full the other pipe is follows from the output. Reading a byte at a time shows that the
deadlock is reached whenever the output allows it.
-/

namespace Workq.RunJob

open Workq.Core

/-- The parent waits in `fgets` for bytes of the stream. -/
structure Capture.BlockedOn (s : Capture) (t : Stream) : Prop where
  turn : s.turn = some t
  buffer : s.buffer t = []
  pipe : s.pipe t = []
  running : s.exited = false

/-- The parent waits in `fgets`. -/
def Capture.ParentBlocked (s : Capture) : Prop := ∃ t, s.BlockedOn t

/-- The child waits in a write to a pipe that is full. -/
def Capture.ChildBlocked (capacity : Nat) (s : Capture) : Prop :=
  ∃ t x todo, s.todo = (t, x) :: todo ∧ capacity ≤ (s.pipe t).length

/-- What was written to a stream beyond the lines that the loop can have read when it has
read all complete lines of the other. -/
def ahead (t : Stream) (written : List (Stream × UInt8)) : List UInt8 :=
  dropPieces fgetsEnds (linesBefore t (countPieces fgetsEnds 0 (ofStream t.other written))) 0
    (ofStream t written)

/-- In no state of any interleaving do the parent and the child block at the same time. -/
def DeadlockFree (capacity : Nat) (writes : List (Stream × List UInt8)) : Prop :=
  ∀ events s, exec (Capture.step capacity) (Capture.start writes) events = some s →
    ¬(s.ParentBlocked ∧ s.ChildBlocked capacity)

/-- Every interleaving ends, and only with the loop, at the end of both streams. -/
def RunsToEof (capacity : Nat) (writes : List (Stream × List UInt8)) : Prop :=
  ∃ bound, ∀ events s,
    exec (Capture.step capacity) (Capture.start writes) events = some s →
      events.length ≤ bound ∧
        ((∀ e, s.step capacity e = none) → s.turn = none ∧ ∀ t, s.eof t = true)

/-- Whenever the child writes to a stream, it is ahead there by less than the capacity. -/
def KeepsPace (capacity : Nat) (output : List (Stream × UInt8)) : Prop :=
  ∀ i, ∀ h : i < output.length, (ahead output[i].1 (output.take i)).length < capacity

instance (capacity : Nat) (output : List (Stream × UInt8)) :
    Decidable (KeepsPace capacity output) :=
  inferInstanceAs (Decidable (∀ i, ∀ _ : i < output.length, _))

section Blocked

variable {capacity : Nat} {s u : Capture} {t : Stream} {output : List (Stream × UInt8)}

/-- When the parent is blocked, it has read all complete lines of its stream. -/
theorem Capture.Inv.countPieces_blocked (I : s.Inv output) (B : s.BlockedOn t) :
    countPieces fgetsEnds 0 (ofStream t s.written) = (s.lines t).length := by
  have L := I.live B.running
  rw [I.split t, Capture.current_self B.turn, B.buffer, B.pipe, List.append_nil, List.append_nil,
    countPieces_flatten_append (L.pieces t), L.unended.countPieces_eq_zero, Nat.zero_add]

/-- When the parent is blocked, the child is ahead on the other stream by what is left
there. -/
theorem Capture.Inv.ahead_other (I : s.Inv output) (B : s.BlockedOn t) :
    ahead t.other s.written = s.buffer t.other ++ s.pipe t.other := by
  have L := I.live B.running
  have hcount := L.balance_at B.turn
  have hdrop := dropPieces_flatten_append (L.pieces t.other) 0
    (s.buffer t.other ++ s.pipe t.other)
  rw [ahead, Stream.other_other, I.countPieces_blocked B, ← hcount, I.split t.other,
    Capture.current_other B.turn t.other_ne, List.nil_append]
  rw [Nat.zero_add, dropPieces_zero] at hdrop
  exact hdrop

/-- When the parent is blocked, the child is not ahead on its stream. -/
theorem Capture.Inv.ahead_self (I : s.Inv output) (B : s.BlockedOn t) :
    ahead t s.written = [] := by
  have L := I.live B.running
  have hcount := L.balance_at B.turn
  -- the other stream has at least the lines already read, so the next one of this is missing
  obtain ⟨k, hk⟩ : ∃ k, countPieces fgetsEnds 0 (ofStream t.other s.written) =
      linesBefore t.other (s.lines t).length + k := by
    rw [I.split t.other, countPieces_flatten_append (L.pieces t.other), hcount]
    exact ⟨_, Nat.add_comm _ _⟩
  have hlines : linesBefore t (linesBefore t.other (s.lines t).length + k) =
      k + 1 + (s.lines t).length := by
    rw [linesBefore_add, linesBefore_other]
    omega
  rw [ahead, hk, hlines, I.split t, Capture.current_self B.turn, B.buffer, B.pipe, List.append_nil,
    List.append_nil, dropPieces_flatten_append (L.pieces t), L.unended.dropPieces_eq_nil]

/-- In a deadlock the child is ahead by the capacity on the stream that it writes to. -/
theorem Capture.Inv.ahead_of_deadlock (I : s.Inv output) (hcapacity : 1 ≤ capacity)
    (hparent : s.ParentBlocked) {t' : Stream} (hfull : capacity ≤ (s.pipe t').length) :
    capacity ≤ (ahead t' s.written).length := by
  obtain ⟨t, B⟩ := hparent
  have ht : t' ≠ t := by
    rintro rfl
    rw [B.pipe, List.length_nil] at hfull
    omega
  obtain rfl := Stream.eq_other ht
  rw [I.ahead_other B, List.length_append]
  omega

/-- The next byte of the output and what comes before it. -/
theorem Capture.Inv.next_byte (I : s.Inv output) {b : Stream × UInt8}
    {todo : List (Stream × UInt8)} (htodo : s.todo = b :: todo) :
    ∃ h : s.written.length < output.length,
      output[s.written.length] = b ∧ output.take s.written.length = s.written := by
  obtain rfl := I.output
  rw [htodo]
  refine ⟨?_, ?_, ?_⟩
  · rw [List.length_append, List.length_cons]
    omega
  · simp
  · exact List.take_left

/-- The child has still to write the rest of the output. -/
theorem Capture.Inv.todo_eq (I : s.Inv output) {i : Nat} (hwritten : s.written = output.take i)
    (hi : i < output.length) : s.todo = output[i] :: output.drop (i + 1) := by
  have houtput := I.output
  rw [hwritten] at houtput
  rw [← List.drop_eq_getElem_cons hi]
  exact List.append_cancel_left (houtput.trans (List.take_append_drop i output).symm)

/-- A child that keeps pace is never deadlocked with the parent. -/
theorem Capture.Inv.not_deadlock (I : s.Inv output) (hcapacity : 1 ≤ capacity)
    (hpace : KeepsPace capacity output) : ¬(s.ParentBlocked ∧ s.ChildBlocked capacity) := by
  rintro ⟨hparent, t', x, todo, htodo, hfull⟩
  obtain ⟨hlt, hbyte, htake⟩ := I.next_byte htodo
  have hle := I.ahead_of_deadlock hcapacity hparent hfull
  have hahead := hpace s.written.length hlt
  rw [hbyte, htake] at hahead
  exact absurd hahead (Nat.not_lt.mpr hle)

/-- A state in which nobody can move is the end of the loop or a deadlock. -/
theorem Capture.Inv.stuck (I : s.Inv output) (hstuck : ∀ e, s.step capacity e = none) :
    (s.turn = none ∧ ∀ t, s.eof t = true) ∨ (s.ParentBlocked ∧ s.ChildBlocked capacity) := by
  cases hturn : s.turn with
  | none => exact Or.inl ⟨rfl, I.done hturn⟩
  | some t =>
    right
    have hparent : s.ParentBlocked := by
      have hone := hstuck (.parent 1)
      rw [Capture.step, Capture.parent, hturn, Option.bind_some] at hone
      cases hbuffer : s.buffer t with
      | cons x rest =>
        rw [hbuffer] at hone
        dsimp only at hone
        split at hone <;> contradiction
      | nil =>
        rw [hbuffer] at hone
        cases hpipe : s.pipe t with
        | cons y l => simp [hpipe] at hone
        | nil =>
          refine ⟨t, hturn, hbuffer, hpipe, ?_⟩
          simpa [hpipe] using hone
    refine ⟨hparent, ?_⟩
    have hchild := hstuck .child
    rw [Capture.step, Capture.child] at hchild
    cases htodo : s.todo with
    | nil =>
      obtain ⟨_, B⟩ := hparent
      simp [htodo, B.running] at hchild
    | cons b todo =>
      refine ⟨b.1, b.2, todo, htodo, ?_⟩
      simpa [htodo] using hchild

end Blocked

section Lazy

variable {capacity : Nat} {s u : Capture} {t : Stream} {output : List (Stream × UInt8)}

/-- The child runs and nothing is read ahead. -/
structure Capture.Unbuffered (s : Capture) : Prop where
  buffer : ∀ t, s.buffer t = []
  running : s.exited = false

/-- Bytes in the two pipes. -/
def Capture.piped (s : Capture) : Nat := (s.pipe .out).length + (s.pipe .err).length

/-- `fgets` takes a byte from its buffer, whether this ends the line or not. -/
theorem Capture.parent_of_buffer (hturn : s.turn = some t) {x : UInt8} {rest : List UInt8}
    (hbuffer : s.buffer t = x :: rest) (n : Nat) :
    ∃ u, s.parent n = some u ∧ u.buffer = Function.update s.buffer t rest ∧
      u.exited = s.exited ∧ u.pipe = s.pipe ∧ u.written = s.written := by
  rw [Capture.parent, hturn, Option.bind_some, hbuffer]
  dsimp only
  split
  · exact ⟨_, rfl, rfl, rfl, rfl, rfl⟩
  · exact ⟨_, rfl, rfl, rfl, rfl, rfl⟩

/-- The parent takes one byte out of its pipe. -/
theorem Capture.Unbuffered.take (Q : s.Unbuffered) (capacity : Nat) (hturn : s.turn = some t)
    {x : UInt8} {rest : List UInt8} (hpipe : s.pipe t = x :: rest) :
    ∃ u, exec (Capture.step capacity) s [.parent 1, .parent 0] = some u ∧ u.Unbuffered ∧
      u.pipe = Function.update s.pipe t rest ∧ u.written = s.written := by
  have hread : s.step capacity (.parent 1) = some { s with
      buffer := Function.update s.buffer t [x]
      pipe := Function.update s.pipe t rest } := by
    simp [Capture.step, Capture.parent, hturn, Q.buffer t, hpipe]
  obtain ⟨u, hu, hbuffer, hexit, hupipe, hwritten⟩ :=
    Capture.parent_of_buffer (s := { s with
      buffer := Function.update s.buffer t [x]
      pipe := Function.update s.pipe t rest }) hturn (Function.update_self ..) 0
  refine ⟨u, exec_cons_eq_some.mpr ⟨_, hread, exec_cons_eq_some.mpr ⟨u, hu, rfl⟩⟩, ⟨?_, ?_⟩,
    hupipe, hwritten⟩
  · intro t'
    rw [hbuffer, Function.update_idem]
    by_cases ht : t' = t
    · rw [ht, Function.update_self]
    · rw [Function.update_of_ne ht, Q.buffer t']
  · exact hexit.trans Q.running

theorem Capture.piped_update (s : Capture) {x : UInt8} {rest : List UInt8}
    (hpipe : s.pipe t = x :: rest) {u : Capture} (hu : u.pipe = Function.update s.pipe t rest) :
    u.piped < s.piped := by
  cases t <;> simp [Capture.piped, hu, hpipe]

/-- The parent reads on, a byte at a time, until it blocks. -/
theorem Capture.Inv.drain (I : s.Inv output) (Q : s.Unbuffered) (capacity : Nat) :
    ∃ events u, exec (Capture.step capacity) s events = some u ∧ u.Unbuffered ∧
      u.ParentBlocked ∧ u.written = s.written := by
  induction hn : s.piped using Nat.strongRecOn generalizing s with
  | _ n ih =>
    subst hn
    obtain ⟨t, hturn, -⟩ := (I.live Q.running).balance
    cases hpipe : s.pipe t with
    | nil => exact ⟨[], s, rfl, Q, ⟨t, hturn, Q.buffer t, hpipe, Q.running⟩, rfl⟩
    | cons x rest =>
      obtain ⟨m, hm, hQ, hmpipe, hwritten⟩ := Q.take capacity hturn hpipe
      obtain ⟨events, u, hu, hQu, hblocked, hwu⟩ :=
        ih m.piped (s.piped_update hpipe hmpipe) (I.run hm) hQ rfl
      exact ⟨_, u, exec_append.mpr ⟨m, hm, hu⟩, hQu, hblocked, hwu.trans hwritten⟩

/-- Without deadlocks, for every part of the output there is a run in which the parent blocks
when just that part is written. -/
theorem exists_blocked_run {writes : List (Stream × List UInt8)}
    (hfree : DeadlockFree capacity writes) {i : Nat} (hi : i ≤ (bytesOf writes).length) :
    ∃ events s, exec (Capture.step capacity) (Capture.start writes) events = some s ∧
      s.Unbuffered ∧ s.ParentBlocked ∧ s.written = (bytesOf writes).take i := by
  have I₀ := Capture.Inv.start writes
  induction i with
  | zero =>
    exact ⟨[], _, rfl, ⟨fun _ => rfl, rfl⟩, ⟨.out, rfl, rfl, rfl, rfl⟩, rfl⟩
  | succ i ih =>
    obtain ⟨events, s, hs, Q, hblocked, hwritten⟩ := ih (by omega)
    have I := I₀.run hs
    have htodo := I.todo_eq hwritten (by omega)
    -- the parent is blocked, so the child is not
    have hroom : (s.pipe (bytesOf writes)[i].1).length < capacity := by
      by_contra hfull
      exact hfree events s hs ⟨hblocked, _, _, _, htodo, Nat.le_of_not_lt hfull⟩
    have hchild : s.step capacity .child = some { s with
        written := s.written ++ [(bytesOf writes)[i]]
        todo := (bytesOf writes).drop (i + 1)
        pipe := Function.update s.pipe (bytesOf writes)[i].1
          (s.pipe (bytesOf writes)[i].1 ++ [(bytesOf writes)[i].2]) } := by
      rw [Capture.step, Capture.child, htodo]
      exact if_pos hroom
    have hnext : exec (Capture.step capacity) s [.child] = some _ :=
      exec_cons_eq_some.mpr ⟨_, hchild, rfl⟩
    obtain ⟨more, u, hu, hQu, hbu, hwu⟩ := (I.run hnext).drain
      ⟨Q.buffer, Q.running⟩ capacity
    refine ⟨_, u, exec_append.mpr ⟨_, exec_append.mpr ⟨s, hs, hnext⟩, hu⟩, hQu, hbu, ?_⟩
    rw [hwu, List.take_succ_eq_append_getElem (by omega)]
    dsimp only
    rw [hwritten]

end Lazy

section Ends

variable {capacity : Nat} {s u : Capture} {output : List (Stream × UInt8)}

/-- The sum over both streams. -/
def total (f : Stream → Nat) : Nat := f .out + f .err

theorem total_update {β : Type} (weight : β → Nat) (f : Stream → β) (t : Stream) (b : β) :
    total (fun t' => weight (Function.update f t b t')) + weight (f t) =
      total (fun t' => weight (f t')) + weight b := by
  cases t with
  | out =>
    rw [total, total, Function.update_self, Function.update_of_ne (by decide)]
    omega
  | err =>
    rw [total, total, Function.update_self, Function.update_of_ne (by decide)]
    omega

/-- The steps that are left: a byte is written, read and taken once each, and the child's exit
and the end of each stream are seen once. -/
def Capture.left (s : Capture) : Nat :=
  3 * s.todo.length + 2 * total (fun t => (s.pipe t).length) +
    total (fun t => (s.buffer t).length) + total (fun t => (!s.eof t).toNat) + (!s.exited).toNat

/-- Every step uses one up. -/
theorem Capture.Inv.left_lt (I : s.Inv output) (h : s.Move capacity u) : u.left < s.left := by
  cases h with
  | @write t x todo htodo hroom =>
    have hpipe := total_update List.length s.pipe t (s.pipe t ++ [x])
    rw [List.length_append, List.length_singleton] at hpipe
    simp only [Capture.left, htodo, List.length_cons]
    omega
  | exit htodo hexit =>
    simp [Capture.left, hexit]
  | @read t n hturn hbuffer hpos hle =>
    have hpipe := total_update List.length s.pipe t ((s.pipe t).drop n)
    have hbuf := total_update List.length s.buffer t ((s.pipe t).take n)
    rw [List.length_drop] at hpipe
    rw [List.length_take, hbuffer, List.length_nil] at hbuf
    simp only [Capture.left]
    omega
  | @byte t x rest hturn hbuffer hend =>
    have hbuf := total_update List.length s.buffer t rest
    rw [hbuffer, List.length_cons] at hbuf
    simp only [Capture.left]
    omega
  | @line t x rest hturn hbuffer hend =>
    have hbuf := total_update List.length s.buffer t rest
    rw [hbuffer, List.length_cons] at hbuf
    simp only [Capture.left, Capture.ret]
    omega
  | @eof t hturn hbuffer hpipe hexit =>
    have heof := total_update (fun b => (!b).toNat) s.eof t true
    rw [I.turn t hturn] at heof
    simp only [Bool.not_true, Bool.not_false, Bool.toNat_false, Bool.toNat_true] at heof
    simp only [Capture.left, Capture.ret]
    omega

/-- When the loop has ended, its lines are what the child wrote. -/
theorem Capture.Inv.flatten_lines (I : s.Inv output) (hturn : s.turn = none) (t : Stream) :
    (s.lines t).flatten = ofStream t output := by
  obtain ⟨hexit, hbuffer, hpipe⟩ := I.eof t (I.done hturn t)
  have hwritten : s.written = output := by
    rw [← I.output, I.exit hexit, List.append_nil]
  rw [← hwritten, I.split t, Capture.current, hturn, if_neg (by simp), hbuffer, hpipe,
    List.append_nil, List.append_nil, List.append_nil]

/-- The text that the loop has collected when it ends is the child's output, unless this has
a NUL in it. -/
theorem text_eq_output {writes : List (Stream × List UInt8)} {events : List CaptureEvent}
    (hrun : exec (Capture.step capacity) (Capture.start writes) events = some s)
    (hturn : s.turn = none) {t : Stream} (hnul : 0 ∉ ofStream t (bytesOf writes)) :
    s.text t = ofStream t (bytesOf writes) := by
  have hflat := ((Capture.Inv.start writes).run hrun).flatten_lines hturn t
  have hkeep : ∀ line ∈ s.lines t, line.takeWhile (· ≠ 0) = line := by
    intro line hline
    rw [List.takeWhile_eq_self_iff]
    intro x hx
    have hmem : x ∈ ofStream t (bytesOf writes) := by
      rw [← hflat]
      exact List.mem_flatten.mpr ⟨line, hline, hx⟩
    simp only [ne_eq, decide_eq_true_eq]
    rintro rfl
    exact hnul hmem
  rw [← hflat, Capture.text, List.flatMap_def, List.map_congr_left hkeep, List.map_id']

end Ends

/-- The loop and the child never block each other, and the loop always runs to the end of
both streams, exactly if the child keeps pace: whenever it writes to one stream, it has
written less than a pipe holds beyond the lines that the loop can have read there. -/
theorem capture_completes_iff {capacity : Nat} (hcapacity : 1 ≤ capacity)
    (writes : List (Stream × List UInt8)) :
    DeadlockFree capacity writes ∧ RunsToEof capacity writes ↔
      KeepsPace capacity (bytesOf writes) := by
  have I := Capture.Inv.start writes
  constructor
  · rintro ⟨hfree, -⟩ i hi
    obtain ⟨events, s, hs, Q, hblocked, hwritten⟩ := exists_blocked_run hfree (Nat.le_of_lt hi)
    have J := I.run hs
    obtain ⟨t, B⟩ := hblocked
    rw [← hwritten]
    by_cases ht : (bytesOf writes)[i].1 = t
    · rw [ht, J.ahead_self B]
      exact hcapacity
    · rw [Stream.eq_other ht, J.ahead_other B, Q.buffer, List.nil_append, ← Stream.eq_other ht]
      by_contra hfull
      have htodo := J.todo_eq hwritten hi
      exact hfree events s hs ⟨⟨t, B⟩, _, _, _, htodo, Nat.le_of_not_lt hfull⟩
  · intro hpace
    have hfree : DeadlockFree capacity writes := fun events s hs =>
      (I.run hs).not_deadlock hcapacity hpace
    refine ⟨hfree, (Capture.start writes).left, ?_⟩
    intro events s hs
    have hlength := exec_length_le (fun s => s.Inv (bytesOf writes)) Capture.left
      (fun s e u J h => ⟨J.move (Capture.move_of_step h), J.left_lt (Capture.move_of_step h)⟩) I hs
    refine ⟨by omega, ?_⟩
    intro hstuck
    exact ((I.run hs).stuck hstuck).resolve_right (hfree events s hs)

/-- A child that writes a line to each stream in turn keeps pace with the smallest pipes. -/
theorem capture_completes_two_lines :
    DeadlockFree 1 [(.out, [10]), (.err, [10])] ∧ RunsToEof 1 [(.out, [10]), (.err, [10])] :=
  (capture_completes_iff (Nat.le_refl 1) _).mpr (by decide +kernel)

/-- The parent waits for a line of output, the child for room for its error message. -/
theorem capture_deadlock :
    ∃ s, exec (Capture.step 1) (Capture.start [(.err, [0x6e, 0x6f])]) [.child] = some s ∧
      s.ParentBlocked ∧ s.ChildBlocked 1 :=
  ⟨_, rfl, ⟨.out, rfl, rfl, rfl, rfl⟩, .err, 0x6f, [], rfl, Nat.le_refl 1⟩

end Workq.RunJob
