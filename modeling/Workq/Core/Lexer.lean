import Mathlib.Data.List.Basic

/-!
# Reading a text token by token

A lexer for words, quoted texts and symbols that takes one character at a time. Since it keeps
all it knows in its state, the tokens of a text that is put together from pieces are found
piece by piece: a fixed piece is evaluated, and `read_text` and `read_word` say what a piece
that is a variable of the statement leaves. `read_after` lets every piece start without the
tokens found before it.
-/

namespace Workq.Core

/-- A token; a quoted text is kept without its quotes. -/
inductive Token where
  | word (w : List Char)
  | text (t : List Char)
  | symbol (c : Char)
  deriving DecidableEq, Repr

/-- What the lexer is in the middle of. -/
inductive Reading where
  | gap
  | word (w : List Char)
  | text (t : List Char)
  deriving DecidableEq, Repr

/-- The tokens found so far and the one being read. -/
structure Lexer where
  tokens : List Token
  reading : Reading
  deriving DecidableEq, Repr

/-- The quote around a text. -/
def quote : Char := '\x27'

/-- Letters, digits, the underscore and the sign of a number. -/
def isWordChar (c : Char) : Bool := c.isAlphanum || c = '_' || c = '-'

/-- The first character after some tokens. -/
def Lexer.first (tokens : List Token) (c : Char) : Lexer :=
  if isWordChar c then ⟨tokens, .word [c]⟩
  else if c = quote then ⟨tokens, .text []⟩
  else if c = ' ' then ⟨tokens, .gap⟩
  else ⟨tokens ++ [.symbol c], .gap⟩

/-- Take one character. Quotes and backslashes inside a quoted text are not dealt with. -/
def Lexer.feed (L : Lexer) (c : Char) : Lexer :=
  match L.reading with
  | .gap => .first L.tokens c
  | .word w =>
    if isWordChar c then ⟨L.tokens, .word (w ++ [c])⟩ else .first (L.tokens ++ [.word w]) c
  | .text t =>
    if c = quote then ⟨L.tokens ++ [.text t], .gap⟩ else ⟨L.tokens, .text (t ++ [c])⟩

/-- Take a piece of text. -/
def Lexer.read (L : Lexer) (s : List Char) : Lexer := s.foldl Lexer.feed L

/-- The lexer after a text from its beginning. -/
def Lexer.ofText (s : List Char) : Lexer := Lexer.read ⟨[], .gap⟩ s

/-- The tokens at the end of the text, unless a quoted text is open. -/
def Lexer.finish (L : Lexer) : Option (List Token) :=
  match L.reading with
  | .gap => some L.tokens
  | .word w => some (L.tokens ++ [.word w])
  | .text _ => none

/-- The tokens of a text. -/
def tokensOf (s : List Char) : Option (List Token) := (Lexer.ofText s).finish

/-- The lexer with some tokens before those that it has found. -/
def Lexer.after (L : Lexer) (before : List Token) : Lexer := ⟨before ++ L.tokens, L.reading⟩

section Pieces

variable (L : Lexer) (before ts : List Token)

theorem Lexer.read_append (s t : List Char) : L.read (s ++ t) = (L.read s).read t :=
  List.foldl_append

theorem Lexer.first_append (c : Char) :
    Lexer.first (before ++ ts) c = (Lexer.first ts c).after before := by
  unfold Lexer.first
  split
  · rfl
  · split
    · rfl
    · split
      · rfl
      · rw [Lexer.after, List.append_assoc]

theorem Lexer.feed_after (c : Char) : (L.after before).feed c = (L.feed c).after before := by
  obtain ⟨tokens, reading⟩ := L
  cases reading with
  | gap => exact Lexer.first_append before tokens c
  | word w =>
    simp only [Lexer.feed, Lexer.after]
    split
    · rfl
    · rw [List.append_assoc]
      exact Lexer.first_append before (tokens ++ [.word w]) c
  | text t =>
    simp only [Lexer.feed, Lexer.after]
    split
    · rw [List.append_assoc]
    · rfl

theorem Lexer.finish_after : (L.after before).finish = L.finish.map fun ts => before ++ ts := by
  obtain ⟨tokens, reading⟩ := L
  cases reading with
  | gap | text t => rfl
  | word w => simp only [Lexer.finish, Lexer.after, Option.map_some, List.append_assoc]

/-- What a piece adds does not depend on the tokens before it. -/
theorem Lexer.read_after (s : List Char) : (L.after before).read s = (L.read s).after before := by
  induction s generalizing L with
  | nil => rfl
  | cons c s ih =>
    rw [Lexer.read, List.foldl_cons, Lexer.feed_after]
    exact ih (L.feed c)

/-- A piece without a quote goes into the quoted text. -/
theorem Lexer.read_text {s : List Char} (hs : quote ∉ s) (t : List Char) :
    Lexer.read ⟨ts, .text t⟩ s = ⟨ts, .text (t ++ s)⟩ := by
  induction s generalizing t with
  | nil => rw [List.append_nil]; rfl
  | cons c s ih =>
    rw [List.mem_cons, not_or] at hs
    have hfeed : Lexer.feed ⟨ts, .text t⟩ c = ⟨ts, .text (t ++ [c])⟩ := if_neg (Ne.symm hs.1)
    rw [Lexer.read, List.foldl_cons, hfeed]
    exact (ih hs.2 (t ++ [c])).trans (by rw [List.append_assoc, List.singleton_append])

/-- A piece of word characters goes into the word. -/
theorem Lexer.read_word {s : List Char} (hs : ∀ c ∈ s, isWordChar c = true) (w : List Char) :
    Lexer.read ⟨ts, .word w⟩ s = ⟨ts, .word (w ++ s)⟩ := by
  induction s generalizing w with
  | nil => rw [List.append_nil]; rfl
  | cons c s ih =>
    rw [List.forall_mem_cons] at hs
    have hfeed : Lexer.feed ⟨ts, .word w⟩ c = ⟨ts, .word (w ++ [c])⟩ := if_pos hs.1
    rw [Lexer.read, List.foldl_cons, hfeed]
    exact (ih hs.2 (w ++ [c])).trans (by rw [List.append_assoc, List.singleton_append])

/-- A word after a gap. -/
theorem Lexer.read_gap_word {s : List Char} (hs : ∀ c ∈ s, isWordChar c = true) (hne : s ≠ []) :
    Lexer.read ⟨ts, .gap⟩ s = ⟨ts, .word s⟩ := by
  cases s with
  | nil => exact absurd rfl hne
  | cons c s =>
    rw [List.forall_mem_cons] at hs
    have hfeed : Lexer.feed ⟨ts, .gap⟩ c = ⟨ts, .word [c]⟩ := if_pos hs.1
    rw [Lexer.read, List.foldl_cons, hfeed]
    exact Lexer.read_word ts hs.2 [c]

variable {a b s : List Char}

theorem Lexer.ofText_eq {r : Reading} (h : (Lexer.ofText a).reading = r) :
    Lexer.ofText a = ⟨(Lexer.ofText a).tokens, r⟩ := by
  rw [← h]

/-- A quoted piece between two others. -/
theorem Lexer.ofText_quoted (ha : (Lexer.ofText a).reading = .text []) (hs : quote ∉ s) :
    Lexer.ofText (a ++ (s ++ quote :: b)) =
      (Lexer.ofText b).after ((Lexer.ofText a).tokens ++ [.text s]) := by
  have hquote : Lexer.feed ⟨(Lexer.ofText a).tokens, .text s⟩ quote =
      (⟨[], .gap⟩ : Lexer).after ((Lexer.ofText a).tokens ++ [.text s]) := by
    rw [Lexer.after, List.append_nil]
    rfl
  have hstart : Lexer.ofText (a ++ (s ++ quote :: b)) = (Lexer.ofText a).read (s ++ quote :: b) :=
    Lexer.read_append _ a _
  rw [hstart, Lexer.ofText_eq ha, Lexer.read_append, Lexer.read_text _ hs, List.nil_append,
    Lexer.read, List.foldl_cons, hquote]
  exact Lexer.read_after _ _ b

/-- A word at the end. -/
theorem Lexer.ofText_last_word (ha : (Lexer.ofText a).reading = .gap)
    (hs : ∀ c ∈ s, isWordChar c = true) (hne : s ≠ []) :
    Lexer.ofText (a ++ s) = ⟨(Lexer.ofText a).tokens, .word s⟩ := by
  have hstart : Lexer.ofText (a ++ s) = (Lexer.ofText a).read s := Lexer.read_append _ a _
  rw [hstart, Lexer.ofText_eq ha, Lexer.read_gap_word _ hs hne]

/-- A word between two pieces, with a blank after it. -/
theorem Lexer.ofText_inner_word (ha : (Lexer.ofText a).reading = .gap)
    (hs : ∀ c ∈ s, isWordChar c = true) (hne : s ≠ []) :
    Lexer.ofText (a ++ (s ++ ' ' :: b)) =
      (Lexer.ofText b).after ((Lexer.ofText a).tokens ++ [.word s]) := by
  have hblank : Lexer.feed ⟨(Lexer.ofText a).tokens, .word s⟩ ' ' =
      (⟨[], .gap⟩ : Lexer).after ((Lexer.ofText a).tokens ++ [.word s]) := by
    rw [Lexer.after, List.append_nil]
    rfl
  have hstart : Lexer.ofText (a ++ (s ++ ' ' :: b)) = (Lexer.ofText a).read (s ++ ' ' :: b) :=
    Lexer.read_append _ a _
  rw [hstart, Lexer.ofText_eq ha, Lexer.read_append, Lexer.read_gap_word _ hs hne,
    Lexer.read, List.foldl_cons, hblank]
  exact Lexer.read_after _ _ b

end Pieces

end Workq.Core
