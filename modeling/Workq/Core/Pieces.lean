import Mathlib.Data.List.Basic

/-!
# Cutting a stream into pieces

Whether an element is the last of its piece depends on the element and on how many of the
piece came before it. The cut of a stream is then determined by the stream alone: however
it is read, its complete pieces are the same, and so is what follows them.
-/

namespace Workq.Core

variable {α : Type*} (last : Nat → α → Bool)

/-- No element ends a piece that has `n` elements before the list. -/
def Unended : Nat → List α → Prop
  | _, [] => True
  | n, x :: l => last n x = false ∧ Unended (n + 1) l

/-- A list that is one complete piece. -/
def IsPiece (piece : List α) : Prop :=
  ∃ l x, piece = l ++ [x] ∧ Unended last 0 l ∧ last l.length x = true

/-- The number of complete pieces, when the first has `n` elements before the list. -/
def countPieces : Nat → List α → Nat
  | _, [] => 0
  | n, x :: l => if last n x then countPieces 0 l + 1 else countPieces (n + 1) l

/-- What follows the first `k` pieces; nothing when there are fewer. -/
def dropPieces : Nat → Nat → List α → List α
  | 0, _, l => l
  | _ + 1, _, [] => []
  | k + 1, n, x :: l =>
    if last n x then dropPieces k 0 l else dropPieces (k + 1) (n + 1) l

variable {last} {n k : Nat} {l r : List α} {x : α} {pieces : List (List α)}

@[simp] theorem dropPieces_zero (last : Nat → α → Bool) (n : Nat) (l : List α) :
    dropPieces last 0 n l = l := by rw [dropPieces]

theorem Unended.append_singleton (h : Unended last n l) (hx : last (n + l.length) x = false) :
    Unended last n (l ++ [x]) := by
  induction l generalizing n with
  | nil => exact ⟨hx, trivial⟩
  | cons y l ih =>
    refine ⟨h.1, ih h.2 ?_⟩
    rw [List.length_cons, ← Nat.add_assoc, Nat.add_right_comm] at hx
    exact hx

theorem Unended.countPieces_append (h : Unended last n l) (r : List α) :
    countPieces last n (l ++ r) = countPieces last (n + l.length) r := by
  induction l generalizing n with
  | nil => rfl
  | cons y l ih =>
    rw [List.cons_append, countPieces, h.1, if_neg Bool.false_ne_true, ih h.2, List.length_cons]
    congr 1
    omega

theorem Unended.dropPieces_append (h : Unended last n l) (k : Nat) (r : List α) :
    dropPieces last (k + 1) n (l ++ r) = dropPieces last (k + 1) (n + l.length) r := by
  induction l generalizing n with
  | nil => rfl
  | cons y l ih =>
    rw [List.cons_append, dropPieces, h.1, if_neg Bool.false_ne_true, ih h.2, List.length_cons]
    congr 1
    omega

/-- An unended list has no complete piece. -/
theorem Unended.countPieces_eq_zero (h : Unended last n l) : countPieces last n l = 0 := by
  have hcount := h.countPieces_append []
  rw [List.append_nil] at hcount
  exact hcount

/-- Nothing follows a piece that an unended list does not have. -/
theorem Unended.dropPieces_eq_nil (h : Unended last n l) (k : Nat) :
    dropPieces last (k + 1) n l = [] := by
  have hdrop := h.dropPieces_append k []
  rw [List.append_nil] at hdrop
  exact hdrop

theorem IsPiece.countPieces_append {piece : List α} (h : IsPiece last piece) (r : List α) :
    countPieces last 0 (piece ++ r) = countPieces last 0 r + 1 := by
  obtain ⟨l, x, rfl, hl, hx⟩ := h
  rw [List.append_assoc, hl.countPieces_append, Nat.zero_add, List.singleton_append, countPieces,
    if_pos hx]

theorem IsPiece.dropPieces_append {piece : List α} (h : IsPiece last piece) (k : Nat)
    (r : List α) : dropPieces last (k + 1) 0 (piece ++ r) = dropPieces last k 0 r := by
  obtain ⟨l, x, rfl, hl, hx⟩ := h
  rw [List.append_assoc, hl.dropPieces_append, Nat.zero_add, List.singleton_append, dropPieces,
    if_pos hx]

/-- The pieces at the front of a stream all count. -/
theorem countPieces_flatten_append (h : ∀ piece ∈ pieces, IsPiece last piece) (r : List α) :
    countPieces last 0 (pieces.flatten ++ r) = countPieces last 0 r + pieces.length := by
  induction pieces with
  | nil => rfl
  | cons piece pieces ih =>
    rw [List.flatten_cons, List.append_assoc, (h piece (by simp)).countPieces_append,
      ih fun p hp => h p (by simp [hp]), List.length_cons]
    omega

/-- The pieces at the front of a stream are dropped one by one. -/
theorem dropPieces_flatten_append (h : ∀ piece ∈ pieces, IsPiece last piece) (k : Nat)
    (r : List α) :
    dropPieces last (k + pieces.length) 0 (pieces.flatten ++ r) = dropPieces last k 0 r := by
  induction pieces with
  | nil => rfl
  | cons piece pieces ih =>
    rw [List.flatten_cons, List.append_assoc, List.length_cons, ← Nat.add_assoc,
      (h piece (by simp)).dropPieces_append, ih fun p hp => h p (by simp [hp])]

end Workq.Core
