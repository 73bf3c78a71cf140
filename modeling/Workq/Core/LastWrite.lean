import Mathlib.Data.List.AList

/-!
# Tables filled by repeated assignment

Assigning a list of key and value pairs in order leaves under each key the value of its
last occurrence. `insertAll` is the assignment and `LastOccurrence` says which pair of
the list is the one that counts. `overwrite` is the same for a single variable that only
some elements of the list assign.
-/

namespace Workq.Core

variable {κ α : Type*}

/-- The pair stands in the list and its key does not occur after it. -/
def LastOccurrence (l : List (κ × α)) (k : κ) (a : α) : Prop :=
  ∃ before after, l = before ++ (k, a) :: after ∧ ∀ e ∈ after, e.1 ≠ k

theorem not_lastOccurrence_nil (k : κ) (a : α) : ¬ LastOccurrence [] k a := by
  rintro ⟨before, after, h, _⟩
  exact List.cons_ne_nil _ _ (List.append_eq_nil_iff.mp h.symm).2

/-- The last occurrence is in the tail, or it is the head and the tail has no other. -/
theorem lastOccurrence_cons {e : κ × α} {l : List (κ × α)} {k : κ} {a : α} :
    LastOccurrence (e :: l) k a ↔
      LastOccurrence l k a ∨ (e = (k, a) ∧ ∀ e' ∈ l, e'.1 ≠ k) := by
  constructor
  · rintro ⟨before, after, h, hafter⟩
    cases before with
    | nil =>
      obtain ⟨rfl, rfl⟩ := List.cons.inj h
      exact Or.inr ⟨rfl, hafter⟩
    | cons b before =>
      obtain ⟨rfl, rfl⟩ := List.cons.inj h
      exact Or.inl ⟨before, after, rfl, hafter⟩
  · rintro (⟨before, after, rfl, hafter⟩ | ⟨rfl, hl⟩)
    · exact ⟨e :: before, after, rfl, hafter⟩
    · exact ⟨[], l, rfl, hl⟩

/-- A key has at most one last occurrence. -/
theorem LastOccurrence.unique {l : List (κ × α)} {k : κ} {a b : α} (ha : LastOccurrence l k a)
    (hb : LastOccurrence l k b) : a = b := by
  induction l with
  | nil => exact absurd ha (not_lastOccurrence_nil k a)
  | cons e l ih =>
    have hmem : ∀ {c : α}, LastOccurrence l k c → ¬ ∀ e' ∈ l, e'.1 ≠ k := by
      rintro c ⟨before, after, rfl, _⟩ hno
      exact hno (k, c) (List.mem_append_right _ (List.mem_cons_self ..)) rfl
    rcases lastOccurrence_cons.mp ha with ha | ⟨ha, hna⟩ <;>
      rcases lastOccurrence_cons.mp hb with hb | ⟨hb, hnb⟩
    · exact ih ha hb
    · exact absurd hnb (hmem ha)
    · exact absurd hna (hmem hb)
    · exact congrArg Prod.snd (ha.symm.trans hb)

variable [DecidableEq κ]

/-- Assign the pairs in order. -/
def insertAll (l : List (κ × α)) (T : AList fun _ : κ => α) : AList fun _ : κ => α :=
  l.foldl (fun T e => T.insert e.1 e.2) T

theorem insertAll_append (l m : List (κ × α)) (T : AList fun _ : κ => α) :
    insertAll (l ++ m) T = insertAll m (insertAll l T) := by
  rw [insertAll, List.foldl_append]
  rfl

/-- After the assignments a key holds its last occurrence, or what it held before. -/
theorem lookup_insertAll {l : List (κ × α)} {T : AList fun _ : κ => α} {k : κ} {a : α} :
    (insertAll l T).lookup k = some a ↔
      LastOccurrence l k a ∨ ((∀ e ∈ l, e.1 ≠ k) ∧ T.lookup k = some a) := by
  induction l generalizing T with
  | nil => simp [insertAll, not_lastOccurrence_nil]
  | cons e l ih =>
    rw [lastOccurrence_cons]
    change (insertAll l (T.insert e.1 e.2)).lookup k = some a ↔ _
    rw [ih]
    by_cases hk : k = e.1
    · subst hk
      rw [AList.lookup_insert]
      constructor
      · rintro (h | ⟨hl, he⟩)
        · exact Or.inl (Or.inl h)
        · exact Or.inl (Or.inr ⟨Prod.ext rfl (Option.some.inj he), hl⟩)
      · rintro ((h | ⟨he, hl⟩) | ⟨hl, _⟩)
        · exact Or.inl h
        · exact Or.inr ⟨hl, congrArg (fun p => some p.2) he⟩
        · exact absurd rfl (hl e (List.mem_cons_self ..))
    · rw [AList.lookup_insert_ne hk]
      constructor
      · rintro (h | ⟨hl, hT⟩)
        · exact Or.inl (Or.inl h)
        · refine Or.inr ⟨?_, hT⟩
          intro e' he'
          rcases List.mem_cons.mp he' with rfl | he'
          · exact fun h => hk h.symm
          · exact hl e' he'
      · rintro ((h | ⟨he, _⟩) | ⟨hl, hT⟩)
        · exact Or.inl h
        · exact absurd (congrArg Prod.fst he).symm hk
        · exact Or.inr ⟨fun e' he' => hl e' (List.mem_cons_of_mem e he'), hT⟩

/-- Into an empty table the assignments leave exactly the last occurrences. -/
theorem lookup_insertAll_empty {l : List (κ × α)} {k : κ} {a : α} :
    (insertAll l ∅).lookup k = some a ↔ LastOccurrence l k a := by
  rw [lookup_insertAll]
  simp

/-- Go through a list and let the elements that write leave their value. -/
def overwrite {β : Type*} (writes : α → Bool) (value : α → β) (start : β) (l : List α) : β :=
  l.foldl (fun b a => if writes a then value a else b) start

section Overwrite

variable {β : Type*} {writes : α → Bool} {value : α → β} {start c : β}

/-- A writing last element decides. -/
theorem overwrite_concat (l : List α) {a : α} (h : writes a = true) :
    overwrite writes value start (l ++ [a]) = value a := by
  rw [overwrite, List.foldl_append, List.foldl_cons, List.foldl_nil, if_pos h]

/-- When all that is written is one value, the order of the list does not matter. -/
theorem overwrite_of_forall {l : List α} (h : ∀ a ∈ l, writes a = true → value a = c) :
    overwrite writes value start l = if l.any writes then c else start := by
  induction l generalizing start with
  | nil => rfl
  | cons a l ih =>
    have hl : ∀ x ∈ l, writes x = true → value x = c := by
      intro x hx
      exact h x (List.mem_cons_of_mem a hx)
    have hstep : overwrite writes value start (a :: l) =
        overwrite writes value (if writes a then value a else start) l := rfl
    rw [hstep, ih hl, List.any_cons]
    cases hw : writes a with
    | false => simp
    | true =>
      have hc := h a (List.mem_cons_self ..) hw
      simp [hc]

end Overwrite

end Workq.Core
