import Mathlib.Data.List.Sort

/-!
# Tables with a primary key

A table is its list of rows in strictly increasing key order, which is how a
clustered primary key stores them. `select` is a query with a condition, the
order of the key and an optional limit; `update` rewrites exactly the rows such a
query returns. The lemmas state both through `get?`, so that callers reason about
the table as a partial function from keys to records.
-/

namespace Workq.Core

/-- Rows in strictly increasing key order; no key occurs twice. -/
structure Table (κ α : Type*) [LinearOrder κ] where
  /-- The rows, each with its key. -/
  rows : List (κ × α)
  /-- The key order, which is also the order of every query. -/
  sorted : rows.Pairwise fun a b => a.1 < b.1

namespace Table

variable {κ α : Type*} [LinearOrder κ]

/-- The table with no row. -/
def empty : Table κ α := ⟨[], List.Pairwise.nil⟩

/-- The record stored under a key. -/
def get? (T : Table κ α) (k : κ) : Option α :=
  (T.rows.find? fun r => r.1 = k).map Prod.snd

/-- Cut a result list to an optional limit. -/
def limitTo {β : Type*} : Option Nat → List β → List β
  | none, l => l
  | some n, l => l.take n

/-- The rows that meet the condition, in key order, cut to the limit. -/
def select (T : Table κ α) (p : κ → α → Bool) (limit : Option Nat) : List (κ × α) :=
  limitTo limit (T.rows.filter fun r => p r.1 r.2)

/-- The keys of the selected rows. -/
def keysOf (T : Table κ α) (p : κ → α → Bool) (limit : Option Nat) : List κ :=
  (T.select p limit).map Prod.fst

/-- Rewrite exactly the selected rows; keys never change. -/
def update (T : Table κ α) (p : κ → α → Bool) (limit : Option Nat) (f : α → α) :
    Table κ α where
  rows := T.rows.map fun r => if r.1 ∈ T.keysOf p limit then (r.1, f r.2) else r
  sorted := by
    rw [List.pairwise_map]
    refine T.sorted.imp ?_
    intro a b hab
    split <;> split <;> exact hab

/-- Put a row at its place in the key order. -/
def insertRow (k : κ) (a : α) : List (κ × α) → List (κ × α)
  | [] => [(k, a)]
  | r :: rs => if k < r.1 then (k, a) :: r :: rs else if k = r.1 then r :: rs
      else r :: insertRow k a rs

theorem mem_insertRow {k : κ} {a : α} {rs : List (κ × α)} {r : κ × α}
    (h : r ∈ insertRow k a rs) : r = (k, a) ∨ r ∈ rs := by
  induction rs with
  | nil => exact Or.inl (List.mem_singleton.mp h)
  | cons x xs ih =>
    unfold insertRow at h
    split at h
    · exact List.mem_cons.mp h
    · split at h
      · exact Or.inr h
      · rcases List.mem_cons.mp h with rfl | hr
        · exact Or.inr (List.mem_cons_self ..)
        · exact (ih hr).imp_right (List.mem_cons_of_mem x)

theorem insertRow_sorted {k : κ} {a : α} {rs : List (κ × α)}
    (h : rs.Pairwise fun a b => a.1 < b.1) :
    (insertRow k a rs).Pairwise fun a b => a.1 < b.1 := by
  induction rs with
  | nil => exact List.pairwise_singleton _ _
  | cons x xs ih =>
    have hx := List.pairwise_cons.mp h
    unfold insertRow
    split
    · rename_i hlt
      refine List.pairwise_cons.mpr ⟨?_, h⟩
      intro y hy
      rcases List.mem_cons.mp hy with rfl | hy
      · exact hlt
      · exact hlt.trans (hx.1 y hy)
    · split
      · exact h
      · rename_i hle hne
        refine List.pairwise_cons.mpr ⟨?_, ih hx.2⟩
        intro y hy
        rcases mem_insertRow hy with rfl | hy
        · exact lt_of_le_of_ne (not_lt.mp hle) (Ne.symm hne)
        · exact hx.1 y hy

/-- Add a row; a row with the same key is left as it is. -/
def insert (T : Table κ α) (k : κ) (a : α) : Table κ α :=
  ⟨insertRow k a T.rows, insertRow_sorted T.sorted⟩

/-- A key has at most one row. -/
theorem eq_of_mem_rows {T : Table κ α} {k : κ} {a b : α} (ha : (k, a) ∈ T.rows)
    (hb : (k, b) ∈ T.rows) : a = b := by
  have hnodup : (T.rows.map Prod.fst).Nodup := by
    rw [List.Nodup, List.pairwise_map]
    exact T.sorted.imp fun h => h.ne
  exact congrArg Prod.snd (List.inj_on_of_nodup_map hnodup ha hb rfl)

/-- Looking a key up finds exactly the row stored under it. -/
theorem get?_eq_some {T : Table κ α} {k : κ} {a : α} :
    T.get? k = some a ↔ (k, a) ∈ T.rows := by
  rw [get?, Option.map_eq_some_iff]
  constructor
  · rintro ⟨⟨k', a'⟩, hf, rfl⟩
    have hk : k' = k := by simpa using List.find?_some hf
    exact hk ▸ List.mem_of_find?_eq_some hf
  · intro hmem
    have hsome : (T.rows.find? fun r => r.1 = k).isSome := by
      rw [List.find?_isSome]
      exact ⟨(k, a), hmem, by simp⟩
    obtain ⟨r, hr⟩ := Option.isSome_iff_exists.mp hsome
    have hk : r.1 = k := by simpa using List.find?_some hr
    refine ⟨r, hr, ?_⟩
    exact eq_of_mem_rows (hk ▸ List.mem_of_find?_eq_some hr) hmem

@[simp] theorem get?_empty (k : κ) : (empty : Table κ α).get? k = none := rfl

theorem mem_limitTo {β : Type*} {limit : Option Nat} {l : List β} {x : β}
    (h : x ∈ limitTo limit l) : x ∈ l := by
  cases limit with
  | none => exact h
  | some n => exact List.mem_of_mem_take h

theorem limitTo_sublist {β : Type*} (limit : Option Nat) (l : List β) :
    (limitTo limit l).Sublist l := by
  cases limit with
  | none => exact List.Sublist.refl l
  | some n => exact List.take_sublist n l

/-- A selected row is a row of the table that meets the condition. -/
theorem mem_select {T : Table κ α} {p : κ → α → Bool} {limit : Option Nat} {k : κ} {a : α}
    (h : (k, a) ∈ T.select p limit) : T.get? k = some a ∧ p k a = true := by
  have hm := List.mem_filter.mp (mem_limitTo h)
  exact ⟨get?_eq_some.mpr hm.1, hm.2⟩

/-- Without a limit the query returns every row that meets the condition. -/
theorem mem_select_none {T : Table κ α} {p : κ → α → Bool} {k : κ} {a : α} :
    (k, a) ∈ T.select p none ↔ T.get? k = some a ∧ p k a = true := by
  rw [get?_eq_some]
  exact List.mem_filter

theorem mem_keysOf {T : Table κ α} {p : κ → α → Bool} {limit : Option Nat} {k : κ}
    (h : k ∈ T.keysOf p limit) : ∃ a, T.get? k = some a ∧ p k a = true := by
  obtain ⟨⟨k', a⟩, hm, rfl⟩ := List.mem_map.mp h
  exact ⟨a, mem_select hm⟩

theorem mem_keysOf_none {T : Table κ α} {p : κ → α → Bool} {k : κ} :
    k ∈ T.keysOf p none ↔ ∃ a, T.get? k = some a ∧ p k a = true := by
  constructor
  · exact mem_keysOf
  · rintro ⟨a, ha⟩
    exact List.mem_map.mpr ⟨(k, a), mem_select_none.mpr ha, rfl⟩

/-- Query results come in strictly increasing key order. -/
theorem keysOf_sorted (T : Table κ α) (p : κ → α → Bool) (limit : Option Nat) :
    (T.keysOf p limit).Pairwise (· < ·) := by
  rw [keysOf, List.pairwise_map]
  exact T.sorted.sublist ((limitTo_sublist limit _).trans List.filter_sublist)

theorem keysOf_nodup (T : Table κ α) (p : κ → α → Bool) (limit : Option Nat) :
    (T.keysOf p limit).Nodup :=
  (T.keysOf_sorted p limit).imp fun h => h.ne

/-- A query returns at most as many rows as there are candidates for their keys. -/
theorem length_keysOf_le {T : Table κ α} {p : κ → α → Bool} {limit : Option Nat} {ks : List κ}
    (h : ∀ k ∈ T.keysOf p limit, k ∈ ks) : (T.keysOf p limit).length ≤ ks.length :=
  (List.subperm_of_subset (T.keysOf_nodup p limit) h).length_le

/-- A limited query is a prefix of the unlimited one. -/
theorem keysOf_some (T : Table κ α) (p : κ → α → Bool) (n : Nat) :
    T.keysOf p (some n) = (T.keysOf p none).take n := by
  simp only [keysOf, select, limitTo, List.map_take]

theorem length_keysOf_some (T : Table κ α) (p : κ → α → Bool) (n : Nat) :
    (T.keysOf p (some n)).length = min n (T.keysOf p none).length := by
  rw [keysOf_some, List.length_take]

/-- The limit keeps the smallest keys. -/
theorem keysOf_some_lt {T : Table κ α} {p : κ → α → Bool} {n : Nat} {k l : κ}
    (hk : k ∈ T.keysOf p (some n)) (hl : l ∈ T.keysOf p none)
    (hn : l ∉ T.keysOf p (some n)) : k < l := by
  rw [keysOf_some] at hk hn
  have hsplit := List.take_append_drop n (T.keysOf p none)
  have hsorted := T.keysOf_sorted p none
  rw [← hsplit] at hsorted hl
  have hd := (List.mem_append.mp hl).resolve_left hn
  exact (List.pairwise_append.mp hsorted).2.2 k hk l hd

/-- A query is determined by its keys and the records under them. -/
theorem select_eq_filterMap (T : Table κ α) (p : κ → α → Bool) (limit : Option Nat) :
    T.select p limit = (T.keysOf p limit).filterMap fun k => (T.get? k).map fun a => (k, a) := by
  rw [keysOf, List.filterMap_map]
  have hfun : ∀ r ∈ T.select p limit,
      ((fun k => (T.get? k).map fun a => (k, a)) ∘ Prod.fst) r = some r := by
    rintro ⟨k, a⟩ hr
    simp only [Function.comp_apply, (mem_select hr).1, Option.map_some]
  rw [List.filterMap_congr hfun, List.filterMap_some]

/-- An update rewrites the selected records and keeps the others. -/
theorem get?_update (T : Table κ α) (p : κ → α → Bool) (limit : Option Nat) (f : α → α)
    (k : κ) : (T.update p limit f).get? k =
      if k ∈ T.keysOf p limit then (T.get? k).map f else T.get? k := by
  have hmem : ∀ b, (k, b) ∈ (T.update p limit f).rows ↔
      ∃ a, (k, a) ∈ T.rows ∧ b = if k ∈ T.keysOf p limit then f a else a := by
    intro b
    constructor
    · intro hb
      obtain ⟨⟨k', a⟩, ha, he⟩ := List.mem_map.mp hb
      split at he
      · rename_i hsel
        obtain ⟨rfl, rfl⟩ := Prod.mk.inj he
        exact ⟨a, ha, by rw [if_pos hsel]⟩
      · rename_i hsel
        obtain ⟨rfl, rfl⟩ := Prod.mk.inj he
        exact ⟨a, ha, by rw [if_neg hsel]⟩
    · rintro ⟨a, ha, rfl⟩
      refine List.mem_map.mpr ⟨(k, a), ha, ?_⟩
      dsimp only
      split <;> rfl
  apply Option.ext
  intro b
  rw [get?_eq_some, hmem]
  by_cases hsel : k ∈ T.keysOf p limit
  · simp only [hsel, if_true, Option.map_eq_some_iff, get?_eq_some, @eq_comm _ b]
  · simp only [hsel, if_false, get?_eq_some, exists_eq_right']

/-- The condition `WHERE id = k` selects at most the row of that key. -/
theorem get?_update_key (T : Table κ α) (k l : κ) (f : α → α) :
    (T.update (fun i _ => decide (i = k)) none f).get? l =
      if l = k then (T.get? l).map f else T.get? l := by
  rw [get?_update]
  by_cases hl : l = k
  · subst hl
    rw [if_pos rfl]
    split
    · rfl
    · rename_i hn
      cases ha : T.get? l with
      | none => rfl
      | some a => exact absurd (mem_keysOf_none.mpr ⟨a, ha, decide_eq_true rfl⟩) hn
  · rw [if_neg hl, if_neg]
    intro hm
    obtain ⟨_, _, hp⟩ := mem_keysOf hm
    exact hl (of_decide_eq_true hp)

/-- Inserting under an absent key adds exactly that row. -/
theorem get?_insert {T : Table κ α} {k : κ} (hk : T.get? k = none) (a : α) (l : κ) :
    (T.insert k a).get? l = if l = k then some a else T.get? l := by
  have hmem : ∀ (rs : List (κ × α)), (∀ b, (k, b) ∉ rs) → ∀ r,
      r ∈ insertRow k a rs ↔ r = (k, a) ∨ r ∈ rs := by
    intro rs habs r
    refine ⟨mem_insertRow, ?_⟩
    intro h
    induction rs with
    | nil => exact List.mem_singleton.mpr (h.resolve_right List.not_mem_nil)
    | cons x xs ih =>
      unfold insertRow
      split
      · exact List.mem_cons.mpr h
      · split
        · rename_i hx
          exact absurd (List.mem_cons_self ..) (hx ▸ habs x.2)
        · rcases h with h | h
          · exact List.mem_cons_of_mem _
              (ih (fun b hb => habs b (List.mem_cons_of_mem x hb)) (Or.inl h))
          · rcases List.mem_cons.mp h with rfl | h
            · exact List.mem_cons_self ..
            · exact List.mem_cons_of_mem _
                (ih (fun b hb => habs b (List.mem_cons_of_mem x hb)) (Or.inr h))
  have habs : ∀ b, (k, b) ∉ T.rows := by
    intro b hb
    rw [← get?_eq_some, hk] at hb
    contradiction
  apply Option.ext
  intro b
  rw [get?_eq_some]
  change (l, b) ∈ insertRow k a T.rows ↔ _
  rw [hmem T.rows habs]
  by_cases hl : l = k
  · subst hl
    simp only [Prod.mk.injEq, true_and, if_true, Option.some.injEq, habs b, or_false, eq_comm]
  · simp only [Prod.mk.injEq, hl, false_and, false_or, if_false, get?_eq_some]

end Table

end Workq.Core
