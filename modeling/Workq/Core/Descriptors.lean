import Mathlib.Data.List.AList
import Mathlib.Data.List.Perm.Subperm
import Mathlib.Logic.Function.Basic

/-!
# Descriptor tables

A process's descriptor table maps small numbers to open descriptions. Opening takes the
lowest number that is free; closing a number frees it, whoever it belongs to, and does
nothing when it is free already. Besides the table, `Files` keeps a record of what was
opened and of who closed it. `Unopened`, `OpenAt` and `ClosedBy` are the three stages in the
life of a description, and `Same` says that a step leaves one alone.
-/

namespace Workq.Core

/-- Descriptions of type `δ` by number, with those opened so far and who closed each. -/
structure Files (δ γ : Type*) where
  table : AList fun _ : Nat => δ
  opened : δ → Bool
  closers : δ → List γ

/-- The lowest number that is not used. -/
def lowestFree (used : List Nat) : Nat :=
  ((List.range (used.length + 1)).find? fun n => n ∉ used).getD 0

/-- There is always a free number among the first few. -/
theorem lowestFree_not_mem (used : List Nat) : lowestFree used ∉ used := by
  rw [lowestFree]
  cases hfind : (List.range (used.length + 1)).find? fun n => n ∉ used with
  | some n =>
    have hn := List.find?_some hfind
    simpa using hn
  | none =>
    -- otherwise the list would hold more numbers than it has places
    have hall : List.range (used.length + 1) ⊆ used := by
      intro n hn
      have hmem := List.find?_eq_none.mp hfind n hn
      simpa using hmem
    have hlen := (List.subperm_of_subset List.nodup_range hall).length_le
    rw [List.length_range] at hlen
    omega

section Files

variable {δ γ : Type*} [DecidableEq δ]

/-- Open a description under the lowest free number. -/
def Files.open (f : Files δ γ) (d : δ) : Nat × Files δ γ :=
  let n := lowestFree f.table.keys
  (n, { f with table := f.table.insert n d, opened := Function.update f.opened d true })

/-- `pipe`: open a read end and a write end. -/
def Files.pipe (f : Files δ γ) (r w : δ) : (Nat × Nat) × Files δ γ :=
  (((f.open r).1, ((f.open r).2.open w).1), ((f.open r).2.open w).2)

/-- `close` by the given caller. -/
def Files.close (f : Files δ γ) (n : Nat) (caller : γ) : Files δ γ :=
  match f.table.lookup n with
  | none => f
  | some d =>
    { f with
      table := f.table.erase n
      closers := Function.update f.closers d (caller :: f.closers d) }

end Files

section Stages

variable {δ γ : Type*}

/-- A description that was never opened. -/
structure Unopened (f : Files δ γ) (d : δ) : Prop where
  opened : f.opened d = false
  closers : f.closers d = []
  held : ∀ n, f.table.lookup n ≠ some d

/-- A description that is open under exactly one number. -/
structure OpenAt (f : Files δ γ) (d : δ) (n : Nat) : Prop where
  opened : f.opened d = true
  closers : f.closers d = []
  held : ∀ m, f.table.lookup m = some d ↔ m = n

/-- A description that was opened and then closed once. -/
structure ClosedBy (f : Files δ γ) (d : δ) (caller : γ) : Prop where
  opened : f.opened d = true
  closers : f.closers d = [caller]
  held : ∀ n, f.table.lookup n ≠ some d

/-- Nothing about the description changes. -/
structure Same (f g : Files δ γ) (d : δ) : Prop where
  opened : g.opened d = f.opened d
  closers : g.closers d = f.closers d
  held : ∀ n, g.table.lookup n = some d ↔ f.table.lookup n = some d

variable {f g h : Files δ γ} {d : δ} {n : Nat} {caller : γ}

theorem Same.refl (f : Files δ γ) (d : δ) : Same f f d := ⟨rfl, rfl, fun _ => Iff.rfl⟩

theorem Same.trans (hf : Same f g d) (hg : Same g h d) : Same f h d where
  opened := hg.opened.trans hf.opened
  closers := hg.closers.trans hf.closers
  held n := (hg.held n).trans (hf.held n)

theorem Same.unopened (hs : Same f g d) (hd : Unopened f d) : Unopened g d where
  opened := hs.opened.trans hd.opened
  closers := hs.closers.trans hd.closers
  held n hn := hd.held n ((hs.held n).mp hn)

theorem Same.openAt (hs : Same f g d) (hd : OpenAt f d n) : OpenAt g d n where
  opened := hs.opened.trans hd.opened
  closers := hs.closers.trans hd.closers
  held m := (hs.held m).trans (hd.held m)

theorem Same.closedBy (hs : Same f g d) (hd : ClosedBy f d caller) : ClosedBy g d caller where
  opened := hs.opened.trans hd.opened
  closers := hs.closers.trans hd.closers
  held n hn := hd.held n ((hs.held n).mp hn)

theorem Files.lookup_lowestFree (f : Files δ γ) :
    f.table.lookup (lowestFree f.table.keys) = none := by
  rw [AList.lookup_eq_none, AList.mem_keys]
  exact lowestFree_not_mem f.table.keys

end Stages

section Operations

variable {δ γ : Type*} [DecidableEq δ] {f : Files δ γ} {d : δ} {n : Nat} {caller : γ}

/-- Opening touches no other description. -/
theorem Files.open_other (f : Files δ γ) {d' : δ} (hd : d' ≠ d) : Same f (f.open d).2 d' where
  opened := Function.update_of_ne hd ..
  closers := rfl
  held m := by
    simp only [Files.open]
    by_cases hm : m = lowestFree f.table.keys
    · rw [hm, AList.lookup_insert, f.lookup_lowestFree]
      simp [hd.symm]
    · rw [AList.lookup_insert_ne hm]

/-- An opened description is where `open` says. -/
theorem Unopened.open (hd : Unopened f d) : OpenAt (f.open d).2 d (f.open d).1 where
  opened := Function.update_self ..
  closers := hd.closers
  held m := by
    simp only [Files.open]
    by_cases hm : m = lowestFree f.table.keys
    · rw [hm, AList.lookup_insert]
      exact iff_of_true rfl rfl
    · rw [AList.lookup_insert_ne hm]
      exact iff_of_false (hd.held m) hm

/-- `pipe` opens its two ends and touches nothing else. -/
theorem Files.pipe_spec {r w : δ} (hrw : r ≠ w) (hr : Unopened f r) (hw : Unopened f w) :
    OpenAt (f.pipe r w).2 r (f.pipe r w).1.1 ∧ OpenAt (f.pipe r w).2 w (f.pipe r w).1.2 ∧
      ∀ d, d ≠ r → d ≠ w → Same f (f.pipe r w).2 d := by
  refine ⟨?_, ?_, ?_⟩
  · exact ((f.open r).2.open_other hrw).openAt hr.open
  · exact ((f.open_other hrw.symm).unopened hw).open
  · intro d hdr hdw
    exact (f.open_other hdr).trans ((f.open r).2.open_other hdw)

/-- Closing a free number does nothing. -/
theorem Files.close_free (h : f.table.lookup n = none) (caller : γ) : f.close n caller = f := by
  rw [Files.close, h]

/-- Closing a number touches only the description that is open there. -/
theorem Files.close_other (f : Files δ γ) (caller : γ) (h : f.table.lookup n ≠ some d) :
    Same f (f.close n caller) d := by
  cases hn : f.table.lookup n with
  | none => rw [f.close_free hn]; exact Same.refl f d
  | some d' =>
    have hd : d ≠ d' := by
      rintro rfl
      exact h hn
    rw [Files.close, hn]
    refine ⟨rfl, Function.update_of_ne hd .., ?_⟩
    intro m
    by_cases hm : m = n
    · rw [hm, AList.lookup_erase, hn]
      simp [hd.symm]
    · rw [AList.lookup_erase_ne hm]

/-- Closing the number of an open description closes it. -/
theorem OpenAt.close (h : OpenAt f d n) (caller : γ) : ClosedBy (f.close n caller) d caller := by
  have hn := (h.held n).mpr rfl
  rw [Files.close, hn]
  refine ⟨h.opened, ?_, ?_⟩
  · dsimp only
    rw [Function.update_self, h.closers]
  · intro m hm
    by_cases hmn : m = n
    · rw [hmn, AList.lookup_erase] at hm
      contradiction
    · rw [AList.lookup_erase_ne hmn] at hm
      exact hmn ((h.held m).mp hm)

/-- Closing a number is recorded with the description that is open there. -/
theorem Files.closers_close (h : f.table.lookup n = some d) (caller : γ) :
    (f.close n caller).closers d = caller :: f.closers d := by
  rw [Files.close, h]
  exact Function.update_self ..

end Operations

section Tables

variable {δ : Type*}

/-- `dup2`: a number comes to stand for what another one stands for. -/
def dup2 (T : AList fun _ : Nat => δ) (old new : Nat) : AList fun _ : Nat => δ :=
  match T.lookup old with
  | none => T
  | some d => if old = new then T else T.insert new d

theorem lookup_dup2 {T : AList fun _ : Nat => δ} {old new : Nat} {d : δ}
    (hold : T.lookup old = some d) (hne : old ≠ new) (n : Nat) :
    (dup2 T old new).lookup n = if n = new then some d else T.lookup n := by
  rw [dup2, hold]
  dsimp only
  rw [if_neg hne]
  split
  · rename_i hn
    rw [hn, AList.lookup_insert]
  · rename_i hn
    rw [AList.lookup_insert_ne hn]

end Tables

end Workq.Core
