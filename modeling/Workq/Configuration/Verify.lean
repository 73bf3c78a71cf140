import Workq.Configuration.Load

/-!
# Verifying a loaded table

`verify` runs `test_key_value` over the loaded entries in whatever order the table is
visited and returns the flag that is left. Most keys assign the flag instead of lowering
it, so the entry visited last decides: the verdict says something about the table, and
the same in every order, only when all these entries agree.
-/

namespace Workq.Configuration

open Workq.Core

/-- `g_path_get_dirname`: the text before the last slashes, `.` without a slash and `/` when
nothing stands before them. -/
def pathGetDirname (file : List Char) : List Char :=
  if '/' ∈ file then
    let base := ((file.reverse.dropWhile (· ≠ '/')).dropWhile (· = '/')).reverse
    if base = [] then ['/'] else base
  else ['.']

/-- The answers of `g_file_test`. -/
structure FileTests where
  fileExists : List Char → Bool
  isDir : List Char → Bool

/-- `Verify::test_key_value` on the flag `valid`. -/
def testKeyValue (tests : FileTests) (valid : Bool) (key value : List Char) : Bool :=
  if key = "adapter".toList then valid
  else if key = "database".toList then valid
  else if key = "username".toList then valid
  else if key = "password".toList then valid
  else if key = "pool".toList then 0 < atoi value
  else if key = "host".toList then valid
  else if key = "port".toList then 0 < atoi value
  else if key = "workers".toList then 0 < atoi value
  else if key = "listen".toList then 0 < atoi value
  else if key = "pollrate".toList then 0 < atoi value
  else if key = "logfile".toList then tests.fileExists value
  else if key = "pidfile".toList then
    -- `g_file_test` succeeds when any of its tests does
    tests.fileExists (pathGetDirname value) || tests.isDir (pathGetDirname value)
  else false

/-- An order in which `g_datalist_foreach` may visit the entries of a table. -/
structure Visit where
  order : List (Σ _ : List Char, List Char) → List (Σ _ : List Char, List Char)
  perm : ∀ l, (order l).Perm l

/-- `Settings::verify` on a loaded table. -/
def verify (tests : FileTests) (visit : Visit) (loaded : Datalist) : Bool :=
  (visit.order loaded.entries).foldl (fun valid e => testKeyValue tests valid e.1 e.2) true

/-- Whether a key's branch assigns the flag. -/
def judged (key : List Char) : Bool :=
  key ≠ "adapter".toList ∧ key ≠ "database".toList ∧ key ≠ "username".toList ∧
    key ≠ "password".toList ∧ key ≠ "host".toList

/-- A judged key replaces the flag and any other key leaves it. -/
theorem testKeyValue_eq (tests : FileTests) (valid : Bool) (key value : List Char) :
    testKeyValue tests valid key value =
      if judged key then testKeyValue tests true key value else valid := by
  by_cases hj : judged key
  · rw [if_pos hj]
    rw [judged, decide_eq_true_eq] at hj
    obtain ⟨h₁, h₂, h₃, h₄, h₅⟩ := hj
    simp only [testKeyValue, if_neg h₁, if_neg h₂, if_neg h₃, if_neg h₄, if_neg h₅]
  · rw [if_neg hj]
    simp only [judged, decide_eq_true_eq, not_and_or, not_not] at hj
    rcases hj with rfl | rfl | rfl | rfl | rfl <;> rfl

/-- `verify` keeps the verdict of the judged entry visited last. -/
theorem verify_eq_overwrite (tests : FileTests) (visit : Visit) (loaded : Datalist) :
    verify tests visit loaded = overwrite (fun e => judged e.1)
      (fun e => testKeyValue tests true e.1 e.2) true (visit.order loaded.entries) := by
  rw [verify, overwrite]
  congr 1
  funext valid e
  exact testKeyValue_eq tests valid e.1 e.2

/-- Every key among the checked ones that is present has a good value. The directory of the
pid file is asked for with two flags at once: any file of that name, regular or not, passes. -/
structure NoBadKey (tests : FileTests) (loaded : Datalist) : Prop where
  number : ∀ key ∈ ["pool", "port", "workers", "listen", "pollrate"], ∀ v,
    loaded.lookup key.toList = some v → 0 < atoi v
  logfile : ∀ v, loaded.lookup "logfile".toList = some v → tests.fileExists v = true
  pidfile : ∀ v, loaded.lookup "pidfile".toList = some v →
    tests.fileExists (pathGetDirname v) = true ∨ tests.isDir (pathGetDirname v) = true

/-- A table whose judged entries all pass has no bad key. -/
theorem noBadKey_of_forall {tests : FileTests} {loaded : Datalist}
    (h : ∀ e ∈ loaded.entries, judged e.1 = true → testKeyValue tests true e.1 e.2 = true) :
    NoBadKey tests loaded := by
  have hpass : ∀ key v, loaded.lookup key = some v → judged key = true →
      testKeyValue tests true key v = true := by
    intro key v hv
    exact h ⟨key, v⟩ (AList.mem_lookup_iff.mp hv)
  constructor
  case number =>
    intro key hkey v hv
    simp only [List.mem_cons, List.not_mem_nil, or_false] at hkey
    rcases hkey with rfl | rfl | rfl | rfl | rfl <;>
      exact of_decide_eq_true (hpass _ v hv (by decide))
  case logfile =>
    intro v hv
    exact hpass _ v hv (by decide)
  case pidfile =>
    intro v hv
    exact Bool.or_eq_true_iff.mp (hpass _ v hv (by decide))

/-- The visiting order that leaves one entry for last. -/
def Visit.last (e : Σ _ : List Char, List Char) : Visit where
  order l := if e ∈ l then l.erase e ++ [e] else l
  perm l := by
    split
    · rename_i he
      exact List.perm_append_comm.trans (List.perm_cons_erase he).symm
    · exact List.Perm.refl l

/-- Leaving a judged entry for last makes its verdict the answer. -/
theorem verify_last {tests : FileTests} {loaded : Datalist} {e : Σ _ : List Char, List Char}
    (he : e ∈ loaded.entries) (hj : judged e.1 = true) :
    verify tests (Visit.last e) loaded = testKeyValue tests true e.1 e.2 := by
  rw [verify_eq_overwrite, Visit.last]
  simp only [if_pos he]
  exact overwrite_concat _ hj

/-- Entries with one verdict give one answer, in every order. -/
theorem verify_of_forall {tests : FileTests} {loaded : Datalist} {b : Bool}
    (h : ∀ e ∈ loaded.entries, judged e.1 = true → testKeyValue tests true e.1 e.2 = b)
    (visit : Visit) :
    verify tests visit loaded =
      if loaded.entries.any (fun e => judged e.1) then b else true := by
  have hperm := visit.perm loaded.entries
  have hall : ∀ e ∈ visit.order loaded.entries, judged e.1 = true →
      testKeyValue tests true e.1 e.2 = b := by
    intro e he
    exact h e (hperm.mem_iff.mp he)
  rw [verify_eq_overwrite, overwrite_of_forall hall, hperm.any_eq]

/-- `verify` accepts only tables with no bad key and answers the same in every visiting
order exactly if the judged entries of the table all pass or all fail. -/
theorem verify_sound_iff (tests : FileTests) (loaded : Datalist) :
    ((∀ visit, verify tests visit loaded = true → NoBadKey tests loaded) ∧
        ∀ visit visit', verify tests visit loaded = verify tests visit' loaded) ↔
      ∀ e ∈ loaded.entries, ∀ e' ∈ loaded.entries, judged e.1 = true → judged e'.1 = true →
        testKeyValue tests true e.1 e.2 = testKeyValue tests true e'.1 e'.2 := by
  constructor
  · rintro ⟨_, hsame⟩ e he e' he' hj hj'
    rw [← verify_last he hj, ← verify_last he' hj']
    exact hsame _ _
  · intro h
    obtain ⟨b, hb⟩ : ∃ b, ∀ e ∈ loaded.entries, judged e.1 = true →
        testKeyValue tests true e.1 e.2 = b := by
      by_cases hex : ∃ e ∈ loaded.entries, judged e.1 = true
      · obtain ⟨e, he, hj⟩ := hex
        exact ⟨_, fun e' he' hj' => h e' he' e he hj' hj⟩
      · exact ⟨true, fun e he hj => absurd ⟨e, he, hj⟩ hex⟩
    refine ⟨?_, ?_⟩
    · intro visit haccept
      refine noBadKey_of_forall ?_
      intro e he hj
      have hany : loaded.entries.any (fun e => judged e.1) = true :=
        List.any_eq_true.mpr ⟨e, he, hj⟩
      rw [verify_of_forall hb visit, if_pos hany] at haccept
      rw [hb e he hj, haccept]
    · intro visit visit'
      rw [verify_of_forall hb visit, verify_of_forall hb visit']

/-- A table with a bad number of workers and a good port. -/
def badWorkers : Datalist :=
  insertAll [("workers".toList, "0".toList), ("listen".toList, "4488".toList)] ∅

/-- The bad number is accepted when the good port is visited after it, and rejected when
it is visited before. -/
theorem verify_accepts_bad_workers :
    ∃ tests visit visit', verify tests visit badWorkers = true ∧
      verify tests visit' badWorkers = false ∧ ¬ NoBadKey tests badWorkers := by
  refine ⟨⟨fun _ => false, fun _ => false⟩, Visit.last ⟨"listen".toList, "4488".toList⟩,
    Visit.last ⟨"workers".toList, "0".toList⟩, by decide, by decide, ?_⟩
  intro h
  exact absurd (h.number "workers" (by decide) "0".toList (by decide)) (by decide)

end Workq.Configuration
