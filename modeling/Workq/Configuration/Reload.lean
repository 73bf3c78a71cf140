import Workq.Core.Run
import Workq.Configuration.Verify

/-!
# Reload cycles

A cycle loads a file, verifies the loaded table if loading returned true and commits it
if verification did. A complete document either replaces everything that the getters show
or nothing. A file that stops parsing is another matter: `load_from_file` reports success,
so the pairs read up to the failure are verified and committed like a whole section.
-/

namespace Workq.Configuration

open Workq.Core

/-- `commit`: the loaded table becomes the one in use. -/
def Settings.commit (s : Settings) : Settings := { s with table := s.loaded, loaded := ∅ }

/-- `get_str`. -/
def Settings.getStr (s : Settings) (key : List Char) (default : Option (List Char)) :
    Option (List Char) :=
  match s.table.lookup key with
  | some v => some v
  | none => default

/-- `get_int`. -/
def Settings.getInt (s : Settings) (key : List Char) (default : Int) : Int :=
  match s.table.lookup key with
  | some v => atoi v
  | none => default

/-- `get_bool`. -/
def Settings.getBool (s : Settings) (key : List Char) (default : Bool) : Bool :=
  match s.table.lookup key with
  | some v => strEqual "yes".toList v || strEqual "true".toList v
  | none => default

/-- The files of a reload: not there, ending in a syntax error after some events, or a
document of two levels. -/
inductive Source where
  | missing
  | broken (events : List YamlEvent) (h : .streamEnd ∉ events)
  | document (doc : Document)

/-- What the loader gets of a file. -/
def Source.file : Source → File
  | .missing => .missing
  | .broken events _ => .stream events
  | .document doc => .stream (documentEvents doc)

/-- The circumstances of one reload cycle. -/
structure Cycle where
  source : Source
  tests : FileTests
  visit : Visit

/-- One reload cycle, as `cli_setup` does it. -/
def Settings.reload (s : Settings) (c : Cycle) : Settings :=
  let (opened, t) := s.loadFromFile c.source.file
  if opened then
    if verify c.tests c.visit t.loaded then t.commit else t
  else t

/-- The getters show exactly the given values. -/
def Settings.Shows (s : Settings) (view : List Char → Option (List Char)) : Prop :=
  ∀ key, (∀ default, s.getStr key default = (view key).or default) ∧
    (∀ default, s.getInt key default = (view key).elim default atoi) ∧
    ∀ default, s.getBool key default =
      (view key).elim default fun v => strEqual "yes".toList v || strEqual "true".toList v

/-- The getters show the table in use and nothing else. -/
theorem Settings.shows_iff (s : Settings) (view : List Char → Option (List Char)) :
    s.Shows view ↔ ∀ key, s.table.lookup key = view key := by
  constructor
  · intro h key
    have hstr := (h key).1 none
    rw [Settings.getStr, Option.or_none] at hstr
    rw [← hstr]
    cases s.table.lookup key <;> rfl
  · intro h key
    simp only [Settings.getStr, Settings.getInt, Settings.getBool, h key]
    cases view key with
    | none => exact ⟨fun _ => rfl, fun _ => rfl, fun _ => rfl⟩
    | some v => exact ⟨fun _ => rfl, fun _ => rfl, fun _ => rfl⟩

/-- The values of a complete environment section. -/
def SectionView (env : List Char) (doc : Document) (view : List Char → Option (List Char)) :
    Prop :=
  ∀ k v, view k = some v ↔ LastOccurrence (selected (cstr env) (doc.map Section.cut)) k v

/-- All or nothing: what the getters show is as before, or it is the complete section of
the new document; a file that does not parse changes nothing. -/
def AllOrNothing (s : Settings) (c : Cycle) (t : Settings) : Prop :=
  (t.Shows s.table.lookup ∨
    ∃ doc view, c.source = .document doc ∧ SectionView s.env doc view ∧ t.Shows view) ∧
  ∀ events h, c.source = .broken events h → t.Shows s.table.lookup

/-- The file stops parsing after pairs that pass verification and read differently from the
table in use. -/
def Exposes (s : Settings) (c : Cycle) : Prop :=
  ∃ events h, c.source = .broken events h ∧
    verify c.tests c.visit (Loader.start.parse s.env events).loaded = true ∧
    ∃ key, (Loader.start.parse s.env events).loaded.lookup key ≠ s.table.lookup key

section Cycles

variable {s : Settings} {c : Cycle}

/-- A cycle leaves the table in use or replaces it by the loaded one. -/
theorem Settings.table_reload (s : Settings) (c : Cycle) :
    (s.reload c).table =
      if (s.loadFromFile c.source.file).1 = true ∧
          verify c.tests c.visit (s.loadFromFile c.source.file).2.loaded = true then
        (s.loadFromFile c.source.file).2.loaded
      else s.table := by
  unfold Settings.reload
  cases c.source.file with
  | missing => rfl
  | stream events =>
    by_cases hverify : verify c.tests c.visit (Loader.start.parse s.env events).loaded = true
    · simp only [Settings.loadFromFile, hverify, if_true, and_self, Settings.commit]
    · simp only [Settings.loadFromFile, hverify, if_true, if_false, and_false, Bool.false_eq_true]

/-- A file that cannot be opened changes nothing. -/
theorem reload_missing (hc : c.source = .missing) : (s.reload c).Shows s.table.lookup := by
  rw [Settings.shows_iff, s.table_reload, hc]
  intro key
  rfl

/-- A complete document is taken as a whole or not at all. -/
theorem reload_document {doc : Document} (hc : c.source = .document doc) :
    (s.reload c).Shows s.table.lookup ∨
      ∃ view, SectionView s.env doc view ∧ (s.reload c).Shows view := by
  simp only [Settings.shows_iff, s.table_reload, hc, Source.file]
  split
  · refine Or.inr ⟨_, ?_, fun key => rfl⟩
    intro k v
    exact (load_document_lookup s doc k v)
  · exact Or.inl fun key => rfl

/-- A file that stops parsing is seen exactly if its pairs pass verification. -/
theorem reload_broken_iff {events : List YamlEvent} {h : .streamEnd ∉ events}
    (hc : c.source = .broken events h) :
    (s.reload c).Shows s.table.lookup ↔
      ¬ (verify c.tests c.visit (Loader.start.parse s.env events).loaded = true ∧
        ∃ key, (Loader.start.parse s.env events).loaded.lookup key ≠ s.table.lookup key) := by
  simp only [Settings.shows_iff, s.table_reload, hc, Source.file, Settings.loadFromFile, true_and]
  split
  · rename_i hverify
    rw [not_and]
    constructor
    · intro hsame _ hdiff
      obtain ⟨key, hkey⟩ := hdiff
      exact hkey (hsame key)
    · intro hno key
      by_contra hkey
      exact hno hverify ⟨key, hkey⟩
  · rename_i hverify
    exact iff_of_true (fun key => rfl) fun hno => hverify hno.1

/-- One cycle is all or nothing exactly if its file does not expose a prefix. -/
theorem allOrNothing_iff : AllOrNothing s c (s.reload c) ↔ ¬ Exposes s c := by
  cases hc : c.source with
  | missing =>
    refine iff_of_true ⟨Or.inl (reload_missing hc), ?_⟩ ?_
    · intro events h hb
      rw [hc] at hb
      contradiction
    · rintro ⟨events, h, hb, _⟩
      rw [hc] at hb
      contradiction
  | broken events h =>
    rw [show Exposes s c ↔ _ ∧ _ from ?_, ← reload_broken_iff hc]
    · constructor
      · intro hall
        exact hall.2 events h hc
      · intro hsame
        exact ⟨Or.inl hsame, fun _ _ _ => hsame⟩
    · constructor
      · rintro ⟨events', h', hb, hrest⟩
        rw [hc] at hb
        obtain rfl := Source.broken.inj hb
        exact hrest
      · intro hrest
        exact ⟨events, h, hc, hrest⟩
  | document doc =>
    refine iff_of_true ⟨?_, ?_⟩ ?_
    · exact (reload_document hc).imp_right fun ⟨view, hview, hshows⟩ =>
        ⟨doc, view, hc, hview, hshows⟩
    · intro events h hb
      rw [hc] at hb
      contradiction
    · rintro ⟨events, h, hb, _⟩
      rw [hc] at hb
      contradiction

end Cycles

/-- Over every sequence of reload cycles, each one is all or nothing exactly if none reads a
file that stops parsing after pairs that pass verification and read differently from the
table in use. -/
theorem reload_all_or_nothing_iff (s : Settings) (cycles : List Cycle) :
    AllSteps (fun s c => some (s.reload c)) (fun s c => AllOrNothing s c (s.reload c)) s cycles ↔
      AllSteps (fun s c => some (s.reload c)) (fun s c => ¬ Exposes s c) s cycles :=
  ⟨AllSteps.imp fun _ _ => allOrNothing_iff.mp, AllSteps.imp fun _ _ => allOrNothing_iff.mpr⟩

/-- A cycle with entries visited as stored and no file to be found. -/
def Cycle.of (source : Source) : Cycle := ⟨source, ⟨fun _ => false, fun _ => false⟩, ⟨id, .refl⟩⟩

/-- A section with two settings. -/
def wholeSection : Source :=
  .document [⟨"dev".toList, [("workers".toList, "2".toList), ("listen".toList, "4488".toList)]⟩]

/-- The start of such a section, cut off by a syntax error after its first setting. -/
def brokenSection : Source :=
  .broken [.streamStart, .documentStart, .mappingStart, .scalar "dev".toList, .mappingStart,
    .scalar "workers".toList, .scalar "4".toList] (by decide)

/-- After a good load the broken file replaces `workers` and drops `listen`. -/
theorem reload_exposes_prefix :
    ∃ s t, s = (Settings.mk "dev".toList ∅ ∅).reload (.of wholeSection) ∧
      t = s.reload (.of brokenSection) ∧
      (s.getInt "workers".toList 1, s.getStr "listen".toList none) = (2, some "4488".toList) ∧
      (t.getInt "workers".toList 1, t.getStr "listen".toList none) = (4, none) ∧
      ¬ AllOrNothing s (.of brokenSection) t := by
  refine ⟨_, _, rfl, rfl, by decide, by decide, ?_⟩
  rw [allOrNothing_iff, not_not]
  exact ⟨_, _, rfl, by decide, "listen".toList, by decide⟩

end Workq.Configuration
