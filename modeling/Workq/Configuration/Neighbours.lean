import Workq.Configuration.Load

/-!
# A section among other entries

Nothing but a mapping start changes which pairs `load_from_file` reads, and nothing else
resets its counter: the scalars of a document fall into parts, cut at the mapping starts, and
how a part is read depends on the part and on whether the one before it was read. What the
other entries of the root mapping add to the environment's section, or whether they hide it,
can be told from these parts.
-/

namespace Workq.Configuration

open Workq.Core

/-- A YAML node; the keys of a mapping are scalars. -/
inductive Node where
  | scalar (value : List Char)
  | alias (anchor : List Char)
  | sequence (items : List Node)
  | mapping (entries : List (List Char × Node))

mutual

/-- The events of a node. -/
def Node.events : Node → List YamlEvent
  | .scalar value => [.scalar value]
  | .alias anchor => [.alias anchor]
  | .sequence items => .sequenceStart :: (itemEvents items ++ [.sequenceEnd])
  | .mapping entries => .mappingStart :: (entryEvents entries ++ [.mappingEnd])

/-- The events of the items of a sequence. -/
def itemEvents : List Node → List YamlEvent
  | [] => []
  | item :: items => item.events ++ itemEvents items

/-- The events of the entries of a mapping. -/
def entryEvents : List (List Char × Node) → List YamlEvent
  | [] => []
  | (key, value) :: entries => .scalar key :: (value.events ++ entryEvents entries)

end

/-- The entries of the root mapping around a section. -/
structure Surroundings where
  before : List (List Char × Node)
  after : List (List Char × Node)

/-- No other entries. -/
def Surroundings.alone : Surroundings := ⟨[], []⟩

/-- The entries of the root mapping with a section among them. -/
def Surroundings.rootEvents (S : Surroundings) (s : Section) : List YamlEvent :=
  entryEvents S.before ++ (s.events ++ entryEvents S.after)

/-- The document with a section in its surroundings. -/
def Surroundings.document (S : Surroundings) (s : Section) : List YamlEvent :=
  .streamStart :: .documentStart :: .mappingStart ::
    (S.rootEvents s ++ [.mappingEnd, .documentEnd, .streamEnd])

/-- The scalars up to the first mapping start, and those after each mapping start. -/
def cut : List YamlEvent → List (List Char) × List (List (List Char))
  | [] => ([], [])
  | .mappingStart :: es => ([], (cut es).1 :: (cut es).2)
  | .scalar value :: es => (value :: (cut es).1, (cut es).2)
  | _ :: es => cut es

/-- The parts of an event sequence. -/
def parts (es : List YamlEvent) : List (List (List Char)) := (cut es).1 :: (cut es).2

/-- Whether the mapping after some scalars is the environment's, given whether they are read
themselves and what a mapping start before them would have said. -/
def flagAfter (env : List Char) (used : Bool) : Bool → List (List Char) → Bool
  | flag, [] => flag
  | _, [key] => strEqual key env
  | _, key :: _ :: part => flagAfter env used (used || strEqual key env) part

/-- Whether the part after this one is read. -/
def usedAfter (env : List Char) (used : Bool) (part : List (List Char)) : Bool :=
  flagAfter env used used part

/-- No part that is read has a key and a value. -/
def NoneRead (env : List Char) : Bool → List (List (List Char)) → Prop
  | _, [] => True
  | used, part :: rest =>
    (used = true → part.length < 2) ∧ NoneRead env (usedAfter env used part) rest

/-- Whether what follows the parts is read. -/
def usedAfterAll (env : List Char) (used : Bool) (ps : List (List (List Char))) : Bool :=
  ps.foldl (usedAfter env) used

/-- The surroundings do not interfere: nothing before the section is read, the section is,
and nothing after it is. -/
structure Surroundings.Harmless (env : List Char) (S : Surroundings) : Prop where
  before : NoneRead env false (parts (entryEvents S.before ++ [.scalar env]))
  entered : usedAfterAll env false (parts (entryEvents S.before ++ [.scalar env])) = true
  after : NoneRead env true (parts (entryEvents S.after))

/-- The pairs of a part. -/
def pairsOf : List (List Char) → List (List Char × List Char)
  | key :: value :: part => (cstr key, cstr value) :: pairsOf part
  | _ => []

/-- The pairs of the parts that are read. -/
def readPairs (env : List Char) : Bool → List (List (List Char)) → List (List Char × List Char)
  | _, [] => []
  | used, part :: rest =>
    (if used then pairsOf part else []) ++ readPairs env (usedAfter env used part) rest

section Reading

variable (env : List Char)

/-- What `useKeys` becomes at a mapping start. -/
def Loader.flag (st : Loader) : Bool :=
  match st.key with
  | none => st.useKeys
  | some k => strEqual k env

theorem Loader.mappingStart_eq (st : Loader) :
    st.mappingStart env = { st with count := 0, useKeys := st.flag env } := by
  cases hkey : st.key with
  | none => simp only [Loader.mappingStart, Loader.flag, hkey]
  | some k => simp only [Loader.mappingStart, Loader.flag, hkey]

/-- After a mapping start another one would change nothing. -/
theorem Loader.flag_mappingStart (st : Loader) :
    (st.mappingStart env).flag env = (st.mappingStart env).useKeys := by
  rw [Loader.mappingStart_eq]
  simp only [Loader.flag]
  split <;> rfl

/-- Events are read part by part. -/
theorem Loader.foldl_event (st : Loader) (es : List YamlEvent) :
    es.foldl (Loader.event env) st =
      (cut es).2.foldl (fun st part => part.foldl Loader.scalar (st.mappingStart env))
        ((cut es).1.foldl Loader.scalar st) := by
  induction es generalizing st with
  | nil => rfl
  | cons e es ih =>
    rw [List.foldl_cons, ih]
    cases e <;> rfl

/-- A key and its value, with the key that stays behind when they are not read. -/
theorem Loader.scalar_pair {st : Loader} (hcount : st.count % 2 = 0) (key value : List Char) :
    (st.scalar key).scalar value =
      ⟨st.count + 2, if st.useKeys then none else some (cstr key), st.useKeys,
        if st.useKeys then st.loaded.insert (cstr key) (cstr value) else st.loaded⟩ := by
  have hodd : (st.count + 1) % 2 = 1 := by omega
  have heven : ¬ (st.count + 1 + 1) % 2 = 1 := by omega
  simp only [Loader.scalar, hodd, if_true, heven, if_false]
  cases st.useKeys <;> rfl

/-- Reading a part: its pairs are assigned if it is used, and the flag for the next part
follows from its last scalars. -/
theorem Loader.foldl_scalar (st : Loader) (hcount : st.count % 2 = 0)
    (part : List (List Char)) :
    (part.foldl Loader.scalar st).useKeys = st.useKeys ∧
      (part.foldl Loader.scalar st).flag env = flagAfter env st.useKeys (st.flag env) part ∧
      (part.foldl Loader.scalar st).loaded =
        insertAll (if st.useKeys then pairsOf part else []) st.loaded := by
  induction part using pairsOf.induct generalizing st with
  | case1 key value part ih =>
    have heven : (st.count + 2) % 2 = 0 := by omega
    rw [List.foldl_cons, List.foldl_cons, Loader.scalar_pair hcount]
    obtain ⟨huse, hflag, hloaded⟩ := @ih ⟨st.count + 2, if st.useKeys then none
      else some (cstr key), st.useKeys, if st.useKeys then st.loaded.insert (cstr key) (cstr value)
      else st.loaded⟩ heven
    refine ⟨huse, hflag.trans ?_, hloaded.trans ?_⟩
    · cases st.useKeys <;> simp [flagAfter, Loader.flag, strEqual]
    · cases st.useKeys <;> rfl
  | case2 part hshort =>
    cases part with
    | nil =>
      refine ⟨rfl, rfl, ?_⟩
      cases st.useKeys <;> rfl
    | cons key part =>
      cases part with
      | nil =>
        have hodd : (st.count + 1) % 2 = 1 := by omega
        have hkey : st.scalar key = ⟨st.count + 1, some (cstr key), st.useKeys, st.loaded⟩ :=
          if_pos hodd
        rw [List.foldl_cons, List.foldl_nil, hkey]
        refine ⟨rfl, ?_, ?_⟩
        · simp [Loader.flag, flagAfter, strEqual]
        · cases st.useKeys <;> rfl
      | cons value part => exact absurd rfl (hshort key value part)

/-- Reading the parts of an event sequence, begun after a mapping start. -/
theorem Loader.foldl_parts (st : Loader) (hcount : st.count = 0)
    (hflag : st.flag env = st.useKeys) (part : List (List Char))
    (rest : List (List (List Char))) :
    (rest.foldl (fun st part => part.foldl Loader.scalar (st.mappingStart env))
      (part.foldl Loader.scalar st)).loaded =
        insertAll (readPairs env st.useKeys (part :: rest)) st.loaded := by
  induction rest generalizing st part with
  | nil =>
    have hpart := Loader.foldl_scalar env st (by omega) part
    rw [List.foldl_nil, hpart.2.2, readPairs, readPairs, List.append_nil]
  | cons next rest ih =>
    obtain ⟨-, hnext, hloaded⟩ := Loader.foldl_scalar env st (by omega) part
    rw [hflag] at hnext
    have hstart : (part.foldl Loader.scalar st).mappingStart env =
        { part.foldl Loader.scalar st with
          count := 0
          useKeys := usedAfter env st.useKeys part } := by
      rw [Loader.mappingStart_eq, hnext]
      rfl
    have hflag' := Loader.flag_mappingStart env (part.foldl Loader.scalar st)
    rw [hstart] at hflag'
    rw [List.foldl_cons, hstart, ih _ rfl hflag' next]
    dsimp only
    rw [hloaded, ← insertAll_append]
    rfl

end Reading

section Parts

variable {env : List Char}

/-- A mapping start separates the parts on its two sides. -/
theorem parts_append_mappingStart (es fs : List YamlEvent) :
    parts (es ++ .mappingStart :: fs) = parts es ++ parts fs := by
  induction es with
  | nil => rfl
  | cons e es ih =>
    simp only [parts, List.cons_append, List.cons.injEq] at ih ⊢
    cases e <;> simp_all [cut]

/-- The end of the root mapping has no scalars. -/
theorem parts_append_end (es : List YamlEvent) :
    parts (es ++ [.mappingEnd, .documentEnd]) = parts es := by
  induction es with
  | nil => rfl
  | cons e es ih =>
    simp only [parts, List.cons_append, List.cons.injEq] at ih ⊢
    cases e <;> simp_all [cut]

/-- The keys and values of a flat mapping in order. -/
def entryScalars (entries : List (List Char × List Char)) : List (List Char) :=
  entries.flatMap fun e => [e.1, e.2]

/-- The first part after a section's start is the section's entries and what follows them. -/
theorem parts_section (entries : List (List Char × List Char)) (es : List YamlEvent) :
    parts ((entries.flatMap fun e => [.scalar e.1, .scalar e.2]) ++ .mappingEnd :: es) =
      (entryScalars entries ++ (cut es).1) :: (cut es).2 := by
  induction entries with
  | nil => rfl
  | cons e entries ih =>
    rw [parts, List.cons.injEq] at ih
    rw [parts, List.flatMap_cons, List.append_assoc, List.cons.injEq]
    exact ⟨congrArg (fun part => e.1 :: e.2 :: part) ih.1, ih.2⟩

/-- The section's name ends one part, and its entries begin another. -/
theorem Surroundings.parts_rootEvents (S : Surroundings) (env : List Char)
    (entries : List (List Char × List Char)) :
    parts (S.rootEvents ⟨env, entries⟩) = parts (entryEvents S.before ++ [.scalar env]) ++
      (entryScalars entries ++ (cut (entryEvents S.after)).1) ::
        (cut (entryEvents S.after)).2 := by
  rw [← parts_section, ← parts_append_mappingStart]
  simp [Surroundings.rootEvents, Section.events]

theorem pairsOf_entryScalars_append (entries : List (List Char × List Char))
    (part : List (List Char)) :
    pairsOf (entryScalars entries ++ part) =
      entries.map (Prod.map cstr cstr) ++ pairsOf part := by
  induction entries with
  | nil => rfl
  | cons e entries ih =>
    rw [List.map_cons, List.cons_append, ← ih]
    rfl

/-- The entries of a section that is read say nothing about the next mapping. -/
theorem usedAfter_entryScalars_append (entries : List (List Char × List Char))
    (part : List (List Char)) :
    usedAfter env true (entryScalars entries ++ part) = usedAfter env true part := by
  induction entries with
  | nil => rfl
  | cons e entries ih => exact ih

theorem readPairs_append (used : Bool) (ps qs : List (List (List Char))) :
    readPairs env used (ps ++ qs) =
      readPairs env used ps ++ readPairs env (usedAfterAll env used ps) qs := by
  induction ps generalizing used with
  | nil => rfl
  | cons p ps ih =>
    rw [List.cons_append, readPairs, readPairs, ih, List.append_assoc]
    rfl

/-- The entries of a section that is read come first. -/
theorem readPairs_section (entries : List (List Char × List Char)) (part : List (List Char))
    (rest : List (List (List Char))) :
    readPairs env true ((entryScalars entries ++ part) :: rest) =
      entries.map (Prod.map cstr cstr) ++ readPairs env true (part :: rest) := by
  rw [readPairs, readPairs, if_pos rfl, if_pos rfl, pairsOf_entryScalars_append,
    usedAfter_entryScalars_append, List.append_assoc]

theorem pairsOf_eq_nil_iff {part : List (List Char)} : pairsOf part = [] ↔ part.length < 2 := by
  cases part with
  | nil => exact iff_of_true rfl (by decide)
  | cons key part =>
    cases part with
    | nil => exact iff_of_true rfl (by simp)
    | cons value part => exact iff_of_false (List.cons_ne_nil _ _) (by simp)

/-- Nothing is read exactly if no part that is read has a pair. -/
theorem readPairs_eq_nil_iff {used : Bool} {ps : List (List (List Char))} :
    readPairs env used ps = [] ↔ NoneRead env used ps := by
  induction ps generalizing used with
  | nil => exact iff_of_true rfl trivial
  | cons p ps ih =>
    rw [readPairs, NoneRead, List.append_eq_nil_iff, ih]
    refine and_congr_left fun _ => ?_
    cases used with
    | false => simp
    | true =>
      rw [if_pos rfl, pairsOf_eq_nil_iff]
      exact ⟨fun h _ => h, fun h => h rfl⟩

end Parts

section Isolation

mutual

theorem streamEnd_not_mem_events : ∀ node : Node, YamlEvent.streamEnd ∉ node.events
  | .scalar value => by simp [Node.events]
  | .alias anchor => by simp [Node.events]
  | .sequence items => by simp [Node.events, streamEnd_not_mem_itemEvents items]
  | .mapping entries => by simp [Node.events, streamEnd_not_mem_entryEvents entries]

theorem streamEnd_not_mem_itemEvents : ∀ items, YamlEvent.streamEnd ∉ itemEvents items
  | [] => by simp [itemEvents]
  | item :: items => by
    simp [itemEvents, streamEnd_not_mem_events item, streamEnd_not_mem_itemEvents items]

theorem streamEnd_not_mem_entryEvents : ∀ entries, YamlEvent.streamEnd ∉ entryEvents entries
  | [] => by simp [entryEvents]
  | (key, value) :: entries => by
    simp [entryEvents, streamEnd_not_mem_events value, streamEnd_not_mem_entryEvents entries]

end

/-- What `load_from_file` leaves of a section in its surroundings. -/
theorem Settings.loaded_surroundings (s : Settings) (S : Surroundings)
    (entries : List (List Char × List Char)) :
    (s.loadFromFile (.stream (S.document ⟨s.env, entries⟩))).2.loaded =
      insertAll (readPairs s.env false (parts (entryEvents S.before ++ [.scalar s.env])) ++
        readPairs s.env
          (usedAfterAll s.env false (parts (entryEvents S.before ++ [.scalar s.env])))
          ((entryScalars entries ++ (cut (entryEvents S.after)).1) ::
            (cut (entryEvents S.after)).2)) ∅ := by
  have hsplit : S.document ⟨s.env, entries⟩ = (.streamStart :: .documentStart :: .mappingStart ::
      (S.rootEvents ⟨s.env, entries⟩ ++ [.mappingEnd, .documentEnd])) ++ [.streamEnd] := by
    simp [Surroundings.document]
  have hnot : .streamEnd ∉ .streamStart :: .documentStart :: .mappingStart ::
      (S.rootEvents ⟨s.env, entries⟩ ++ [.mappingEnd, .documentEnd]) := by
    simp [Surroundings.rootEvents, Section.events, streamEnd_not_mem_entryEvents]
  have hend : ∀ st : Loader, st.parse s.env [.streamEnd] = st := by
    intro st
    simp [Loader.parse, Loader.event]
  simp only [Settings.loadFromFile]
  rw [hsplit, Loader.parse_append _ hnot, hend, List.foldl_cons, List.foldl_cons, List.foldl_cons,
    Loader.foldl_event, Loader.foldl_parts _ _ rfl rfl, ← parts, parts_append_end,
    S.parts_rootEvents, readPairs_append]
  rfl

/-- Two event sequences load the same table. -/
def SameTable (s : Settings) (es fs : List YamlEvent) : Prop :=
  ∀ k, (s.loadFromFile (.stream es)).2.loaded.lookup k =
    (s.loadFromFile (.stream fs)).2.loaded.lookup k

variable {s : Settings} {S : Surroundings}

/-- A section alone is read, and nothing else. -/
theorem Surroundings.harmless_alone (env : List Char) : Surroundings.alone.Harmless env where
  before := ⟨fun h => Bool.noConfusion h, trivial⟩
  entered := by simp [Surroundings.alone, entryEvents, parts, cut, usedAfterAll, usedAfter,
    flagAfter, strEqual]
  after := ⟨fun _ => by decide, trivial⟩

/-- In harmless surroundings exactly the section is loaded. -/
theorem Surroundings.Harmless.loaded (h : S.Harmless s.env)
    (entries : List (List Char × List Char)) :
    (s.loadFromFile (.stream (S.document ⟨s.env, entries⟩))).2.loaded =
      insertAll (entries.map (Prod.map cstr cstr)) ∅ := by
  rw [s.loaded_surroundings, readPairs_eq_nil_iff.mpr h.before, h.entered, readPairs_section,
    List.nil_append]
  have hafter := readPairs_eq_nil_iff.mpr h.after
  rw [parts] at hafter
  rw [hafter, List.append_nil]

/-- A table that holds nothing had nothing assigned. -/
theorem eq_nil_of_lookup_insertAll {l : List (List Char × List Char)}
    (h : ∀ k, (insertAll l ∅).lookup k = none) : l = [] := by
  rcases List.eq_nil_or_concat' l with rfl | ⟨init, e, rfl⟩
  · rfl
  · have hlast : LastOccurrence (init ++ [e]) e.1 e.2 :=
      ⟨init, [], rfl, fun e he => absurd he List.not_mem_nil⟩
    have hsome := lookup_insertAll_empty.mpr hlast
    rw [h e.1] at hsome
    contradiction

/-- Some key is not the environment's name. -/
theorem exists_key_ne (env : List Char) : ∃ key, cstr key = key ∧ strEqual key env = false := by
  by_cases henv : cstr env = []
  · exact ⟨['x'], by decide, by rw [strEqual, henv]; decide⟩
  · exact ⟨[], rfl, decide_eq_false fun h => henv h.symm⟩

/-- Surroundings in which every section loads as it does alone are harmless. -/
theorem Surroundings.harmless_of_sameTable
    (h : ∀ entries, SameTable s (S.document ⟨s.env, entries⟩)
      (Surroundings.alone.document ⟨s.env, entries⟩)) : S.Harmless s.env := by
  simp only [SameTable, (Surroundings.harmless_alone s.env).loaded,
    s.loaded_surroundings S] at h
  -- an empty section shows that the surroundings add nothing
  have hnil := eq_nil_of_lookup_insertAll fun k => h [] k
  obtain ⟨hbefore, hafter⟩ := List.append_eq_nil_iff.mp hnil
  cases hentered : usedAfterAll s.env false (parts (entryEvents S.before ++ [.scalar s.env])) with
  | true =>
    rw [hentered] at hafter
    exact ⟨readPairs_eq_nil_iff.mp hbefore, hentered, readPairs_eq_nil_iff.mp hafter⟩
  | false =>
    -- a section with one entry would be missing
    obtain ⟨key, hkey, hne⟩ := exists_key_ne s.env
    have hone := h [(key, [])] key
    have hskip : readPairs s.env false
        ((entryScalars [(key, [])] ++ (cut (entryEvents S.after)).1) ::
          (cut (entryEvents S.after)).2) = readPairs s.env false
        ((entryScalars [] ++ (cut (entryEvents S.after)).1) :: (cut (entryEvents S.after)).2) := by
      simp [readPairs, entryScalars, usedAfter, flagAfter, hne]
    have hsome : (insertAll ([(key, [])].map (Prod.map cstr cstr)) ∅).lookup key =
        some (cstr []) :=
      lookup_insertAll_empty.mpr ⟨[], [], by simp [hkey], fun e he => absurd he List.not_mem_nil⟩
    rw [hentered] at hafter hone
    rw [hbefore, hskip, hafter, hsome] at hone
    contradiction

/-- Two documents with the same section load the same table, and the one that the section
loads alone, whatever the section holds, exactly if the surroundings are harmless in both. -/
theorem section_isolated_iff (s : Settings) (S₁ S₂ : Surroundings) :
    (∀ entries,
      SameTable s (S₁.document ⟨s.env, entries⟩) (S₂.document ⟨s.env, entries⟩) ∧
        SameTable s (S₁.document ⟨s.env, entries⟩)
          (Surroundings.alone.document ⟨s.env, entries⟩)) ↔
      S₁.Harmless s.env ∧ S₂.Harmless s.env := by
  constructor
  · intro h
    have hsecond : ∀ entries, SameTable s (S₂.document ⟨s.env, entries⟩)
        (Surroundings.alone.document ⟨s.env, entries⟩) := by
      intro entries k
      exact ((h entries).1 k).symm.trans ((h entries).2 k)
    exact ⟨Surroundings.harmless_of_sameTable (S := S₁) fun entries => (h entries).2,
      Surroundings.harmless_of_sameTable (S := S₂) hsecond⟩
  · rintro ⟨h₁, h₂⟩ entries
    simp only [SameTable, h₁.loaded, h₂.loaded, (Surroundings.harmless_alone s.env).loaded,
      implies_true, and_self]

/-- A scalar entry after the section is loaded with it. -/
theorem scalar_entry_leaks :
    ¬SameTable ⟨"dev".toList, ∅, ∅⟩
      (Surroundings.alone.document ⟨"dev".toList, [("workers".toList, "2".toList)]⟩)
      (Surroundings.document ⟨[], [("other".toList, .scalar "5".toList)]⟩
        ⟨"dev".toList, [("workers".toList, "2".toList)]⟩) := by
  intro h
  have hother := h "other".toList
  revert hother
  decide +kernel

end Isolation

end Workq.Configuration
