import Workq.Core.CString
import Workq.Core.LastWrite

/-!
# Loading the settings of one environment

`load_from_file` sees a YAML document as a flat sequence of events. It tells keys from
values by the parity of a counter that every mapping start resets, remembers the last key
and decides at each mapping start whether the pairs that follow are the environment's.
For a document of two levels this selects exactly the sections with the environment's
name, read as C strings, and of each key its last occurrence.
-/

namespace Workq.Configuration

open Workq.Core

/-- A `GData` table from keys to texts. -/
abbrev Datalist := AList fun _ : List Char => List Char

/-- What `yaml_parser_parse` delivers. -/
inductive YamlEvent where
  | streamStart
  | streamEnd
  | documentStart
  | documentEnd
  | alias (anchor : List Char)
  | scalar (value : List Char)
  | sequenceStart
  | sequenceEnd
  | mappingStart
  | mappingEnd
  deriving DecidableEq, Repr

/-- The local variables of the event loop, with the table being loaded. -/
structure Loader where
  count : Nat
  /-- The last key, `none` for the quark 0. -/
  key : Option (List Char)
  useKeys : Bool
  loaded : Datalist

/-- The variables before the first event. -/
def Loader.start : Loader := ⟨0, none, false, ∅⟩

/-- The scalar case: an odd scalar is a key, an even one the value of the last key. -/
def Loader.scalar (st : Loader) (value : List Char) : Loader :=
  if (st.count + 1) % 2 = 1 then { st with count := st.count + 1, key := some (cstr value) }
  else
    match st.key with
    | none => { st with count := st.count + 1 }
    | some k =>
      if st.useKeys then
        { st with count := st.count + 1, key := none, loaded := st.loaded.insert k (cstr value) }
      else { st with count := st.count + 1 }

/-- The mapping start case. -/
def Loader.mappingStart (env : List Char) (st : Loader) : Loader :=
  match st.key with
  | none => { st with count := 0 }
  | some k => { st with count := 0, useKeys := strEqual k env }

/-- The loop body for one event. -/
def Loader.event (env : List Char) (st : Loader) : YamlEvent → Loader
  | .scalar value => st.scalar value
  | .mappingStart => st.mappingStart env
  | _ => st

/-- The event loop. It ends at the end of the stream, or when the parser fails, which is
the end of the list. -/
def Loader.parse (env : List Char) : Loader → List YamlEvent → Loader
  | st, [] => st
  | st, e :: es => if e = .streamEnd then st.event env e else Loader.parse env (st.event env e) es

/-- The fields of `Settings` that loading and reading use. -/
structure Settings where
  env : List Char
  table : Datalist
  loaded : Datalist

/-- A configuration file: it cannot be opened, or the parser delivers these events before
the end of the stream or its failure. -/
inductive File where
  | missing
  | stream (events : List YamlEvent)
  deriving DecidableEq, Repr

/-- `load_from_file` with its return value, which nothing sets to false once the file is
open. -/
def Settings.loadFromFile (s : Settings) : File → Bool × Settings
  | .missing => (false, s)
  | .stream events => (true, { s with loaded := (Loader.start.parse s.env events).loaded })

/-- A top-level entry whose value is a flat mapping. -/
structure Section where
  name : List Char
  entries : List (List Char × List Char)
  deriving DecidableEq, Repr

/-- A document whose root maps section names to flat mappings, in document order. -/
abbrev Document := List Section

/-- The events of one section. -/
def Section.events (s : Section) : List YamlEvent :=
  .scalar s.name :: .mappingStart ::
    (s.entries.flatMap (fun e => [.scalar e.1, .scalar e.2]) ++ [.mappingEnd])

/-- The standard event sequence of a document. -/
def documentEvents (doc : Document) : List YamlEvent :=
  .streamStart :: .documentStart :: .mappingStart ::
    (doc.flatMap Section.events ++ [.mappingEnd, .documentEnd, .streamEnd])

/-- The concatenation of the sections of the given name. -/
def selected (env : List Char) (doc : Document) : List (List Char × List Char) :=
  (doc.filter fun s => s.name = env).flatMap Section.entries

/-- A section with each scalar cut at its first NUL. -/
def Section.cut (s : Section) : Section := ⟨cstr s.name, s.entries.map (Prod.map cstr cstr)⟩

section Parse

variable (env : List Char)

/-- Events before the end of the stream are handled one after the other. -/
theorem Loader.parse_append {st : Loader} {es fs : List YamlEvent}
    (h : YamlEvent.streamEnd ∉ es) :
    st.parse env (es ++ fs) = (es.foldl (Loader.event env) st).parse env fs := by
  induction es generalizing st with
  | nil => rfl
  | cons e es ih =>
    rw [List.mem_cons, not_or] at h
    rw [List.cons_append, Loader.parse, if_neg (Ne.symm h.1), ih h.2, List.foldl_cons]

/-- A key and its value, met at an even count. -/
theorem Loader.event_pair {st : Loader} (hcount : st.count % 2 = 0) (k v : List Char) :
    ∃ key, (st.event env (.scalar k)).event env (.scalar v) =
      { st with
        count := st.count + 2
        key := key
        loaded := if st.useKeys then st.loaded.insert (cstr k) (cstr v) else st.loaded } := by
  have hodd : (st.count + 1) % 2 = 1 := by omega
  have heven : ¬ (st.count + 1 + 1) % 2 = 1 := by omega
  simp only [Loader.event, Loader.scalar, hodd, if_true, heven, if_false]
  cases st.useKeys with
  | true => exact ⟨none, rfl⟩
  | false => exact ⟨some (cstr k), rfl⟩

/-- The pairs of a mapping, met at an even count, are assigned in order if they are to be
used. -/
theorem Loader.event_pairs {st : Loader} (hcount : st.count % 2 = 0)
    (entries : List (List Char × List Char)) :
    ∃ count key, count % 2 = 0 ∧
      (entries.flatMap fun e => [YamlEvent.scalar e.1, .scalar e.2]).foldl (Loader.event env) st =
        ⟨count, key, st.useKeys,
          if st.useKeys then insertAll (entries.map (Prod.map cstr cstr)) st.loaded
          else st.loaded⟩ := by
  induction entries generalizing st with
  | nil =>
    refine ⟨st.count, st.key, hcount, ?_⟩
    cases huse : st.useKeys <;> simp [insertAll, ← huse]
  | cons e entries ih =>
    obtain ⟨key, hpair⟩ := Loader.event_pair env hcount e.1 e.2
    rw [List.flatMap_cons, List.foldl_append]
    simp only [List.foldl_cons, List.foldl_nil, hpair]
    have heven : (Loader.mk (st.count + 2) key st.useKeys (if st.useKeys then
        st.loaded.insert (cstr e.1) (cstr e.2) else st.loaded)).count % 2 = 0 := by
      dsimp only
      omega
    obtain ⟨count, key', hcount', hrest⟩ := ih heven
    refine ⟨count, key', hcount', hrest.trans ?_⟩
    cases st.useKeys <;> rfl

/-- A section adds its pairs exactly if it has the environment's name. -/
theorem Loader.event_section {st : Loader} (hcount : st.count % 2 = 0) (s : Section) :
    ∃ count key useKeys, count % 2 = 0 ∧ s.events.foldl (Loader.event env) st =
      ⟨count, key, useKeys, insertAll (selected (cstr env) [s.cut]) st.loaded⟩ := by
  have hodd : (st.count + 1) % 2 = 1 := by omega
  have hstart : (Loader.mk 0 (some (cstr s.name)) (strEqual (cstr s.name) env)
      st.loaded).count % 2 = 0 := rfl
  obtain ⟨count, key, hcount', hpairs⟩ := Loader.event_pairs env hstart s.entries
  refine ⟨count, key, strEqual (cstr s.name) env, hcount', ?_⟩
  rw [Section.events, List.foldl_cons, List.foldl_cons, List.foldl_append]
  simp only [Loader.event, Loader.scalar, hodd, if_true, Loader.mappingStart] at hpairs ⊢
  rw [hpairs]
  simp only [List.foldl_cons, List.foldl_nil, Loader.event, selected, List.filter_cons,
    List.filter_nil, Section.cut, strEqual, cstr_cstr, decide_eq_true_eq]
  split
  · simp only [List.flatMap_cons, List.flatMap_nil, List.append_nil]
  · rfl

/-- The sections of a document add the pairs of the selected ones in document order. -/
theorem Loader.event_document {st : Loader} (hcount : st.count % 2 = 0) (doc : Document) :
    ((doc.flatMap Section.events).foldl (Loader.event env) st).loaded =
      insertAll (selected (cstr env) (doc.map Section.cut)) st.loaded := by
  induction doc generalizing st with
  | nil => rfl
  | cons s doc ih =>
    obtain ⟨count, key, useKeys, hcount', hs⟩ := Loader.event_section env hcount s
    rw [List.flatMap_cons, List.foldl_append, hs, ih hcount']
    rw [← insertAll_append]
    rw [selected, selected, selected, ← List.flatMap_append, ← List.filter_append]
    rfl

end Parse

theorem streamEnd_not_mem_sections (doc : Document) :
    YamlEvent.streamEnd ∉ doc.flatMap Section.events := by
  simp [Section.events]

/-- What `load_from_file` leaves of a document of two levels. -/
theorem Settings.loaded_document (s : Settings) (doc : Document) :
    (s.loadFromFile (.stream (documentEvents doc))).2.loaded =
      insertAll (selected (cstr s.env) (doc.map Section.cut)) ∅ := by
  have hsplit : documentEvents doc = ([.streamStart, .documentStart, .mappingStart] ++
      doc.flatMap Section.events) ++ [.mappingEnd, .documentEnd, .streamEnd] := by
    rw [List.append_assoc]
    rfl
  have hnot : YamlEvent.streamEnd ∉ [.streamStart, .documentStart, .mappingStart] ++
      doc.flatMap Section.events := by
    rw [List.mem_append, not_or]
    exact ⟨by decide, streamEnd_not_mem_sections doc⟩
  simp only [Settings.loadFromFile]
  rw [hsplit, Loader.parse_append _ hnot, List.foldl_append]
  exact Loader.event_document _ rfl doc

/-- The loaded table maps a key to the value of its last occurrence. -/
theorem load_document_lookup (s : Settings) (doc : Document) (k v : List Char) :
    (s.loadFromFile (.stream (documentEvents doc))).2.loaded.lookup k = some v ↔
      LastOccurrence (selected (cstr s.env) (doc.map Section.cut)) k v := by
  rw [s.loaded_document doc, lookup_insertAll_empty]

/-- `load_from_file` selects exactly the environment's section: with every scalar read as a
C string, the loaded table maps a key to a value if and only if that is the value of the
key's last occurrence in the concatenation of the sections named like the environment. -/
theorem load_selects_environment (s : Settings) (doc : Document) (k v : List Char) :
    (s.loadFromFile (.stream (documentEvents doc))).1 = true ∧
      ((s.loadFromFile (.stream (documentEvents doc))).2.loaded.lookup k = some v ↔
        LastOccurrence (selected (cstr s.env) (doc.map Section.cut)) k v) :=
  ⟨rfl, load_document_lookup s doc k v⟩

/-- No scalar of the section has a NUL. -/
def Section.NulFree (s : Section) : Prop :=
  '\x00' ∉ s.name ∧ ∀ e ∈ s.entries, '\x00' ∉ e.1 ∧ '\x00' ∉ e.2

theorem Section.cut_eq_self {s : Section} (h : s.NulFree) : s.cut = s := by
  have hentries : ∀ e ∈ s.entries, Prod.map cstr cstr e = e := by
    intro e he
    obtain ⟨hk, hv⟩ := h.2 e he
    rw [Prod.map, cstr_eq_self hk, cstr_eq_self hv]
  rw [Section.cut, cstr_eq_self h.1, List.map_congr_left hentries, List.map_id']

/-- Without a NUL in the document its scalars are taken as they are. -/
theorem load_document_lookup_of_nulFree {s : Settings} {doc : Document} (henv : '\x00' ∉ s.env)
    (hdoc : ∀ x ∈ doc, x.NulFree) (k v : List Char) :
    (s.loadFromFile (.stream (documentEvents doc))).2.loaded.lookup k = some v ↔
      LastOccurrence (selected s.env doc) k v := by
  have hcut : doc.map Section.cut = doc := by
    rw [List.map_congr_left fun x hx => Section.cut_eq_self (hdoc x hx), List.map_id']
  rw [load_document_lookup, hcut, cstr_eq_self henv]

/-- A value with a NUL is cut there, and a section whose name has the environment's name
before a NUL counts as the environment's. -/
theorem load_cuts_at_nul :
    ((Settings.mk "dev".toList ∅ ∅).loadFromFile (.stream (documentEvents
        [⟨"dev".toList, [("jobs".toList, "a\x00b".toList)]⟩]))).2.loaded.lookup "jobs".toList =
          some "a".toList ∧
      ¬ LastOccurrence (selected "dev".toList
        [⟨"dev".toList, [("jobs".toList, "a\x00b".toList)]⟩]) "jobs".toList "a".toList ∧
      ((Settings.mk "dev".toList ∅ ∅).loadFromFile (.stream (documentEvents
        [⟨"dev\x00old".toList, [("jobs".toList, "b".toList)]⟩]))).2.loaded.lookup "jobs".toList =
          some "b".toList ∧
      selected "dev".toList [⟨"dev\x00old".toList, [("jobs".toList, "b".toList)]⟩] = [] := by
  refine ⟨by decide, ?_, by decide, by decide⟩
  intro h
  have hlast : LastOccurrence (selected "dev".toList
      [⟨"dev".toList, [("jobs".toList, "a\x00b".toList)]⟩]) "jobs".toList "a\x00b".toList :=
    ⟨[], [], by decide, fun e he => by contradiction⟩
  exact absurd (h.unique hlast) (by decide)

end Workq.Configuration
