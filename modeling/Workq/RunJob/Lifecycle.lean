import Workq.Adaptor.Row

/-!
# The life cycle of a run job

A worker's `creator` makes a `RunJob`, `real_execute` loads its data and executes it, and
`delete` destroys it. The constructor does not initialise `m_data`, and `load_data` assigns
it only when the record has some data; the destructor reads it in every case. What
json-glib makes of a text is a parameter: an object, or NULL and an error.
-/

namespace Workq.RunJob

open Workq.Adaptor

variable {Obj Err : Type*}

/-- The pointer `m_data`. -/
inductive DataPointer (Obj : Type*) where
  | unassigned
  | null
  | object (o : Obj)
  deriving DecidableEq, Repr

/-- What the members of `RunJob` do with objects and with `m_data`. -/
inductive DataEvent (Obj : Type*) where
  /-- `m_data` is read before any statement has assigned it. -/
  | readUnassigned
  /-- `json_construct_gobject` returned an object. -/
  | construct (o : Obj)
  /-- `execute` is entered with this pointer. -/
  | execute (p : DataPointer Obj)
  /-- `g_object_unref`, of whatever the memory held if it is `none`. -/
  | unref (o : Option Obj)
  deriving DecidableEq, Repr

/-- A `RunJob`: the members that its life cycle reads and writes, with what has happened so
far. -/
structure Job (Obj : Type*) where
  record : MyRow
  data : DataPointer Obj
  events : List (DataEvent Obj)

/-- `creator`, and the constructor of `RunJob`. -/
def creator (record : MyRow) : Job Obj := ⟨record, .unassigned, []⟩

/-- `RunJob::load_data`. -/
def Job.loadData (construct : Bytes → Except Err Obj) (j : Job Obj) : Job Obj × Bool :=
  match j.record.strField "data".toList with
  | none => (j, false)
  | some data =>
    let text := data.takeWhile (· ≠ 0)
    if text = [] then (j, false)
    else
      match construct text with
      | .ok o => ({ j with data := .object o, events := j.events ++ [.construct o] }, true)
      | .error _ => ({ j with data := .null }, false)

/-- `RunJob::execute` starts with a read of `m_data`; `ret` is what it returns. -/
def Job.execute (j : Job Obj) (ret : Int) : Job Obj × Int :=
  ({ j with events := j.events ++ [.execute j.data] }, ret)

/-- `Job::real_execute`. -/
def Job.realExecute (construct : Bytes → Except Err Obj) (j : Job Obj) (ret : Int) :
    Job Obj × Int :=
  let (loaded, ok) := j.loadData construct
  if ok then loaded.execute ret else (loaded, 0)

/-- `RunJob::~RunJob`; `garbage` tells whether the memory of an unassigned `m_data` holds
something other than NULL. -/
def Job.destroy (garbage : Bool) (j : Job Obj) : Job Obj :=
  match j.data with
  | .unassigned =>
    { j with events := j.events ++ .readUnassigned :: if garbage then [.unref none] else [] }
  | .null => j
  | .object o => { j with events := j.events ++ [.unref (some o)] }

/-- Everything from `creator` to `delete`, as `run` does it with a job. -/
def lifecycle (construct : Bytes → Except Err Obj) (garbage : Bool) (ret : Int)
    (record : MyRow) : List (DataEvent Obj) :=
  (((creator record).realExecute construct ret).1.destroy garbage).events

/-- The objects that were constructed. -/
def constructed (events : List (DataEvent Obj)) : List Obj :=
  events.filterMap fun
    | .construct o => some o
    | _ => none

/-- What was given to `g_object_unref`. -/
def unreffed (events : List (DataEvent Obj)) : List (Option Obj) :=
  events.filterMap fun
    | .unref o => some o
    | _ => none

/-- `m_data` is never read before it is assigned, `execute` is entered only with a
constructed object, and what is constructed is what is unreffed. -/
structure TornDownSafely (events : List (DataEvent Obj)) : Prop where
  assigned : .readUnassigned ∉ events
  executed : ∀ p, .execute p ∈ events → ∃ o ∈ constructed events, p = .object o
  unreffed : unreffed events = (constructed events).map some

section Cases

variable (construct : Bytes → Except Err Obj) (garbage : Bool) (ret : Int) {record : MyRow}

/-- Without a text nothing is loaded, and the destructor reads the unassigned pointer. -/
theorem readUnassigned_mem_lifecycle (h : ∀ data, record.strField "data".toList = some data →
    data.takeWhile (· ≠ 0) = []) :
    .readUnassigned ∈ lifecycle construct garbage ret record := by
  have hload : (creator record).loadData construct = (creator record, false) := by
    unfold Job.loadData
    split
    · rfl
    · rename_i data hdata
      dsimp only
      rw [if_pos (h data hdata)]
  rw [lifecycle, Job.realExecute, hload]
  simp [creator, Job.destroy]

variable {data : Bytes}

/-- A text that json-glib rejects leaves NULL in the pointer. -/
theorem lifecycle_of_error (hdata : record.strField "data".toList = some data)
    (htext : data.takeWhile (· ≠ 0) ≠ []) {e : Err}
    (hc : construct (data.takeWhile (· ≠ 0)) = .error e) :
    lifecycle construct garbage ret record = [] := by
  have hload : (creator record).loadData construct = (⟨record, .null, []⟩, false) := by
    simp only [Job.loadData, creator, hdata, if_neg htext, hc]
  rw [lifecycle, Job.realExecute, hload]
  rfl

/-- A text that json-glib accepts leaves an object, which is executed and unreffed. -/
theorem lifecycle_of_ok (hdata : record.strField "data".toList = some data)
    (htext : data.takeWhile (· ≠ 0) ≠ []) {o : Obj}
    (hc : construct (data.takeWhile (· ≠ 0)) = .ok o) :
    lifecycle construct garbage ret record =
      [.construct o, .execute (.object o), .unref (some o)] := by
  have hload : (creator record).loadData construct =
      (⟨record, .object o, [.construct o]⟩, true) := by
    simp only [Job.loadData, creator, hdata, if_neg htext, hc, List.nil_append]
  rw [lifecycle, Job.realExecute, hload]
  rfl

end Cases

/-- A run job is torn down safely, whatever json-glib makes of its text and whatever the
memory holds, exactly if its record has a text that is not empty. -/
theorem run_job_torn_down_safely_iff (construct : Bytes → Except Err Obj) (garbage : Bool)
    (ret : Int) (record : MyRow) :
    TornDownSafely (lifecycle construct garbage ret record) ↔
      ∃ c cs, record.strField "data".toList = some (c :: cs) ∧ c ≠ 0 := by
  constructor
  · intro h
    by_contra hno
    refine h.assigned (readUnassigned_mem_lifecycle construct garbage ret ?_)
    intro data hdata
    cases data with
    | nil => rfl
    | cons c cs =>
      have hzero : c = 0 := by
        by_contra hc
        exact hno ⟨c, cs, hdata, hc⟩
      rw [List.takeWhile_cons_of_neg (by simp [hzero])]
  · rintro ⟨c, cs, hdata, hc⟩
    have htext : (c :: cs).takeWhile (· ≠ 0) ≠ [] := by
      rw [List.takeWhile_cons_of_pos (by simp [hc])]
      exact List.cons_ne_nil _ _
    cases hcon : construct ((c :: cs).takeWhile (· ≠ 0)) with
    | error e =>
      rw [lifecycle_of_error construct garbage ret hdata htext hcon]
      constructor <;> simp [constructed, unreffed]
    | ok o =>
      rw [lifecycle_of_ok construct garbage ret hdata htext hcon]
      constructor <;> simp [constructed, unreffed]

/-- A job row whose column `data` is empty: its job unrefs whatever the memory holds. -/
theorem run_job_without_data_unrefs_garbage :
    lifecycle (fun _ => Except.ok (ε := Unit) 1) true 1
        (newRow gnuNullText bufferSize (jobColumns (some []))) =
      [.readUnassigned, .unref none] ∧
    ¬ TornDownSafely (lifecycle (fun _ => Except.ok (ε := Unit) 1) true 1
      (newRow gnuNullText bufferSize (jobColumns (some [])))) := by
  have hevents : lifecycle (fun _ => Except.ok (ε := Unit) 1) true 1
      (newRow gnuNullText bufferSize (jobColumns (some []))) =
        [.readUnassigned, .unref none] := by decide +kernel
  refine ⟨hevents, ?_⟩
  intro h
  rw [hevents] at h
  exact h.assigned List.mem_cons_self

end Workq.RunJob
