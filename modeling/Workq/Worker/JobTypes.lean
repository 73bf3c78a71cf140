import Workq.Configuration.Reload
import Workq.Worker.Registered

/-!
# The job types of a worker

`Worker::execute` splits the setting `jobs` at its commas, opens a dynamic library for each
piece and registers the library's `creator` under the stripped piece. A library that cannot be
opened or exports no `creator` is passed over, so what the worker's threads can execute is
decided by the settings and the libraries together.
-/

namespace Workq.Worker

open Workq.Core Workq.Jobs Workq.Configuration

variable {ι κ : Type*}

/-- `g_ascii_isspace`, which leaves out the vertical tab. -/
def asciiIsspace (c : Char) : Bool := c ∈ [' ', '\t', '\n', '\x0c', '\r']

/-- `g_strstrip`. -/
def strstrip (s : List Char) : List Char :=
  ((s.dropWhile asciiIsspace).reverse.dropWhile asciiIsspace).reverse

/-- What `g_module_symbol` finds in a job library. -/
structure Library (κ : Type*) where
  creator : Option κ
  hasInitialize : Bool
  hasFinalize : Bool
  deriving DecidableEq

/-- What `g_module_open` finds under a path. -/
abbrev Libraries (κ : Type*) := List Char → Option (Library κ)

/-- The variables of `execute` while it loads the jobs. -/
structure Loading (κ : Type*) where
  /-- `job_modules`, with NULL for a library that could not be opened. -/
  modules : List (Option (Library κ))
  /-- The indices of the modules whose `initialize` was called. -/
  initialized : List Nat
  /-- `m_job_types`. -/
  jobTypes : AList fun _ : List Char => κ

/-- The variables before the loop. -/
def Loading.start : Loading κ := ⟨[], [], ∅⟩

/-- `Worker::register_job_type`. -/
def Loading.registerJobType (st : Loading κ) (name : List Char) (creator : κ) : Loading κ :=
  { st with jobTypes := st.jobTypes.insert name creator }

/-- The loop body for one piece of the setting. -/
def Loading.load (libraries : Libraries κ) (modulePrefix : List Char) (st : Loading κ)
    (piece : List Char) : Loading κ :=
  let name := strstrip piece
  match libraries (modulePrefix ++ '/' :: name) with
  | none => { st with modules := st.modules ++ [none] }
  | some lib =>
    let opened := { st with modules := st.modules ++ [some lib] }
    match lib.creator with
    | none => opened
    | some creator =>
      let ready := if lib.hasInitialize then
        { opened with initialized := opened.initialized ++ [st.modules.length] } else opened
      ready.registerJobType name creator

section Lookup

variable (libraries : Libraries κ) (modulePrefix : List Char) (st : Loading κ)

end Lookup

section Runs

variable [DecidableEq ι]

end Runs

end Workq.Worker
