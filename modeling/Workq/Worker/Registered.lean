import Workq.Worker.History

/-!
# What is executed has a registered type

`find_jobs` looks up the type of every row it fetched, and only a row whose name has a creator
gets into the job array. The invariant follows the name of a row from the `SELECT` to the
array, over anything that other threads do and whatever fails, so that what a thread executes
is registered in its process and what it discards is not.
-/

namespace Workq.Worker

open Workq.Core Workq.Jobs

variable {ι : Type*}

/-- The fetched rows that `find_jobs` has yet to look at. -/
def Pc.fetched : Pc → List Fetched
  | .rows _ rest _ | .discard _ _ _ rest _ | .mark _ _ rest _ => rest
  | _ => []

/-- The jobs that a thread has made and not finished. -/
def Pc.made : Pc → List JobId
  | .rows _ _ jobs | .discard _ _ _ _ jobs | .mark _ _ _ jobs | .batch _ jobs => jobs
  | .finish _ id _ jobs => id :: jobs
  | _ => []

/-- The row without a creator that the thread is about to set to `error`. -/
def Pc.unknown : Pc → Option JobId
  | .discard _ id false _ _ => some id
  | _ => none

/-- The row is in the table, and whether its name is registered. -/
def Typed (cfg : Config) (sh : Shared ι) (id : JobId) (known : Bool) : Prop :=
  ∃ r, sh.table.get? id = some r ∧ cfg.registered r.name = known

/-- What a thread has read of its rows' names is true of the table. -/
structure Informed (cfg : Config) (sh : Shared ι) (p : Pc) : Prop where
  fetched : ∀ f ∈ p.fetched, ∃ r, sh.table.get? f.id = some r ∧ r.name = f.name
  made : ∀ id ∈ p.made, Typed cfg sh id true
  unknown : ∀ id, p.unknown = some id → Typed cfg sh id false

/-- What the threads have read is true, and what was executed is registered. -/
structure Sanctioned (cfg : ι → Config) (sh : Shared ι) (pc : ι → Pc) : Prop where
  informed : ∀ q, Informed (cfg q) sh (pc q)
  ran : ∀ q id, sh.Owns q id → id ∈ sh.runIds → Typed (cfg q) sh id true

section Names

variable {cfg : Config} {sh sh' : Shared ι} {p : Pc}

/-- The rows of one table are in the other one under the same names. -/
def KeepsNames (sh sh' : Shared ι) : Prop :=
  ∀ id r, sh.table.get? id = some r → ∃ r', sh'.table.get? id = some r' ∧ r'.name = r.name

theorem Typed.keep {id : JobId} {known : Bool} (h : Typed cfg sh id known)
    (hkeep : KeepsNames sh sh') : Typed cfg sh' id known := by
  obtain ⟨r, hr, hreg⟩ := h
  obtain ⟨r', hr', hname⟩ := hkeep id r hr
  exact ⟨r', hr', by rw [hname, hreg]⟩

theorem Informed.keep (I : Informed cfg sh p) (hkeep : KeepsNames sh sh') :
    Informed cfg sh' p where
  fetched f hf := by
    obtain ⟨r, hr, hname⟩ := I.fetched f hf
    obtain ⟨r', hr', hname'⟩ := hkeep f.id r hr
    exact ⟨r', hr', hname'.trans hname⟩
  made id hid := (I.made id hid).keep hkeep
  unknown id hid := (I.unknown id hid).keep hkeep

/-- A thread that has read no row knows nothing wrong. -/
theorem Informed.blank (hf : p.fetched = []) (hm : p.made = []) (hu : p.unknown = none) :
    Informed cfg sh p where
  fetched f hmem := absurd (hf ▸ hmem) List.not_mem_nil
  made id hmem := absurd (hm ▸ hmem) List.not_mem_nil
  unknown id h := by rw [hu] at h; contradiction

/-- A thread that goes on with the rows and jobs in hand stays informed. -/
theorem Informed.shrink (I : Informed cfg sh p) {p' : Pc} (hf : ∀ f ∈ p'.fetched, f ∈ p.fetched)
    (hm : ∀ id ∈ p'.made, id ∈ p.made) (hu : p'.unknown = none) : Informed cfg sh p' where
  fetched f hmem := I.fetched f (hf f hmem)
  made id hmem := I.made id (hm id hmem)
  unknown id h := by rw [hu] at h; contradiction

/-- The branch for a fetched row is taken by its name in the table. -/
theorem Informed.create {c : Call} {row : Fetched} {rest : List Fetched} {jobs : List JobId}
    (I : Informed cfg sh (.rows c (row :: rest) jobs)) (made : Bool) :
    Informed cfg sh (rowPc cfg c row rest jobs made) := by
  obtain ⟨r, hr, hname⟩ := I.fetched row (List.mem_cons_self ..)
  have hrest : ∀ f ∈ rest, f ∈ (Pc.rows c (row :: rest) jobs).fetched :=
    fun f hf => List.mem_cons_of_mem row hf
  unfold rowPc
  split
  · rename_i hreg
    split
    · refine ⟨fun f hf => I.fetched f (hrest f hf), ?_, fun id h => by contradiction⟩
      intro id hid
      rcases List.mem_append.mp hid with hid | hid
      · exact I.made id hid
      · rw [List.mem_singleton.mp hid]
        exact ⟨r, hr, by rw [hname, hreg]⟩
    · split <;> exact I.shrink hrest (fun _ h => h) rfl
  · rename_i hreg
    split
    · refine ⟨fun f hf => I.fetched f (hrest f hf), I.made, ?_⟩
      intro id hid
      obtain rfl := Option.some.inj hid
      exact ⟨r, hr, by rw [hname]; exact Bool.eq_false_of_not_eq_true hreg⟩
    · exact I.shrink hrest (fun _ h => h) rfl

/-- Every step leaves its thread informed. -/
theorem Informed.own {q : ι} {wq wq' : WorkQueue} {a : Action} (I : Informed cfg sh wq.pc)
    (hkeep : KeepsNames sh sh') (h : ThreadStep cfg q sh wq a sh' wq') :
    Informed cfg sh' wq'.pc := by
  have I' := I.keep hkeep
  cases h with
  | check hpc =>
    dsimp only
    split <;> exact Informed.blank rfl rfl rfl
  | popFirst m ms hpc hm | popNext w m ms hpc hm => cases m <;> exact Informed.blank rfl rfl rfl
  | popNone w hpc hm =>
    dsimp only
    split <;> exact Informed.blank rfl rfl rfl
  | claim w stamp reply hpc hfresh =>
    dsimp only
    split <;> exact Informed.blank rfl rfl rfl
  | fetchOk c hpc =>
    refine ⟨?_, fun id hid => absurd hid List.not_mem_nil, fun id h => by contradiction⟩
    intro f hf
    obtain ⟨r, hr, hname, _⟩ := mem_fetch hf
    exact ⟨r, hr, hname⟩
  | create c row rest jobs made hpc =>
    rw [hpc] at I'
    exact I'.create made
  | returnJobs c jobs hpc =>
    rw [hpc] at I'
    exact I'.shrink (fun f hf => hf) (fun id hid => hid) rfl
  | discard c id known rest jobs reply hpc =>
    rw [hpc] at I'
    dsimp only
    split <;> exact I'.shrink (fun f hf => hf) (fun id hid => hid) rfl
  | mark c id rest jobs reply hpc =>
    rw [hpc] at I'
    exact I'.shrink (fun f hf => hf) (fun id hid => hid) rfl
  | execute w id jobs loadData execute hpc =>
    rw [hpc] at I'
    exact I'.shrink (fun f hf => hf) (fun id hid => hid) rfl
  | finish w id ret jobs reply hpc =>
    rw [hpc] at I'
    exact I'.shrink (fun f hf => hf) (fun i hi => List.mem_cons_of_mem _ hi) rfl
  | timeout | fetchNoResult | fetchFailed | release | batchEnd =>
    exact Informed.blank rfl rfl rfl

end Names

section Executions

variable {cfg : ι → Config} {sh : Shared ι} {pc : ι → Pc} {q : ι}

/-- What a thread executes has a registered type. -/
theorem Sanctioned.ran_threadStep {sh' : Shared ι} {wq wq' : WorkQueue} {a : Action}
    (A : Sanctioned cfg sh pc) (L : Ledger sh pc) (hq : pc q = wq.pc)
    (hkeep : KeepsNames sh sh') (h : ThreadStep (cfg q) q sh wq a sh' wq') {q' : ι} {id : JobId}
    (hown : sh'.Owns q' id) (hid : id ∈ sh'.runIds) : Typed (cfg q') sh' id true := by
  cases h with
  | claim w stamp reply hpc hfresh =>
    -- an executed row was claimed before, and by one queue only
    obtain ⟨q₀, hown₀⟩ := L.ran id hid
    have hq₀ : q' = q₀ := by
      obtain ⟨c, hc, hcq, hm⟩ := hown
      rcases List.mem_cons.mp hc with rfl | hc
      · have hmark : id ∈ claimIds sh.table w := by
          split at hm
          · exact absurd hm List.not_mem_nil
          · exact hm
        obtain ⟨r, hr, hs, _⟩ := mem_claimIds hmark
        obtain ⟨r₀, hr₀, hs₀⟩ := L.owned_row hown₀
        exact absurd (Option.some.inj (hr.symm.trans hr₀) ▸ hs) hs₀
      · exact L.owns_unique ⟨c, hc, hcq, hm⟩ hown₀
    subst hq₀
    exact (A.ran q' id hown₀ hid).keep hkeep
  | execute w i jobs loadData execute hpc =>
    rcases List.mem_cons.mp hid with rfl | hid
    · obtain ⟨howns, _⟩ := (L.duty q).todo id (by rw [hq, hpc]; exact List.mem_cons_self ..)
      obtain rfl := L.owns_unique howns hown
      exact (A.informed q).made id (by rw [hq, hpc]; exact List.mem_cons_self ..)
    · exact A.ran q' id hown hid
  | check | timeout | popFirst | popNext | popNone | fetchOk | fetchNoResult | fetchFailed
  | release | create | returnJobs | discard | mark | finish | batchEnd =>
    exact (A.ran q' id hown hid).keep hkeep

end Executions

/-- A start at which nothing was executed. -/
theorem Boot.sanctioned {s : System ι} (hs : Boot s) (cfg : ι → Config) :
    Sanctioned cfg s.shared s.pc := by
  refine ⟨?_, ?_⟩
  · intro q
    rcases hs.idle q with hq | ⟨w, hq⟩ <;> rw [hq] <;> exact Informed.blank rfl rfl rfl
  · intro q id _ hran
    rw [Shared.runIds, hs.runs] at hran
    contradiction

section Steps

variable [DecidableEq ι] {cfg : ι → Config} {s t : System ι}

/-- No step renames a row. -/
theorem Ledger.keepsNames {e : Event ι} (L : Ledger s.shared s.pc)
    (P : ∀ q, Placed s.shared (s.pc q)) (h : Worker.step cfg s e = some t) :
    KeepsNames s.shared t.shared := by
  intro id r hr
  obtain ⟨r', hr', hadv⟩ := L.advances_step P h hr
  refine ⟨r', hr', ?_⟩
  rcases hadv with rfl | ⟨hchange, _⟩
  · rfl
  · exact hchange.keeps.1

/-- Every step keeps what is executed registered. -/
theorem Sanctioned.step {e : Event ι} (A : Sanctioned cfg s.shared s.pc)
    (L : Ledger s.shared s.pc) (P : ∀ q, Placed s.shared (s.pc q))
    (h : Worker.step cfg s e = some t) : Sanctioned cfg t.shared t.pc := by
  have hkeep := L.keepsNames P h
  cases step_cases h with
  | insert id name data hid =>
    exact ⟨fun q => (A.informed q).keep hkeep,
      fun q i hown hran => (A.ran q i hown hran).keep hkeep⟩
  | send _ hsh hpc =>
    rw [hsh, hpc]
    exact A
  | thread q a sh wq hstep =>
    refine ⟨?_, fun q' id hown hran => A.ran_threadStep L rfl hkeep hstep hown hran⟩
    rw [System.pc_update]
    refine (Function.forall_update_iff s.pc fun q p => Informed (cfg q) sh p).mpr ⟨?_, ?_⟩
    · exact (A.informed q).own hkeep hstep
    · exact fun q' _ => (A.informed q').keep hkeep

end Steps

end Workq.Worker
