import Workq.Worker.Coherence
import Workq.Worker.Registered

/-!
# Exactly once, and what the table says of it

At most once holds whatever fails. When no statement and no creator fails and unknown jobs
are discarded, a row that was claimed is also executed, if its type is registered, and its
final status says how that went.
-/

namespace Workq.Worker

open Workq.Core Workq.Jobs

variable {ι : Type*}

/-- The end of a row, as the table has it. -/
def Finished (cfg : Config) (sh : Shared ι) (id : JobId) (r : JobRow) : Prop :=
  r.lockedQueueId = some [] ∧ (r.status = .complete ∨
    r.status = .error ∧ (id ∈ sh.runIds ∨ cfg.registered r.name = false))

/-- The claimed rows are on their way or finished, and what was executed is registered. -/
structure Reported (cfg : ι → Config) (sh : Shared ι) (pc : ι → Pc) : Prop where
  sanctioned : Sanctioned cfg sh pc
  row : ∀ q id r, sh.Owns q id → sh.table.get? id = some r →
    Status.Running r.status ∨ Finished (cfg q) sh id r

section Rows

variable {cfg : ι → Config} {sh : Shared ι} {pc : ι → Pc} {q : ι}

/-- The rows that a statement with `WHERE id=%d` leaves, when the named one is on its way or
finished afterwards. -/
theorem Reported.key (A : Reported cfg sh pc) {T : JobsTable} {i : JobId}
    {f : JobRow → JobRow}
    (hT : ∀ j, T.get? j = if j = i then (sh.table.get? j).map f else sh.table.get? j)
    (hf : ∀ q r, sh.Owns q i → sh.table.get? i = some r →
      Status.Running (f r).status ∨ Finished (cfg q) sh i (f r))
    {q : ι} {id : JobId} {r : JobRow} (hown : sh.Owns q id) (hr : T.get? id = some r) :
    Status.Running r.status ∨ Finished (cfg q) sh id r := by
  rw [hT] at hr
  split at hr
  · rename_i hi
    subst hi
    obtain ⟨r₀, hr₀, rfl⟩ := Option.map_eq_some_iff.mp hr
    exact hf q r₀ hown hr₀
  · exact A.row q id r hown hr

/-- The same for a statement that may have had no effect. -/
theorem Reported.key_reply (A : Reported cfg sh pc) {T : JobsTable} {i : JobId}
    {f : JobRow → JobRow} (reply : Reply)
    (hT : ∀ j, T.get? j = if j = i then (sh.table.get? j).map f else sh.table.get? j)
    (hf : ∀ q r, sh.Owns q i → sh.table.get? i = some r →
      Status.Running (f r).status ∨ Finished (cfg q) sh i (f r))
    {q : ι} {id : JobId} {r : JobRow} (hown : sh.Owns q id)
    (hr : (reply.apply sh.table T).get? id = some r) :
    Status.Running r.status ∨ Finished (cfg q) sh id r :=
  reply.apply_of (P := fun T => T.get? id = some r →
    Status.Running r.status ∨ Finished (cfg q) sh id r) (A.row q id r hown)
    (A.key hT hf hown) hr

/-- After a step of a thread its claimed rows and those of the others are on their way or
finished. -/
theorem Reported.row_threadStep {sh' : Shared ι} {wq wq' : WorkQueue} {a : Action}
    (A : Reported cfg sh pc) (L : Ledger sh pc) (hq : pc q = wq.pc)
    (hreg : (pc q).Regular) (h : ThreadStep (cfg q) q sh wq a sh' wq') {q' : ι} {id : JobId}
    {r : JobRow} (hown : sh'.Owns q' id) (hr : sh'.table.get? id = some r) :
    Status.Running r.status ∨ Finished (cfg q') sh' id r := by
  cases h with
  | claim w stamp reply hpc hfresh =>
    obtain ⟨c, hc, hcq, hm⟩ := hown
    rcases List.mem_cons.mp hc with rfl | hc
    · -- the rows of the new claim are loading
      have hloading : ∃ r', (sh.claim q (lockid stamp) w reply).table.get? id = some r' ∧
          r'.status = .loading := by
        match reply with
        | .ok | .failed true =>
          obtain ⟨r₀, _, _, hr'⟩ := (marks_claim sh.table (lockid stamp) w).marked id hm
          exact ⟨_, hr', rfl⟩
        | .failed false => exact absurd hm List.not_mem_nil
      obtain ⟨r', hr', hs⟩ := hloading
      obtain rfl := Option.some.inj (hr'.symm.trans hr)
      exact Or.inl (Or.inl hs)
    · have hown' : sh.Owns q' id := ⟨c, hc, hcq, hm⟩
      obtain ⟨r₀, hr₀, hs₀⟩ := L.owned_row hown'
      obtain rfl := Option.some.inj ((Shared.get?_claim_of_ne hr₀ hs₀).symm.trans hr)
      exact A.row q' id r₀ hown' hr₀
  | release c reply hpc =>
    rw [hq, hpc] at hreg
    exact hreg.elim
  | discard c i known rest jobs reply hpc =>
    rw [hq, hpc] at hreg
    obtain rfl : known = false := hreg
    refine A.key_reply reply (get?_setError sh.table i) ?_ hown hr
    intro q₀ r₀ hown₀ hr₀
    obtain ⟨howns, _⟩ := (L.duty q).current i (by rw [hq, hpc]; rfl)
    obtain rfl := L.owns_unique howns hown₀
    obtain ⟨r₁, hr₁, hunknown⟩ := (A.sanctioned.informed q).unknown i (by rw [hq, hpc]; rfl)
    obtain rfl := Option.some.inj (hr₁.symm.trans hr₀)
    exact Or.inr ⟨rfl, Or.inr ⟨rfl, Or.inr hunknown⟩⟩
  | mark c i rest jobs reply hpc =>
    refine A.key_reply reply (get?_setProcessing sh.table i) ?_ hown hr
    intro _ _ _ _
    exact Or.inl (Or.inr rfl)
  | execute w i jobs loadData execute hpc =>
    rcases A.row q' id r hown hr with hrunning | ⟨hlock, hst | ⟨hst, hran | hunknown⟩⟩
    · exact Or.inl hrunning
    · exact Or.inr ⟨hlock, Or.inl hst⟩
    · exact Or.inr ⟨hlock, Or.inr ⟨hst, Or.inl (List.mem_cons_of_mem i hran)⟩⟩
    · exact Or.inr ⟨hlock, Or.inr ⟨hst, Or.inr hunknown⟩⟩
  | finish w i ret jobs reply hpc =>
    obtain ⟨_, _, hran⟩ := (L.duty q).finishing i ret (by rw [hq, hpc]; rfl)
    by_cases hret : ret ≠ 0
    · simp only [if_pos hret] at hr
      refine A.key_reply reply (get?_setComplete sh.table i) ?_ hown hr
      intro _ _ _ _
      exact Or.inr ⟨rfl, Or.inl rfl⟩
    · simp only [if_neg hret] at hr
      refine A.key_reply reply (get?_setError sh.table i) ?_ hown hr
      intro _ _ _ _
      exact Or.inr ⟨rfl, Or.inr ⟨rfl, Or.inl (List.mem_map_of_mem hran)⟩⟩
  | check | timeout | popFirst | popNext | popNone | fetchOk | fetchNoResult | fetchFailed
  | create | returnJobs | batchEnd => exact A.row q' id r hown hr

end Rows

section Invariant

variable {cfg : ι → Config} {s : System ι}

/-- The invariant that carries the outcome. -/
structure Faithful (cfg : ι → Config) (s : System ι) : Prop where
  ledger : Ledger s.shared s.pc
  coherent : Coherent s.shared s.pc
  placed : ∀ q, Placed s.shared (s.pc q)
  settled : Settled s.shared
  reported : Reported cfg s.shared s.pc

/-- A start with clients' rows is told faithfully. -/
theorem Fresh.faithful (cfg : ι → Config) (hs : Fresh s) : Faithful cfg s := by
  have hidle : ∀ {P : Pc → Prop}, P .head → (∀ w, P (.findJobs w)) → ∀ q, P (s.pc q) := by
    intro P hhead hfind q
    rcases hs.idle q with hq | ⟨w, hq⟩ <;> rw [hq]
    · exact hhead
    · exact hfind w
  refine ⟨hs.boot.ledger, ⟨?_, ?_, ?_, hidle trivial fun _ => trivial⟩, hs.boot.placed, ?_,
    ⟨hs.boot.sanctioned cfg, ?_⟩⟩
  · intro id r hr
    obtain ⟨hst, hl⟩ := hs.rows id r hr
    exact locked_iff_running_of_cleared hl (hst ▸ Status.not_running_pending)
  · intro id r l hr hne hl
    exact absurd (Option.some.inj (hl.symm.trans (hs.rows id r hr).2)) hne
  · intro c hc
    rw [hs.claims] at hc
    contradiction
  · intro id r hr
    rw [(hs.rows id r hr).1]
    exact justified_of_ne Status.noConfusion Status.noConfusion
  · rintro q id r ⟨c, hc, _⟩
    rw [hs.claims] at hc
    contradiction

/-- A row claimed by a thread at rest is off its way. -/
theorem Faithful.finished (A : Faithful cfg s) {q : ι} (hq : s.pc q = .head ∨ s.pc q = .exited)
    {id : JobId} (hown : s.shared.Owns q id) :
    ∃ r, s.row id = some r ∧ Finished (cfg q) s.shared id r := by
  obtain ⟨r, hr, _⟩ := A.ledger.owned_row hown
  refine ⟨r, hr, (A.reported.row q id r hown hr).resolve_left ?_⟩
  intro hrunning
  obtain ⟨l, hne, hl⟩ := (A.coherent.status id r hr).mpr hrunning
  obtain ⟨_, _, _, _, _, hcov⟩ := A.coherent.covers_own A.ledger hown hr hne hl
  rcases hq with hq | hq <;> rw [hq] at hcov <;> exact hcov

/-- Each row that a thread at rest has claimed was executed once if its type is registered, and
is off its way. -/
theorem Faithful.once (A : Faithful cfg s) {q : ι} (hq : s.pc q = .head ∨ s.pc q = .exited)
    {c : Claim ι} (hc : c ∈ s.shared.claims) (hcq : c.queue = q) {id : JobId}
    (hid : id ∈ c.marked) :
    ∃ r, s.row id = some r ∧ r.lockedQueueId = some [] ∧
      if (cfg q).registered r.name then
        ∃ ret, s.shared.executions id = [ret] ∧
          r.status = if ret ≠ 0 then .complete else .error
      else s.shared.executions id = [] ∧ r.status = .error := by
  have hown : s.shared.Owns q id := ⟨c, hc, hcq, hid⟩
  obtain ⟨r, hr, hlock, hend⟩ := A.finished hq hown
  refine ⟨r, hr, hlock, ?_⟩
  have hrow : ∀ {known : Bool}, Typed (cfg q) s.shared id known →
      (cfg q).registered r.name = known := by
    rintro known ⟨r', hr', hreg⟩
    rw [← hreg, Option.some.inj (hr'.symm.trans hr)]
  have hran : id ∈ s.shared.runIds → (cfg q).registered r.name = true :=
    fun h => hrow (A.reported.sanctioned.ran q id hown h)
  have hexec : id ∈ s.shared.runIds → ∃ ret, (id, ret) ∈ s.shared.runs ∧
      s.shared.executions id = [ret] := by
    intro hmem
    obtain ⟨⟨i, ret⟩, hm, rfl⟩ := List.mem_map.mp hmem
    have hmem := Shared.mem_executions.mpr hm
    have hone : (s.shared.executions i).length = 1 :=
      le_antisymm (Shared.length_executions_le A.ledger.once i) (List.length_pos_of_mem hmem)
    obtain ⟨x, hx⟩ := List.length_eq_one_iff.mp hone
    rw [hx, List.mem_singleton] at hmem
    exact ⟨ret, hm, by rw [hx, hmem]⟩
  obtain ⟨hcomplete, herror⟩ := A.settled id r hr
  split
  · rename_i hreg
    rcases hend with hst | ⟨hst, hend⟩
    · obtain ⟨ret, hne, hm⟩ := hcomplete hst
      obtain ⟨ret', hm', hx⟩ := hexec (List.mem_map_of_mem hm)
      obtain rfl := A.ledger.run_unique hm hm'
      exact ⟨ret, hx, by rw [if_pos hne, hst]⟩
    · have hmem : id ∈ s.shared.runIds := by
        refine hend.resolve_right ?_
        rw [hreg]
        exact Bool.noConfusion
      obtain ⟨ret, hm, hx⟩ := hexec hmem
      exact ⟨ret, hx, by rw [if_neg (not_not.mpr (herror hst ret hm)), hst]⟩
  · rename_i hreg
    have hnot : id ∉ s.shared.runIds := fun h => hreg (hran h)
    have hempty : s.shared.executions id = [] := by
      rw [List.eq_nil_iff_forall_not_mem]
      intro ret hret
      exact hnot (List.mem_map_of_mem (Shared.mem_executions.mp hret))
    refine ⟨hempty, ?_⟩
    rcases hend with hst | ⟨hst, _⟩
    · obtain ⟨ret, _, hm⟩ := hcomplete hst
      exact absurd (List.mem_map_of_mem hm) hnot
    · exact hst

end Invariant

section Steps

variable [DecidableEq ι] {cfg : ι → Config} {s t : System ι}

/-- Every successful step keeps the invariant. -/
theorem Faithful.step {e : Event ι} (A : Faithful cfg s)
    (hdiscard : ∀ q, (cfg q).discardUnknownJobs = true) (he : e.Succeeds)
    (h : Worker.step cfg s e = some t) : Faithful cfg t := by
  refine ⟨A.ledger.step h, A.coherent.step A.ledger hdiscard he h, A.ledger.placed_step A.placed h,
    A.settled.step A.ledger h, ⟨A.reported.sanctioned.step A.ledger A.placed h, ?_⟩⟩
  intro q' i r hown hr
  cases step_cases h with
  | insert id name data hid =>
    obtain ⟨r₀, hr₀, _⟩ := A.ledger.owned_row hown
    obtain rfl := Option.some.inj ((get?_insert_of_some hid hr₀).symm.trans hr)
    exact A.reported.row q' i r₀ hown hr₀
  | send _ hsh hpc =>
    rw [hsh] at hown hr ⊢
    exact A.reported.row q' i r hown hr
  | thread q a sh wq hstep =>
    exact A.reported.row_threadStep A.ledger rfl (A.coherent.regular q) hstep hown hr

/-- Exactly once: in every run without failures, a thread at the head of its loop or exited
has executed each job that it claimed and whose type is registered exactly once, and none of
the others; each of these rows is unlocked, complete if its execution returned non-zero, and
an error otherwise. -/
theorem claimed_executed_exactly_once {es : List (Event ι)} (hs : Fresh s)
    (hdiscard : ∀ q, (cfg q).discardUnknownJobs = true) (hok : ∀ e ∈ es, e.Succeeds)
    (hrun : exec (step cfg) s es = some t) {q : ι} (hq : t.pc q = .head ∨ t.pc q = .exited)
    {c : Claim ι} (hc : c ∈ t.shared.claims) (hcq : c.queue = q) {id : JobId}
    (hid : id ∈ c.marked) :
    ∃ r, t.row id = some r ∧ r.lockedQueueId = some [] ∧
      if (cfg q).registered r.name then
        ∃ ret, t.shared.executions id = [ret] ∧
          r.status = if ret ≠ 0 then .complete else .error
      else t.shared.executions id = [] ∧ r.status = .error := by
  have A : Faithful cfg t := exec_preserves (C := fun _ e => e.Succeeds)
    (P := Faithful cfg) (fun _ _ _ he A hstep => A.step hdiscard he hstep)
    (allSteps_of_forall hok s) (hs.faithful cfg) hrun
  exact A.once hq hc hcq hid

end Steps

/-- The race to its end: the row that one queue claimed is complete with its one
execution. -/
theorem claimed_executed_exactly_once_race :
    ∃ t, exec (step fun _ => Config.runOnly) System.initial (raceEvents ++
        [.thread true (.update .ok), .thread true .done, .thread true (.execute true 5),
          .thread true (.update .ok), .thread true .done]) = some t ∧
      ∃ c ∈ t.shared.claims, c.queue = true ∧ c.marked = [1] ∧
        ∃ r, t.row 1 = some r ∧ r.lockedQueueId = some [] := by
  have hrun : (exec (step fun _ => Config.runOnly) System.initial (raceEvents ++
      [.thread true (.update .ok), .thread true .done, .thread true (.execute true 5),
        .thread true (.update .ok), .thread true .done])).map
      (fun t => (t.pc true, t.shared.claims.filter fun c => c.queue)) =
      some (.head, [⟨lockid ⟨2, 0, 0, 0⟩, true, 1, [1]⟩]) := by decide
  obtain ⟨t, ht, hend⟩ := Option.map_eq_some_iff.mp hrun
  obtain ⟨hhead, hclaims⟩ := Prod.mk.inj hend
  have hc : ⟨lockid ⟨2, 0, 0, 0⟩, true, 1, [1]⟩ ∈ t.shared.claims := by
    have hmem := hclaims ▸
      List.mem_singleton_self (⟨lockid ⟨2, 0, 0, 0⟩, true, 1, [1]⟩ : Claim Bool)
    exact (List.mem_filter.mp hmem).1
  have hok : ∀ e ∈ raceEvents ++ [.thread true (.update .ok), .thread true .done,
      .thread true (.execute true 5), .thread true (.update .ok), .thread true .done],
      e.Succeeds := by
    simp [raceEvents, Event.Succeeds, Action.Succeeds]
  obtain ⟨r, hr, hlock, _⟩ := claimed_executed_exactly_once fresh_initial (fun _ => rfl) hok ht
    (Or.inl hhead) hc rfl (List.mem_singleton_self 1)
  exact ⟨t, ht, _, hc, rfl, rfl, r, hr, hlock⟩

end Workq.Worker
