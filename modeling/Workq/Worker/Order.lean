import Workq.Worker.Board
import Workq.Worker.Tokens

/-!
# Jobs run in the order of their claims

A queue executes the jobs it claimed in the order of its claims, and within one claim in the
order of the ids. Rows in between may drop out, with an unknown type, a failed creator or a
lost fetch, but nothing overtakes: what a thread has executed, followed by what it has in
hand, is always a part of what its queue claimed, in that order.
-/

namespace Workq.Worker

open Workq.Core Workq.Jobs

variable {ι : Type*} [DecidableEq ι]

/-- The rows that a queue claimed, oldest claim first. -/
def Shared.claimed (sh : Shared ι) (q : ι) : List JobId :=
  ((claimsOf q sh.claims).reverse.map Claim.marked).flatten

/-- The jobs that a queue executed, oldest first. -/
def Shared.executed (sh : Shared ι) (q : ι) : List JobId :=
  sh.runIds.reverse.filter fun id => sh.owner id = some q

/-- The rows of the queue's last claim. -/
def Shared.lastMarked (sh : Shared ι) (q : ι) : List JobId :=
  ((claimsOf q sh.claims).head?.map Claim.marked).getD []

/-- The jobs that a thread may execute before its next claim, in this order. -/
def Pc.line (sh : Shared ι) (q : ι) : Pc → List JobId
  | .select _ => sh.lastMarked q
  | .rows _ rest jobs | .discard _ _ _ rest jobs | .mark _ _ rest jobs =>
    jobs ++ rest.map Fetched.id
  | .batch _ jobs | .finish _ _ _ jobs => jobs
  | _ => []

/-- The order invariant of one queue. -/
structure InOrder (sh : Shared ι) (q : ι) (p : Pc) : Prop where
  order : (sh.executed q ++ p.line sh q).Sublist (sh.claimed q)
  /-- The open claim is the queue's last one. -/
  last : ∀ c, p = .select c → ∃ cl, (claimsOf q sh.claims).head? = some cl ∧ cl.lock = c.lock

section Traces

variable {sh sh' : Shared ι} {pc : ι → Pc} {q : ι} {p : Pc}

/-- A thread that goes on with a part of its line stays in order. -/
theorem InOrder.shrink (O : InOrder sh q p) {p' : Pc}
    (hline : (p'.line sh q).Sublist (p.line sh q)) (hselect : ∀ c, p' ≠ .select c) :
    InOrder sh q p' where
  order := ((List.Sublist.refl _).append hline).trans O.order
  last c hc := absurd hc (hselect c)

/-- The order reads only the claims and the runs. -/
theorem InOrder.congr (O : InOrder sh q p) (hclaims : sh'.claims = sh.claims)
    (hruns : sh'.runs = sh.runs) : InOrder sh' q p := by
  have howner : ∀ id, sh'.owner id = sh.owner id := by
    intro id
    rw [Shared.owner, Shared.owner, hclaims]
  have hexecuted : sh'.executed q = sh.executed q := by
    simp only [Shared.executed, Shared.runIds, hruns, howner]
  have hclaimed : sh'.claimed q = sh.claimed q := by
    rw [Shared.claimed, Shared.claimed, hclaims]
  have hline : p.line sh' q = p.line sh q := by
    cases p with
    | select c => rw [Pc.line, Pc.line, Shared.lastMarked, Shared.lastMarked, hclaims]
    | _ => rfl
  refine ⟨?_, ?_⟩
  · rw [hexecuted, hclaimed, hline]
    exact O.order
  · rw [hclaims]
    exact O.last

/-- A new claim marks nothing that was executed, so it changes nobody's executions. -/
theorem Ledger.executed_claim (L : Ledger sh pc) {T : JobsTable} {lock : List Char} {w : Nat}
    {M : List JobId} (hM : Marks sh.table T lock w M) (r : ι) :
    Shared.executed { sh with table := T, claims := ⟨lock, r, w, M⟩ :: sh.claims } q =
      sh.executed q := by
  refine List.filter_congr ?_
  intro id hid
  have hran : id ∈ sh.runIds := List.mem_reverse.mp hid
  have hnot : id ∉ M := by
    obtain ⟨q', hown⟩ := L.ran id hran
    obtain ⟨r, hr, hs⟩ := L.owned_row hown
    exact hM.not_mem hr hs
  have howner : Shared.owner { sh with table := T, claims := ⟨lock, r, w, M⟩ :: sh.claims } id =
      sh.owner id := by
    simp only [Shared.owner, List.find?_cons, decide_eq_false hnot]
  rw [howner]

/-- A claim by the queue's own thread puts its rows at the end of the line. -/
theorem Ledger.inOrder_claim (L : Ledger sh pc) {T : JobsTable} {lock : List Char} {w : Nat}
    {M : List JobId} (hM : Marks sh.table T lock w M) (O : InOrder sh q p) {p' : Pc}
    (hp : p' = .select ⟨lock, w⟩ ∨ p' = .head) :
    InOrder { sh with table := T, claims := ⟨lock, q, w, M⟩ :: sh.claims } q p' := by
  have hof : claimsOf q (⟨lock, q, w, M⟩ :: sh.claims) = ⟨lock, q, w, M⟩ :: claimsOf q sh.claims :=
    List.filter_cons_of_pos (by simp)
  have hclaimed : Shared.claimed { sh with table := T, claims := ⟨lock, q, w, M⟩ :: sh.claims } q =
      sh.claimed q ++ M := by
    rw [Shared.claimed, hof, List.reverse_cons, List.map_append, List.flatten_append,
      Shared.claimed]
    simp
  have hpart : (sh.executed q).Sublist (sh.claimed q) :=
    (List.sublist_append_left _ _).trans O.order
  have hline : (p'.line { sh with table := T, claims := ⟨lock, q, w, M⟩ :: sh.claims } q).Sublist
      M := by
    rcases hp with rfl | rfl
    · rw [Pc.line, Shared.lastMarked, hof]
      exact List.Sublist.refl M
    · exact List.nil_sublist M
  refine ⟨?_, ?_⟩
  · rw [L.executed_claim hM q, hclaimed]
    exact hpart.append hline
  · rintro c rfl
    obtain hc | hc := hp
    · rw [hof]
      exact ⟨_, rfl, by rw [Pc.select.inj hc]⟩
    · contradiction

/-- A claim by another thread does not touch the queue's line. -/
theorem Ledger.inOrder_claim_other (L : Ledger sh pc) {T : JobsTable} {lock : List Char} {w : Nat}
    {M : List JobId} (hM : Marks sh.table T lock w M) (O : InOrder sh q p) {r : ι} (hr : q ≠ r) :
    InOrder { sh with table := T, claims := ⟨lock, r, w, M⟩ :: sh.claims } q p := by
  have hof : claimsOf q (⟨lock, r, w, M⟩ :: sh.claims) = claimsOf q sh.claims :=
    List.filter_cons_of_neg (by simpa using Ne.symm hr)
  have hline : p.line { sh with table := T, claims := ⟨lock, r, w, M⟩ :: sh.claims } q =
      p.line sh q := by
    cases p with
    | select c => rw [Pc.line, Pc.line, Shared.lastMarked, Shared.lastMarked, hof]
    | _ => rfl
  refine ⟨?_, ?_⟩
  · rw [L.executed_claim hM r, hline, Shared.claimed, hof]
    exact O.order
  · rw [hof]
    exact O.last

/-- The first job of the batch is the first of the line. -/
theorem Ledger.inOrder_execute (L : Ledger sh pc) {w : Int} {id : JobId} {jobs : List JobId}
    (hpc : pc q = .batch w (id :: jobs)) (O : InOrder sh q (pc q)) (ret : Int) :
    InOrder { sh with runs := (id, ret) :: sh.runs } q (.finish w id ret jobs) := by
  obtain ⟨hown, _⟩ := (L.duty q).todo id (by rw [hpc]; exact List.mem_cons_self ..)
  have hexecuted : Shared.executed { sh with runs := (id, ret) :: sh.runs } q =
      sh.executed q ++ [id] := by
    have howner : decide (sh.owner id = some q) = true :=
      decide_eq_true (L.owner_eq_some.mpr hown)
    rw [Shared.executed, Shared.runIds, List.map_cons, List.reverse_cons, List.filter_append]
    exact congrArg _ (List.filter_cons_of_pos howner)
  refine ⟨?_, fun c hc => by contradiction⟩
  have horder := O.order
  rw [hpc] at horder
  rw [hexecuted, List.append_assoc]
  exact horder

/-- A job of another queue is not in the line. -/
theorem Ledger.inOrder_execute_other (L : Ledger sh pc) {r : ι} {w : Int} {id : JobId}
    {jobs : List JobId} (hpc : pc r = .batch w (id :: jobs)) (O : InOrder sh q p) (hr : q ≠ r)
    (ret : Int) : InOrder { sh with runs := (id, ret) :: sh.runs } q p := by
  obtain ⟨hown, _⟩ := (L.duty r).todo id (by rw [hpc]; exact List.mem_cons_self ..)
  have hexecuted : Shared.executed { sh with runs := (id, ret) :: sh.runs } q =
      sh.executed q := by
    have howner : ¬ decide (sh.owner id = some q) = true := by
      rw [decide_eq_true_iff, L.owner_eq_some]
      exact fun h => hr (L.owns_unique h hown)
    rw [Shared.executed, Shared.runIds, List.map_cons, List.reverse_cons, List.filter_append]
    have hnil : List.filter (fun i => decide (sh.owner i = some q)) [id] = [] :=
      List.filter_cons_of_neg howner
    exact (congrArg _ hnil).trans (List.append_nil _)
  refine ⟨?_, O.last⟩
  rw [hexecuted]
  cases p <;> exact O.order

/-- The fetched rows are those of the open claim, in order. -/
theorem Ledger.inOrder_fetch (L : Ledger sh pc) {c : Call} (hpc : pc q = .select c)
    (O : InOrder sh q (pc q)) :
    InOrder sh q (.rows c (fetch sh.table c.lock c.workload) []) := by
  obtain ⟨cl, hcl, _, ho⟩ := (L.duty q).opened c (by rw [hpc]; rfl)
  obtain ⟨cl', hlast, hlock⟩ := O.last c hpc
  have hmem : cl' ∈ sh.claims := (List.mem_filter.mp (List.mem_of_mem_head? hlast)).1
  obtain rfl : cl' = cl := L.lock_unique hmem hcl (hlock.trans ho.lock.symm)
  have hline : (Pc.rows c (fetch sh.table c.lock c.workload) []).line sh q =
      (Pc.select c).line sh q := by
    rw [Pc.line, Pc.line, List.nil_append, ho.fetch_ids, Shared.lastMarked, hlast]
    rfl
  refine ⟨?_, fun c hc => by contradiction⟩
  rw [hline, ← hpc]
  exact O.order

/-- The branch for a fetched row keeps it in its place or drops it. -/
theorem line_rowPc (cfg : Config) (c : Call) (row : Fetched) (rest : List Fetched)
    (jobs : List JobId) (made : Bool) : ((rowPc cfg c row rest jobs made).line sh q).Sublist
      ((Pc.rows c (row :: rest) jobs).line sh q) := by
  have hdrop : (jobs ++ rest.map Fetched.id).Sublist
      (jobs ++ (row :: rest).map Fetched.id) :=
    (List.Sublist.refl jobs).append (List.sublist_cons_self _ _)
  unfold rowPc
  split
  · split
    · have hkeep : (Pc.mark c row.id rest (jobs ++ [row.id])).line sh q =
          (Pc.rows c (row :: rest) jobs).line sh q := List.append_assoc ..
      rw [hkeep]
    · split <;> exact hdrop
  · split <;> exact hdrop

/-- Every step of its own thread keeps a queue in order. -/
theorem Ledger.inOrder_own {cfg : Config} {wq wq' : WorkQueue} {a : Action} (L : Ledger sh pc)
    (hq : pc q = wq.pc) (O : InOrder sh q wq.pc) (h : ThreadStep cfg q sh wq a sh' wq') :
    InOrder sh' q wq'.pc := by
  have hidle : ∀ {p : Pc}, p.line sh q = [] → (∀ c, p ≠ .select c) → InOrder sh q p := by
    intro p hline hselect
    exact O.shrink (hline ▸ List.nil_sublist _) hselect
  -- a statement that goes on with the same line
  have hkeep : ∀ (p : Pc) (reply : Reply) (T : JobsTable), p.line sh q = wq.pc.line sh q →
      (∀ c, p ≠ .select c) → InOrder (sh.write reply T) q p := by
    intro p reply T hline hselect
    exact (O.shrink (hline ▸ List.Sublist.refl _) hselect).congr rfl rfl
  cases h with
  | check hpc =>
    dsimp only
    split <;> exact hidle rfl fun _ => Pc.noConfusion
  | popFirst m ms hpc hm | popNext w m ms hpc hm =>
    cases m <;> exact hidle rfl fun _ => Pc.noConfusion
  | popNone w hpc hm =>
    dsimp only
    split <;> exact hidle rfl fun _ => Pc.noConfusion
  | timeout | fetchNoResult | fetchFailed | batchEnd => exact hidle rfl fun _ => Pc.noConfusion
  | claim w stamp reply hpc hfresh =>
    match reply with
    | .ok => exact L.inOrder_claim (marks_claim sh.table (lockid stamp) w) O (Or.inl rfl)
    | .failed true =>
      exact L.inOrder_claim (marks_claim sh.table (lockid stamp) w) O (Or.inr rfl)
    | .failed false =>
      exact L.inOrder_claim (marks_none sh.table (lockid stamp) w) O (Or.inr rfl)
  | fetchOk c hpc => exact L.inOrder_fetch (hq.trans hpc) (hq ▸ O)
  | release c reply hpc => exact (hidle rfl fun _ => Pc.noConfusion).congr rfl rfl
  | create c row rest jobs made hpc =>
    rw [hpc] at O
    refine O.shrink (line_rowPc cfg c row rest jobs made) ?_
    intro c' hc'
    unfold rowPc at hc'
    split at hc'
    · split at hc'
      · contradiction
      · split at hc' <;> contradiction
    · split at hc' <;> contradiction
  | returnJobs c jobs hpc =>
    rw [hpc] at O
    refine O.shrink ?_ fun _ => Pc.noConfusion
    simp only [Pc.line, List.map_nil, List.append_nil, List.Sublist.refl]
  | discard c id known rest jobs reply hpc =>
    refine hkeep _ reply _ ?_ ?_
    · rw [hpc]
      split <;> rfl
    · intro c'
      split <;> exact Pc.noConfusion
  | mark c id rest jobs reply hpc =>
    exact hkeep _ reply _ (by rw [hpc]; rfl) fun _ => Pc.noConfusion
  | execute w id jobs loadData execute hpc => exact L.inOrder_execute (hq.trans hpc) (hq ▸ O) _
  | finish w id ret jobs reply hpc =>
    exact hkeep _ reply _ (by rw [hpc]; rfl) fun _ => Pc.noConfusion

/-- A step of another thread keeps a queue in order. -/
theorem Ledger.inOrder_other {cfg : Config} {r : ι} {wq wq' : WorkQueue} {a : Action}
    (L : Ledger sh pc) (hr : pc r = wq.pc) (hne : q ≠ r) (O : InOrder sh q p)
    (h : ThreadStep cfg r sh wq a sh' wq') : InOrder sh' q p := by
  cases h with
  | claim w stamp reply hpc hfresh =>
    match reply with
    | .ok | .failed true =>
      exact L.inOrder_claim_other (marks_claim sh.table (lockid stamp) w) O hne
    | .failed false => exact L.inOrder_claim_other (marks_none sh.table (lockid stamp) w) O hne
  | execute w id jobs loadData execute hpc =>
    exact L.inOrder_execute_other (hr.trans hpc) O hne _
  | check | timeout | popFirst | popNext | popNone | fetchOk | fetchNoResult | fetchFailed
  | release | create | returnJobs | discard | mark | finish | batchEnd => exact O.congr rfl rfl

end Traces

section Runs

variable {cfg : ι → Config} {s t : System ι} {q : ι}

/-- Every step keeps every queue in order. -/
theorem Ledger.inOrder_step {e : Event ι} (L : Ledger s.shared s.pc)
    (O : InOrder s.shared q (s.pc q)) (h : Worker.step cfg s e = some t) :
    InOrder t.shared q (t.pc q) := by
  cases step_cases h with
  | insert id name data hid => exact O.congr rfl rfl
  | send _ hsh hpc =>
    rw [hsh, hpc]
    exact O
  | thread r a sh wq hstep =>
    rw [System.pc_update]
    by_cases hr : q = r
    · subst hr
      rw [Function.update_self]
      exact L.inOrder_own rfl O hstep
    · rw [Function.update_of_ne hr]
      exact L.inOrder_other rfl hr O hstep

/-- Every claim lists its rows in the order of their ids. -/
theorem sorted_claims_step {e : Event ι} (h : step cfg s e = some t)
    (hs : ∀ c ∈ s.shared.claims, c.marked.Pairwise (· < ·)) :
    ∀ c ∈ t.shared.claims, c.marked.Pairwise (· < ·) := by
  cases step_cases h with
  | insert => exact hs
  | send _ hsh _ =>
    rw [hsh]
    exact hs
  | thread r a sh wq hstep =>
    cases hstep with
    | claim w stamp reply hpc hfresh =>
      intro c hc
      rcases List.mem_cons.mp hc with rfl | hc
      · dsimp only
        split
        · exact List.Pairwise.nil
        · exact s.shared.table.keysOf_sorted claimable (some w)
      · exact hs c hc
    | _ => exact hs

/-- Nothing overtakes: in every run, with any interleaving and any failing statements, what a
queue has executed is a part of what it has claimed, in the order of its claims and of the
ids within each claim. -/
theorem executed_in_claim_order {es : List (Event ι)} (hs : Boot s)
    (hrun : exec (step cfg) s es = some t) (q : ι) :
    (t.shared.executed q).Sublist (t.shared.claimed q) ∧
      ∀ c ∈ claimsOf q t.shared.claims, c.marked.Pairwise (· < ·) := by
  have hstart : InOrder s.shared q (s.pc q) := by
    have hnone : s.shared.executed q = [] := by
      rw [Shared.executed, Shared.runIds, hs.runs]
      rfl
    rcases hs.idle q with hq | ⟨w, hq⟩ <;> rw [hq] <;>
      exact ⟨by rw [hnone]; exact List.nil_sublist _, fun c hc => by contradiction⟩
  have hsorted : ∀ c ∈ s.shared.claims, c.marked.Pairwise (· < ·) := by
    intro c hc
    rw [hs.unmarked c hc]
    exact List.Pairwise.nil
  obtain ⟨_, O, S⟩ := exec_invariant (P := fun s => Ledger s.shared s.pc ∧
      InOrder s.shared q (s.pc q) ∧ ∀ c ∈ s.shared.claims, c.marked.Pairwise (· < ·))
    (fun _ _ _ h hstep => ⟨h.1.step hstep, h.1.inOrder_step h.2.1 hstep,
      sorted_claims_step hstep h.2.2⟩) ⟨hs.ledger, hstart, hsorted⟩ hrun
  exact ⟨(List.sublist_append_left _ _).trans O.order,
    fun c hc => S c (List.mem_filter.mp hc).1⟩

end Runs

/-- Three rows of one claim, the second of an unknown type: the other two run in order. -/
theorem executed_in_claim_order_three_rows :
    ∃ t, exec (step fun _ : Unit => Config.runOnly) (System.calling threeRows 3)
        [.thread () (.claim ⟨1, 0, 0, 0⟩ .ok), .thread () (.fetch .ok),
          .thread () (.create true), .thread () (.update .ok), .thread () (.create true),
          .thread () (.update .ok), .thread () (.create true), .thread () (.update .ok),
          .thread () .done, .thread () (.execute true 1), .thread () (.update .ok),
          .thread () (.execute true 1)] = some t ∧
      (t.shared.executed ()).Sublist (t.shared.claimed ()) ∧
      t.shared.executed () = [1, 3] ∧ t.shared.claimed () = [1, 2, 3] := by
  have hrun : (exec (step fun _ : Unit => Config.runOnly) (System.calling threeRows 3)
      [.thread () (.claim ⟨1, 0, 0, 0⟩ .ok), .thread () (.fetch .ok),
        .thread () (.create true), .thread () (.update .ok), .thread () (.create true),
        .thread () (.update .ok), .thread () (.create true), .thread () (.update .ok),
        .thread () .done, .thread () (.execute true 1), .thread () (.update .ok),
        .thread () (.execute true 1)]).map
      (fun t => (t.shared.executed (), t.shared.claimed ())) = some ([1, 3], [1, 2, 3]) := by
    decide
  obtain ⟨t, ht, hend⟩ := Option.map_eq_some_iff.mp hrun
  obtain ⟨hexecuted, hclaimed⟩ := Prod.mk.inj hend
  exact ⟨t, ht, (executed_in_claim_order (fresh_calling 3 (by decide)).boot ht ()).1, hexecuted,
    hclaimed⟩

end Workq.Worker
