import Workq.Worker.Fetch

/-!
# The pending counter

`send_work` counts one for each token and the loop over the jobs takes one back for
each executed job, so the counter stays with the tokens only while every token turns
into a job. The balance below holds at every program point of a run in which each
`find_jobs` call returns as many jobs as its workload asks for. A wake-up that finds no
row already breaks it: its token is gone and its count stays.
-/

namespace Workq.Worker

open Workq.Core Workq.Jobs

variable {ι : Type*}

/-- The work tokens waiting in the queue. -/
def WorkQueue.tokens (wq : WorkQueue) : Nat := wq.queue.count .work

/-- The tokens that the thread has popped and not yet counted off. -/
def Pc.outstanding : Pc → Nat
  | .tryPop w | .findJobs w => w
  | .select c => c.workload
  | .rows _ rest jobs | .mark _ _ rest jobs => rest.length + jobs.length
  | .batch _ jobs => jobs.length
  | .finish _ _ _ jobs => jobs.length + 1
  | _ => 0

/-- The step keeps `find_jobs` on the way to a full batch: the claim succeeds with at least
as many claimable rows as the workload, the `SELECT` succeeds, and each fetched row has a
registered type whose creator makes a job. -/
def fullBatch (cfg : Config) (sh : Shared ι) (wq : WorkQueue) (a : Action) : Bool :=
  match wq.pc, a with
  | .findJobs w, .claim _ reply => reply = .ok ∧ w ≤ (sh.table.keysOf claimable none).length
  | .select _, .fetch reply => reply = .ok
  | .rows _ (row :: _) _, .create made => cfg.registered row.name ∧ made
  | _, _ => true

/-- The condition on the steps of one queue's thread; other events are free. -/
def Event.full [DecidableEq ι] (cfg : ι → Config) (q : ι) (s : System ι) : Event ι → Bool
  | .thread p a => p ≠ q ∨ fullBatch (cfg q) s.shared (s.queues q) a
  | _ => true

/-- The points off the way to a full batch. -/
def Pc.Astray : Pc → Prop
  | .release _ | .discard .. => True
  | _ => False

/-- The points on the way to a full batch without an open claim. -/
def Pc.Plain : Pc → Prop
  | .select _ | .release _ | .discard .. => False
  | _ => True

/-- The accounting invariant of one queue. -/
structure Accounted (sh : Shared ι) (wq : WorkQueue) : Prop where
  balance : wq.stopSeen = false → wq.pending = wq.tokens + wq.pc.outstanding
  claimed : ∀ c, wq.pc = .select c →
    ∃ cl ∈ sh.claims, cl.lock = c.lock ∧ cl.marked.length = c.workload
  onTheWay : ¬ wq.pc.Astray

/-- A newly constructed queue is in balance. -/
theorem accounted_new (sh : Shared ι) : Accounted sh WorkQueue.new where
  balance _ := rfl
  claimed _ h := Pc.noConfusion h
  onTheWay h := h

section Balance

variable {sh sh' : Shared ι} {wq wq' : WorkQueue}

/-- Claims of other threads do not upset the balance. -/
theorem Accounted.mono (A : Accounted sh wq) (h : sh.claims ⊆ sh'.claims) :
    Accounted sh' wq where
  balance := A.balance
  claimed c hc := by
    obtain ⟨cl, hcl, hlock⟩ := A.claimed c hc
    exact ⟨cl, h hcl, hlock⟩
  onTheWay := A.onTheWay

/-- A step to a point without an open claim needs only the balance. -/
theorem accounted_of_balance (hp : wq.pc.Plain)
    (h : wq.stopSeen = false → wq.pending = wq.tokens + wq.pc.outstanding) :
    Accounted sh wq where
  balance := h
  claimed c hc := by
    rw [hc] at hp
    exact hp.elim
  onTheWay hway := by
    cases hpc : wq.pc with
    | release c | discard => rw [hpc] at hp; exact hp
    | _ => rw [hpc] at hway; exact hway

/-- `send_work` adds one to both sides. -/
theorem Accounted.sendWork (A : Accounted sh wq) : Accounted sh wq.sendWork where
  balance h := by
    have hb := A.balance h
    simp only [WorkQueue.sendWork, WorkQueue.tokens, List.count_append,
      List.count_singleton_self] at hb ⊢
    omega
  claimed := A.claimed
  onTheWay := A.onTheWay

/-- A stop message is no work token. -/
theorem Accounted.sendStop (A : Accounted sh wq) : Accounted sh wq.sendStop where
  balance h := by
    have hb := A.balance h
    have hne : List.count Message.work [Message.stop] = 0 := rfl
    simp only [WorkQueue.sendStop, WorkQueue.tokens, List.count_append, hne] at hb ⊢
    exact hb
  claimed := A.claimed
  onTheWay := A.onTheWay

/-- A popped token moves from the queue into the workload. -/
theorem Accounted.receive (A : Accounted sh wq) {w : Nat} {m : Message} {ms : List Message}
    (hw : wq.pc.outstanding = w) (hm : wq.queue = m :: ms) : Accounted sh (wq.receive w ms m) := by
  cases m with
  | stop =>
    exact accounted_of_balance trivial fun h => Bool.noConfusion h
  | work =>
    refine accounted_of_balance trivial ?_
    intro h
    have hb := A.balance h
    rw [hw, WorkQueue.tokens, hm, List.count_cons_self] at hb
    simp only [WorkQueue.receive, WorkQueue.tokens, Pc.outstanding]
    omega

/-- A step away from the claim that counts off as much as it finishes. -/
theorem Accounted.move (A : Accounted sh wq) {p : Pc} {pending : Int} (hp : p.Plain)
    (h : pending - p.outstanding = wq.pending - wq.pc.outstanding) :
    Accounted sh' { wq with pc := p, pending := pending } := by
  refine accounted_of_balance hp ?_
  intro hstop
  have hb := A.balance hstop
  change pending = wq.tokens + p.outstanding
  omega

/-- A claim with enough claimable rows marks as many as its workload. -/
theorem Accounted.claim (A : Accounted sh wq) {q : ι} {w : Nat} (hpc : wq.pc = .findJobs w)
    (hw : w ≤ (sh.table.keysOf claimable none).length) (lock : List Char) :
    Accounted (sh.claim q lock w .ok) { wq with pc := .select ⟨lock, w⟩ } where
  balance hstop := by
    have hb := A.balance hstop
    rw [hpc] at hb
    exact hb
  claimed c hc := by
    obtain rfl : ⟨lock, w⟩ = c := Pc.select.inj hc
    refine ⟨_, List.mem_cons_self .., rfl, ?_⟩
    change (claimIds sh.table w).length = w
    rw [claimIds, Table.length_keysOf_some, min_eq_left hw]
  onTheWay := id

/-- The open claim marked as many rows as the workload, and the fetch returns them all. -/
theorem Accounted.fetch (A : Accounted sh wq) {q : ι} {pc : ι → Pc} (L : Ledger sh pc)
    (hq : pc q = wq.pc) {c : Call} (hpc : wq.pc = .select c) :
    Accounted sh { wq with pc := .rows c (Jobs.fetch sh.table c.lock c.workload) [] } := by
  obtain ⟨cl, hcl, _, ho⟩ := (L.duty q).opened c (by rw [hq, hpc]; rfl)
  obtain ⟨cl', hcl', hlock, hlen⟩ := A.claimed c hpc
  obtain rfl : cl = cl' := L.lock_unique hcl hcl' (ho.lock.trans hlock.symm)
  have hfetched : (Jobs.fetch sh.table c.lock c.workload).length = c.workload := by
    rw [← List.length_map (f := Fetched.id), ho.fetch_ids, hlen]
  refine A.move trivial ?_
  simp only [hpc, Pc.outstanding, hfetched, List.length_nil, Nat.add_zero]

/-- Every step of the queue's thread towards a full batch keeps the balance. -/
theorem Accounted.threadStep {cfg : Config} {q : ι} {pc : ι → Pc} {a : Action}
    (A : Accounted sh wq) (L : Ledger sh pc) (hq : pc q = wq.pc)
    (hfull : fullBatch cfg sh wq a = true) (h : ThreadStep cfg q sh wq a sh' wq') :
    Accounted sh' wq' := by
  unfold fullBatch at hfull
  cases h with
  | check hpc =>
    split <;> exact A.move trivial (by rw [hpc]; rfl)
  | timeout hpc hm => exact A.move trivial (by rw [hpc]; rfl)
  | popFirst m ms hpc hm => exact A.receive (by rw [hpc]; rfl) hm
  | popNext w m ms hpc hm => exact A.receive (by rw [hpc]; rfl) hm
  | popNone w hpc hm =>
    split
    · rename_i hw
      exact A.move trivial (by rw [hpc, hw]; rfl)
    · exact A.move trivial (by rw [hpc]; rfl)
  | claim w stamp reply hpc hfresh =>
    rw [hpc] at hfull
    obtain ⟨rfl, hw⟩ := of_decide_eq_true hfull
    exact A.claim hpc hw _
  | fetchOk c hpc => exact A.fetch L hq hpc
  | fetchNoResult c hpc | fetchFailed c hpc =>
    rw [hpc] at hfull
    contradiction
  | release c reply hpc => exact absurd (hpc ▸ trivial) A.onTheWay
  | create c row rest jobs made hpc =>
    rw [hpc] at hfull
    obtain ⟨hreg, rfl⟩ := of_decide_eq_true hfull
    have hrow : rowPc cfg c row rest jobs true = .mark c row.id rest (jobs ++ [row.id]) := by
      simp only [rowPc, hreg, if_true]
    rw [hrow]
    refine A.move trivial ?_
    simp only [hpc, Pc.outstanding, List.length_cons, List.length_append, List.length_nil]
    omega
  | returnJobs c jobs hpc =>
    exact A.move trivial (by simp only [hpc, Pc.outstanding, List.length_nil, Nat.zero_add])
  | discard c id known rest jobs reply hpc => exact absurd (hpc ▸ trivial) A.onTheWay
  | mark c id rest jobs reply hpc => exact A.move trivial (by rw [hpc]; rfl)
  | execute w id jobs loadData execute hpc => exact A.move trivial (by rw [hpc]; rfl)
  | finish w id ret jobs reply hpc =>
    refine A.move trivial ?_
    simp only [hpc, Pc.outstanding]
    omega
  | batchEnd w hpc => exact A.move trivial (by rw [hpc]; rfl)

end Balance

section Runs

variable [DecidableEq ι] {cfg : ι → Config} {s t : System ι} {q : ι}

/-- Replacing a queue needs the balance of the replacement only at that queue. -/
theorem Accounted.setQueue (A : Accounted s.shared (s.queues q)) {p : ι} {wq : WorkQueue}
    (h : q = p → Accounted s.shared wq) :
    Accounted (s.setQueue p wq).shared ((s.setQueue p wq).queues q) := by
  rcases s.setQueue_cases p wq q with ⟨hp, heq⟩ | heq
  · rw [heq]
    exact h hp
  · rw [heq]
    exact A

/-- Every step of the system keeps the queue's balance while its own steps fill batches. -/
theorem Accounted.step {e : Event ι} (A : Accounted s.shared (s.queues q))
    (L : Ledger s.shared s.pc) (hfull : e.full cfg q s = true) (h : step cfg s e = some t) :
    Accounted t.shared (t.queues q) := by
  have hclaims : s.shared.claims ⊆ t.shared.claims :=
    claims_subset (exec_cons_eq_some.mpr ⟨t, h, exec_nil _ _⟩)
  have hother : t.queues q = s.queues q → Accounted t.shared (t.queues q) := by
    intro hsame
    rw [hsame]
    exact A.mono hclaims
  cases e with
  | insert id name data =>
    refine hother ?_
    simp only [Worker.step] at h
    split at h
    · rw [← Option.some.inj h]
    · contradiction
  | sendWork p =>
    obtain rfl := Option.some.inj h
    exact A.setQueue fun hp => hp ▸ A.sendWork
  | sendStop p =>
    obtain rfl := Option.some.inj h
    exact A.setQueue fun hp => hp ▸ A.sendStop
  | clearActive p =>
    obtain rfl := Option.some.inj h
    exact A.setQueue fun hp => hp ▸ ⟨A.balance, A.claimed, A.onTheWay⟩
  | thread p a =>
    obtain ⟨sh, wq, hstep, rfl⟩ := step_thread h
    by_cases hp : q = p
    · subst hp
      have hf := (of_decide_eq_true hfull).resolve_left (fun hne => hne rfl)
      simp only [Function.update_self]
      exact A.threadStep L rfl hf hstep
    · exact hother (Function.update_of_ne hp ..)

/-- In every run in which the queue's `find_jobs` calls return as many jobs as their
workload, the pending counter at the head of the loop, no stop message received, is the
number of work tokens waiting. -/
theorem pending_eq_tokens {es : List (Event ι)} (hboot : Boot s)
    (hnew : s.queues q = WorkQueue.new)
    (hfull : AllSteps (step cfg) (fun u e => e.full cfg q u = true) s es)
    (hrun : exec (step cfg) s es = some t) (hhead : t.pc q = .head)
    (hstop : (t.queues q).stopSeen = false) :
    (t.queues q).pending = (t.queues q).tokens := by
  have hstart : Accounted s.shared (s.queues q) := by
    rw [hnew]
    exact accounted_new s.shared
  obtain ⟨_, A⟩ := exec_preserves
    (P := fun u => Ledger u.shared u.pc ∧ Accounted u.shared (u.queues q))
    (fun _ _ _ hf hP hstep => ⟨hP.1.step hstep, hP.2.step hP.1 hf hstep⟩)
    hfull ⟨hboot.ledger, hstart⟩ hrun
  have hb := A.balance hstop
  rw [show (t.queues q).pc = .head from hhead] at hb
  exact hb

end Runs

/-- One wake-up, one row and its job: the counter is back at zero. -/
theorem pending_eq_tokens_one_job :
    ∃ t, exec (step fun _ : Unit => Config.runOnly) System.initial
        [.insert 1 "run".toList none, .sendWork (), .thread () .check, .thread () .pop,
          .thread () .pop, .thread () (.claim ⟨1, 0, 0, 0⟩ .ok), .thread () (.fetch .ok),
          .thread () (.create true), .thread () (.update .ok), .thread () .done,
          .thread () (.execute true 1), .thread () (.update .ok), .thread () .done] = some t ∧
      (t.queues ()).pending = (t.queues ()).tokens := by
  have hrun : (exec (step fun _ : Unit => Config.runOnly) System.initial
      [.insert 1 "run".toList none, .sendWork (), .thread () .check, .thread () .pop,
        .thread () .pop, .thread () (.claim ⟨1, 0, 0, 0⟩ .ok), .thread () (.fetch .ok),
        .thread () (.create true), .thread () (.update .ok), .thread () .done,
        .thread () (.execute true 1), .thread () (.update .ok), .thread () .done]).map
      (fun t => (t.pc (), (t.queues ()).stopSeen)) = some (.head, false) := by decide
  obtain ⟨t, ht, hend⟩ := Option.map_eq_some_iff.mp hrun
  obtain ⟨hhead, hstop⟩ := Prod.mk.inj hend
  exact ⟨t, ht, pending_eq_tokens fresh_initial.boot rfl (by decide) ht hhead hstop⟩

/-- A wake-up that finds the table empty leaves the counter at one with no token waiting. -/
theorem pending_drifts_on_empty_table :
    (exec (step fun _ : Unit => Config.runOnly) System.initial
      [.sendWork (), .thread () .check, .thread () .pop, .thread () .pop,
        .thread () (.claim ⟨1, 0, 0, 0⟩ .ok), .thread () (.fetch .ok), .thread () .done,
        .thread () .done]).map (fun t => (t.pc (), (t.queues ()).stopSeen,
          (t.queues ()).pending, (t.queues ()).tokens)) = some (.head, false, 1, 0) := by
  decide

end Workq.Worker
