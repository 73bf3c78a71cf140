import Mathlib.Algebra.Order.BigOperators.Group.List
import Mathlib.Algebra.Order.Group.Nat
import Workq.Worker.Pending
import Workq.Worker.Shutdown

/-!
# Work tokens through the coalescing loop

Every token that `send_work` pushes is in the queue, in the workload that the loop collects,
or in the workload of some `find_jobs` call, until a stop message makes the loop throw its
workload away. The runs here are those of the system without the premise that lock ids are
distinct, so that they are all interleavings.
-/

namespace Workq.Worker

open Workq.Core Workq.Jobs

variable {ι : Type*}

/-- The workload that the coalescing loop has collected. -/
def Pc.collected : Pc → Nat
  | .tryPop w => w
  | _ => 0

/-- The workload of a `find_jobs` call that has not issued its claim yet. -/
def Pc.passing : Pc → List Nat
  | .findJobs w => [w]
  | _ => []

section Passed

variable [DecidableEq ι]

/-- The workloads passed to `find_jobs` so far, latest first. -/
def passed (q : ι) (claims : List (Claim ι)) (wq : WorkQueue) : List Nat :=
  wq.pc.passing ++ (claimsOf q claims).map Claim.workload

/-- The number of rows that a queue has claimed so far. -/
def rowsClaimed (q : ι) (claims : List (Claim ι)) : Nat :=
  ((claimsOf q claims).map fun c => c.marked.length).sum

/-- The tokens that are waiting, collected or passed on. -/
def accounted (q : ι) (claims : List (Claim ι)) (wq : WorkQueue) : Nat :=
  wq.tokens + wq.pc.collected + (passed q claims wq).sum

/-- The tokens of one queue are accounted for. -/
structure Conserved (q : ι) (claims : List (Claim ι)) (wq : WorkQueue) : Prop where
  balance : wq.stopSeen = false → wq.sent = accounted q claims wq
  /-- After a stop message some tokens may be gone. -/
  bound : accounted q claims wq ≤ wq.sent
  positive : ∀ w ∈ passed q claims wq, 0 < w
  marked : ∀ c ∈ claimsOf q claims, c.marked.length ≤ c.workload

end Passed

/-- The points of the loop with no workload that is still to be claimed for. -/
def Pc.Through (p : Pc) : Prop := p.collected = 0 ∧ p.passing = []

theorem through_rowPc (cfg : Config) (c : Call) (row : Fetched) (rest : List Fetched)
    (jobs : List JobId) (made : Bool) : (rowPc cfg c row rest jobs made).Through := by
  unfold rowPc
  split
  · split
    · exact ⟨rfl, rfl⟩
    · split <;> exact ⟨rfl, rfl⟩
  · split <;> exact ⟨rfl, rfl⟩

/-- A claim marks at most as many rows as its workload. -/
theorem marked_length_le (sh : Shared ι) (w : Nat) (reply : Reply) :
    (if reply = .failed false then [] else claimIds sh.table w).length ≤ w := by
  split
  · exact Nat.zero_le w
  · exact claimIds_length_le sh.table w

section Conservation

variable [DecidableEq ι] {q : ι} {claims : List (Claim ι)} {wq wq' : WorkQueue}

/-- A constructed queue has no token and no claim. -/
theorem conserved_new (hnone : ∀ c ∈ claims, c.queue ≠ q) (p : Int) :
    Conserved q claims { WorkQueue.new with pending := p } := by
  have hclaims : claimsOf q claims = [] := by
    rw [claimsOf, List.filter_eq_nil_iff]
    simpa using hnone
  constructor <;>
    simp [accounted, passed, hclaims, WorkQueue.new, WorkQueue.tokens, Pc.collected, Pc.passing]

/-- A step that sends nothing keeps the account if it loses no token, unless it pops a stop
message. -/
theorem Conserved.of_accounted (C : Conserved q claims wq) {claims' : List (Claim ι)}
    (hsent : wq'.sent = wq.sent) (hle : accounted q claims' wq' ≤ accounted q claims wq)
    (heq : wq'.stopSeen = false →
      wq.stopSeen = false ∧ accounted q claims' wq' = accounted q claims wq)
    (hpositive : ∀ w ∈ passed q claims' wq', 0 < w)
    (hmarked : ∀ c ∈ claimsOf q claims', c.marked.length ≤ c.workload) :
    Conserved q claims' wq' where
  balance hseen := by
    obtain ⟨hbefore, hsame⟩ := heq hseen
    rw [hsent, hsame]
    exact C.balance hbefore
  bound := by
    rw [hsent]
    exact hle.trans C.bound
  positive := hpositive
  marked := hmarked

/-- A step between two points without a workload keeps the account. -/
theorem Conserved.move (C : Conserved q claims wq) {p p' : Pc} (hpc : wq.pc = p)
    (hp : p.Through) (hp' : p'.Through) {pending : Int} :
    Conserved q claims { wq with pc := p', pending := pending } := by
  have hpassed : passed q claims { wq with pc := p', pending := pending } =
      passed q claims wq := by
    rw [passed, passed, hpc, hp.2, hp'.2]
  have hacc : accounted q claims { wq with pc := p', pending := pending } =
      accounted q claims wq := by
    rw [accounted, accounted, hpassed, hpc, hp.1, hp'.1]
    rfl
  exact C.of_accounted rfl hacc.le (fun hseen => ⟨hseen, hacc⟩) (hpassed ▸ C.positive) C.marked

/-- A popped token moves into the collected workload; a stop message throws this away. -/
theorem Conserved.receive (C : Conserved q claims wq) {w : Nat} {m : Message}
    {ms : List Message} (hw : wq.pc.collected = w) (hpass : wq.pc.passing = [])
    (hm : wq.queue = m :: ms) : Conserved q claims (wq.receive w ms m) := by
  have hpassed : passed q claims (wq.receive w ms m) = passed q claims wq := by
    rw [passed, passed, hpass]
    cases m <;> rfl
  cases m with
  | stop =>
    refine C.of_accounted rfl ?_ ?_ (hpassed ▸ C.positive) C.marked
    · rw [accounted, accounted, hpassed, WorkQueue.tokens, WorkQueue.tokens, hm,
        List.count_cons_of_ne (by decide)]
      simp only [WorkQueue.receive, Pc.collected]
      omega
    · intro hseen
      exact absurd hseen (by simp [WorkQueue.receive])
  | work =>
    have hacc : accounted q claims (wq.receive w ms .work) = accounted q claims wq := by
      rw [accounted, accounted, hpassed, WorkQueue.tokens, WorkQueue.tokens, hm,
        List.count_cons_self, hw]
      simp only [WorkQueue.receive, Pc.collected]
      omega
    exact C.of_accounted rfl hacc.le (fun hseen => ⟨hseen, hacc⟩) (hpassed ▸ C.positive) C.marked

/-- The end of the coalescing loop passes its workload to `find_jobs` unless it is zero. -/
theorem Conserved.popNone (C : Conserved q claims wq) {w : Nat} (hpc : wq.pc = .tryPop w) :
    Conserved q claims { wq with pc := if w = 0 then .head else .findJobs w } := by
  have hpositive := C.positive
  rw [passed, hpc] at hpositive
  by_cases hw : w = 0
  · rw [if_pos hw]
    have hacc : accounted q claims { wq with pc := .head } = accounted q claims wq := by
      rw [accounted, accounted, passed, passed, hpc, hw]
      rfl
    exact C.of_accounted rfl hacc.le (fun hseen => ⟨hseen, hacc⟩) hpositive C.marked
  · rw [if_neg hw]
    have hacc : accounted q claims { wq with pc := .findJobs w } = accounted q claims wq := by
      simp only [accounted, passed, hpc, WorkQueue.tokens, Pc.collected, Pc.passing,
        List.singleton_append, List.nil_append, List.sum_cons]
      omega
    refine C.of_accounted rfl hacc.le (fun hseen => ⟨hseen, hacc⟩) ?_ C.marked
    rw [passed, Pc.passing, List.singleton_append, List.forall_mem_cons]
    exact ⟨Nat.pos_of_ne_zero hw, hpositive⟩

/-- The claim of a `find_jobs` call takes its workload over, and marks no more rows. -/
theorem Conserved.claim (C : Conserved q claims wq) {w : Nat} (hpc : wq.pc = .findJobs w)
    {c : Claim ι} (hqueue : c.queue = q) (hworkload : c.workload = w)
    (hmarked : c.marked.length ≤ w) {p : Pc} (hp : p.Through) :
    Conserved q (c :: claims) { wq with pc := p } := by
  have hclaims : claimsOf q (c :: claims) = c :: claimsOf q claims :=
    List.filter_cons_of_pos (by simpa using hqueue)
  have hpassed : passed q (c :: claims) { wq with pc := p } = passed q claims wq := by
    rw [passed, passed, hclaims, hp.2, hpc, List.map_cons, hworkload]
    rfl
  have hacc : accounted q (c :: claims) { wq with pc := p } = accounted q claims wq := by
    rw [accounted, accounted, hpassed, hp.1, hpc]
    rfl
  refine C.of_accounted rfl hacc.le (fun hseen => ⟨hseen, hacc⟩) (hpassed ▸ C.positive) ?_
  rw [hclaims, List.forall_mem_cons]
  exact ⟨hmarked.trans hworkload.ge, C.marked⟩

/-- Every step of the queue's thread keeps its account, whatever claims there are. -/
theorem Conserved.thread {cfg : Config} {sh sh' : Shared ι} {a : Action}
    (C : Conserved q claims wq) (hsh : sh.claims = []) (h : ThreadStep cfg q sh wq a sh' wq') :
    Conserved q (sh'.claims ++ claims) wq' := by
  cases h with
  | check hpc =>
    rw [hsh]
    exact C.move hpc ⟨rfl, rfl⟩ (by split <;> exact ⟨rfl, rfl⟩)
  | popFirst m ms hpc hq =>
    rw [hsh]
    exact C.receive (by rw [hpc]; rfl) (by rw [hpc]; rfl) hq
  | popNext w m ms hpc hq =>
    rw [hsh]
    exact C.receive (by rw [hpc]; rfl) (by rw [hpc]; rfl) hq
  | popNone w hpc hq =>
    rw [hsh]
    exact C.popNone hpc
  | claim w stamp reply hpc hfresh =>
    rw [Shared.claim, hsh]
    exact C.claim hpc rfl rfl (marked_length_le sh w reply) (by split <;> exact ⟨rfl, rfl⟩)
  | create c row rest jobs made hpc =>
    rw [hsh]
    exact C.move hpc ⟨rfl, rfl⟩ (through_rowPc ..)
  | discard c id known rest jobs reply hpc =>
    rw [Shared.write, hsh]
    exact C.move hpc ⟨rfl, rfl⟩ (by split <;> exact ⟨rfl, rfl⟩)
  | timeout hpc hq | fetchOk c hpc | fetchNoResult c hpc | fetchFailed c hpc
  | returnJobs c jobs hpc | batchEnd w hpc | execute w id jobs loadData execute hpc
  | release c reply hpc | mark c id rest jobs reply hpc | finish w id ret jobs reply hpc =>
    change Conserved q (sh.claims ++ claims) _
    rw [hsh]
    exact C.move hpc ⟨rfl, rfl⟩ ⟨rfl, rfl⟩

/-- A token that is sent is waiting. -/
theorem Conserved.sendWork (C : Conserved q claims wq) : Conserved q claims wq.sendWork := by
  have hacc : accounted q claims wq.sendWork = accounted q claims wq + 1 := by
    have hpassed : passed q claims wq.sendWork = passed q claims wq := rfl
    rw [accounted, accounted, hpassed]
    simp only [WorkQueue.tokens, WorkQueue.sendWork, List.count_append,
      List.count_singleton_self]
    omega
  refine ⟨?_, ?_, C.positive, C.marked⟩
  · intro hseen
    rw [hacc, ← C.balance hseen]
    rfl
  · rw [hacc]
    exact Nat.succ_le_succ C.bound

/-- A stop message is no token. -/
theorem Conserved.sendStop (C : Conserved q claims wq) : Conserved q claims wq.sendStop := by
  have hacc : accounted q claims wq.sendStop = accounted q claims wq := by
    have hpassed : passed q claims wq.sendStop = passed q claims wq := rfl
    have hstop : List.count Message.work [Message.stop] = 0 := rfl
    rw [accounted, accounted, hpassed]
    simp only [WorkQueue.tokens, WorkQueue.sendStop, List.count_append, hstop]
    omega
  exact C.of_accounted rfl hacc.le (fun hseen => ⟨hseen, hacc⟩) C.positive C.marked

/-- Claims of other queues do not count. -/
theorem Conserved.claims_congr (C : Conserved q claims wq) {claims' : List (Claim ι)}
    (h : claimsOf q claims' = claimsOf q claims) : Conserved q claims' wq := by
  have hpassed : passed q claims' wq = passed q claims wq := by rw [passed, passed, h]
  have hacc : accounted q claims' wq = accounted q claims wq := by
    rw [accounted, accounted, hpassed]
  exact C.of_accounted rfl hacc.le (fun hseen => ⟨hseen, hacc⟩) (hpassed ▸ C.positive)
    (h ▸ C.marked)

end Conservation

section Runs

variable [DecidableEq ι] {cfg : ι → Config} {q : ι} {s t : System ι}

/-- Every step of the system keeps the account of every queue. -/
theorem Conserved.step {e : Event ι} (C : Conserved q s.shared.claims (s.queues q))
    (h : looseStep cfg s e = some t) : Conserved q t.shared.claims (t.queues q) := by
  have hset : ∀ {r : ι} {wq : WorkQueue}, (q = r → Conserved q s.shared.claims wq) →
      Conserved q s.shared.claims ((s.setQueue r wq).queues q) := by
    intro r wq hwq
    rcases s.setQueue_cases r wq q with ⟨hq, heq⟩ | heq
    · rw [heq]
      exact hwq hq
    · rw [heq]
      exact C
  cases e with
  | insert id name data =>
    simp only [looseStep, Worker.step] at h
    split at h
    · obtain rfl := Option.some.inj h
      exact C
    · contradiction
  | sendWork r =>
    obtain rfl := Option.some.inj h
    exact hset fun hq => hq ▸ C.sendWork
  | sendStop r =>
    obtain rfl := Option.some.inj h
    exact hset fun hq => hq ▸ C.sendStop
  | clearActive r =>
    obtain rfl := Option.some.inj h
    exact hset fun hq => hq ▸ ⟨C.balance, C.bound, C.positive, C.marked⟩
  | thread r a =>
    obtain ⟨sh, wq, hstep, hclaims, hqueues⟩ := looseStep_thread h
    rw [hclaims, hqueues]
    by_cases hq : q = r
    · subst hq
      rw [Function.update_self]
      exact C.thread rfl hstep
    · rw [Function.update_of_ne hq]
      refine C.claims_congr ?_
      rw [claimsOf, List.filter_append, ← claimsOf, hstep.claimsOf_other hq]
      rfl

/-- The rows claimed are at most as many as the workloads passed on. -/
theorem Conserved.rowsClaimed_le {claims : List (Claim ι)} {wq : WorkQueue}
    (C : Conserved q claims wq) : rowsClaimed q claims ≤ wq.sent := by
  have hsum : rowsClaimed q claims ≤ ((claimsOf q claims).map Claim.workload).sum :=
    List.sum_le_sum C.marked
  have hbound := C.bound
  rw [accounted, passed, List.sum_append] at hbound
  omega

/-- Work tokens are conserved: from a newly constructed queue without claims, in every state
that any interleaving reaches, before a stop message is popped the tokens sent are those
waiting, those collected and those passed to `find_jobs`; every workload passed is positive;
and the queue has claimed at most as many rows as it was sent tokens. -/
theorem work_tokens_conserved {es : List (Event ι)} {p : Int}
    (hnew : s.queues q = { WorkQueue.new with pending := p })
    (hnone : ∀ c ∈ s.shared.claims, c.queue ≠ q)
    (hrun : exec (looseStep cfg) s es = some t) :
    ((t.queues q).stopSeen = false → (t.queues q).sent = (t.queues q).tokens +
      (t.pc q).collected + (passed q t.shared.claims (t.queues q)).sum) ∧
    (∀ w ∈ passed q t.shared.claims (t.queues q), 0 < w) ∧
    rowsClaimed q t.shared.claims ≤ (t.queues q).sent := by
  have hstart : Conserved q s.shared.claims (s.queues q) := by
    rw [hnew]
    exact conserved_new hnone p
  have hend : Conserved q t.shared.claims (t.queues q) :=
    exec_invariant (P := fun u => Conserved q u.shared.claims (u.queues q))
      (fun _ _ _ hC hstep => hC.step hstep) hstart hrun
  exact ⟨hend.balance, hend.positive, hend.rowsClaimed_le⟩

end Runs

/-- Three tokens, two of them coalesced into a claim that finds one row. -/
theorem work_tokens_conserved_three_tokens :
    ∃ t, exec (looseStep fun _ : Unit => Config.runOnly) System.initial
        [.insert 1 "run".toList none, .sendWork (), .thread () .check, .thread () .pop,
          .sendWork (), .thread () .pop, .thread () .pop, .sendWork (),
          .thread () (.claim ⟨1, 0, 0, 0⟩ .ok)] = some t ∧
      (t.queues ()).sent = 3 ∧ (t.queues ()).tokens = 1 ∧
      (passed () t.shared.claims (t.queues ())).sum = 2 ∧ rowsClaimed () t.shared.claims ≤ 3 := by
  have hrun : (exec (looseStep fun _ : Unit => Config.runOnly) System.initial
      [.insert 1 "run".toList none, .sendWork (), .thread () .check, .thread () .pop,
        .sendWork (), .thread () .pop, .thread () .pop, .sendWork (),
        .thread () (.claim ⟨1, 0, 0, 0⟩ .ok)]).map (fun t => ((t.queues ()).stopSeen,
          (t.queues ()).sent, (t.queues ()).tokens, (t.pc ()).collected)) =
      some (false, 3, 1, 0) := by decide
  obtain ⟨t, ht, hend⟩ := Option.map_eq_some_iff.mp hrun
  simp only [Prod.mk.injEq] at hend
  obtain ⟨hseen, hsent, htokens, hcollected⟩ := hend
  obtain ⟨hbalance, _, hrows⟩ := work_tokens_conserved (p := 0) rfl
    (fun c hc => absurd hc List.not_mem_nil) ht
  have hsum := hbalance hseen
  refine ⟨t, ht, hsent, htokens, by omega, by omega⟩

end Workq.Worker
