import Workq.Core.Simulation
import Workq.Worker.AtMostOnce

/-!
# The queues refine a job board

What the work queues are for can be said without lock ids, statuses or SQL: clients post
jobs, a queue takes some that wait, and the queue that took a job runs it. This board has
three atomic operations and no failures. Read off the table and the traces, every run of the
queues is a run of the board, whatever the interleaving and whatever statements fail; all
other steps of `find_jobs` and `run` change nothing on it.
-/

namespace Workq.Worker

open Workq.Core Workq.Jobs

variable {ι : Type*}

/-- What is known of a job on the board. -/
inductive JobState (ι : Type*) where
  | absent
  | waiting
  /-- Taken by a queue and not run. -/
  | held (q : ι)
  /-- Run by the queue that took it. -/
  | ran (q : ι) (ret : Int)
  /-- Not pending already when the board was put up. -/
  | closed
  deriving DecidableEq

/-- The jobs by id. -/
abbrev Board (ι : Type*) := JobId → JobState ι

/-- The operations on a board. -/
inductive BoardEvent (ι : Type*) where
  | post (id : JobId)
  | take (q : ι) (ids : List JobId)
  | run (q : ι) (id : JobId) (ret : Int)
  deriving DecidableEq

/-- The execution that an operation is, if any. -/
def BoardEvent.execution : BoardEvent ι → Option (JobId × Int)
  | .run _ id ret => some (id, ret)
  | _ => none

/-- The queue whose claim marked the row, if any did. -/
def Shared.owner (sh : Shared ι) (id : JobId) : Option ι :=
  (sh.claims.find? fun c => id ∈ c.marked).map Claim.queue

/-- The result of the job's execution, if there was one. -/
def Shared.result (sh : Shared ι) (id : JobId) : Option Int :=
  (sh.runs.find? fun r => r.1 = id).map Prod.snd

/-- What the table and the traces tell of a job. -/
def Shared.jobState (sh : Shared ι) (id : JobId) : JobState ι :=
  match sh.table.get? id, sh.owner id with
  | none, _ => .absent
  | some _, some q =>
    match sh.result id with
    | some ret => .ran q ret
    | none => .held q
  | some r, none => if r.status = .pending then .waiting else .closed

/-- The board that a database shows. -/
def Shared.board (sh : Shared ι) : Board ι := sh.jobState

section Reading

variable {sh sh' : Shared ι} {pc : ι → Pc} {id : JobId} {q : ι}

/-- The owner is the one queue that owns the row. -/
theorem Ledger.owner_eq_some (L : Ledger sh pc) : sh.owner id = some q ↔ sh.Owns q id := by
  rw [Shared.owner, Option.map_eq_some_iff]
  constructor
  · rintro ⟨c, hc, rfl⟩
    have hmem := List.find?_some hc
    exact ⟨c, List.mem_of_find?_eq_some hc, rfl, of_decide_eq_true hmem⟩
  · rintro ⟨c, hc, rfl, hid⟩
    have hsome : (sh.claims.find? fun c => id ∈ c.marked).isSome := by
      rw [List.find?_isSome]
      exact ⟨c, hc, decide_eq_true hid⟩
    obtain ⟨c', hc'⟩ := Option.isSome_iff_exists.mp hsome
    have hid' : id ∈ c'.marked := by simpa using List.find?_some hc'
    refine ⟨c', hc', ?_⟩
    rw [L.claim_unique (List.mem_of_find?_eq_some hc') hc hid' hid]

theorem Ledger.owner_eq_none (L : Ledger sh pc) : sh.owner id = none ↔ ∀ q, ¬ sh.Owns q id := by
  rw [Option.eq_none_iff_forall_ne_some]
  exact forall_congr' fun q => not_congr L.owner_eq_some

/-- A job without a recorded execution has no result. -/
theorem Shared.result_eq_none : sh.result id = none ↔ id ∉ sh.runIds := by
  rw [Shared.result, Option.map_eq_none_iff, List.find?_eq_none, Shared.runIds, List.mem_map]
  constructor
  · rintro h ⟨r, hr, rfl⟩
    exact h r hr (decide_eq_true rfl)
  · intro h r hr hid
    exact h ⟨r, hr, of_decide_eq_true hid⟩

/-- A pending row waits. -/
theorem Ledger.jobState_pending (L : Ledger sh pc) {r : JobRow} (hr : sh.table.get? id = some r)
    (hs : r.status = .pending) : sh.jobState id = .waiting := by
  have howner : sh.owner id = none := by
    rw [L.owner_eq_none]
    intro q hown
    obtain ⟨r', hr', hs'⟩ := L.owned_row hown
    exact hs' ((Option.some.inj (hr.symm.trans hr')) ▸ hs)
  rw [Shared.jobState, hr, howner]
  exact if_pos hs

/-- An owned row is held until its job is executed. -/
theorem Ledger.jobState_owned (L : Ledger sh pc) (hown : sh.Owns q id) :
    sh.jobState id = match sh.result id with
      | some ret => .ran q ret
      | none => .held q := by
  obtain ⟨r, hr, _⟩ := L.owned_row hown
  rw [Shared.jobState, hr, L.owner_eq_some.mpr hown]

/-- A job is on the board as before if its owner and its result are, and its row too unless
it is owned. -/
theorem jobState_congr (howner : sh'.owner id = sh.owner id)
    (hresult : sh'.result id = sh.result id)
    (hrow : sh.owner id = none → sh'.table.get? id = sh.table.get? id)
    (hsome : (sh'.table.get? id).isSome = (sh.table.get? id).isSome) :
    sh'.jobState id = sh.jobState id := by
  unfold Shared.jobState
  rw [howner, hresult]
  cases ho : sh.owner id with
  | none => rw [hrow ho]
  | some q =>
    cases hr : sh.table.get? id with
    | none =>
      rw [hr, Option.isSome_none, Option.isSome_eq_false_iff, Option.isNone_iff_eq_none] at hsome
      rw [hsome]
    | some r =>
      rw [hr] at hsome
      obtain ⟨r', hr'⟩ := Option.isSome_iff_exists.mp hsome
      rw [hr']

/-- A write to own rows changes nothing on the board. -/
theorem Ledger.board_write (L : Ledger sh pc) (hw : OwnWrite sh q sh'.table)
    (hclaims : sh'.claims = sh.claims) (hruns : sh'.runs = sh.runs) : sh'.board = sh.board := by
  funext id
  have howner : sh'.owner id = sh.owner id := by rw [Shared.owner, Shared.owner, hclaims]
  have hresult : sh'.result id = sh.result id := by rw [Shared.result, Shared.result, hruns]
  refine jobState_congr howner hresult ?_ ?_
  · intro hnone
    exact hw.frame id (L.owner_eq_none.mp hnone q)
  · by_cases hown : sh.Owns q id
    · obtain ⟨r, hr, hs⟩ := L.owned_row hown
      obtain ⟨r', hr', _⟩ := hw.keep id r hown hr hs
      rw [hr, hr']
      rfl
    · rw [hw.frame id hown]

end Reading

section Steps

variable [DecidableEq ι] {sh : Shared ι} {pc : ι → Pc} {id : JobId} {q : ι}

/-- The step function of the board. -/
def Board.step (b : Board ι) : BoardEvent ι → Option (Board ι)
  | .post id => if b id = .absent then some (Function.update b id .waiting) else none
  | .take q ids =>
    if ∀ id ∈ ids, b id = .waiting then some fun id => if id ∈ ids then .held q else b id
    else none
  | .run q id ret => if b id = .held q then some (Function.update b id (.ran q ret)) else none

/-- A client's insert posts a job. -/
theorem Ledger.board_insert (L : Ledger sh pc) (hid : sh.table.get? id = none) (name : List Char)
    (data : Option (List Char)) : Board.step sh.board (.post id) =
      some (Shared.board { sh with table := sh.table.insert id (newRow name data) }) := by
  have habsent : sh.board id = .absent := by rw [Shared.board, Shared.jobState, hid]
  rw [Board.step, if_pos habsent, Option.some.injEq]
  funext i
  by_cases hi : i = id
  · subst hi
    have hrow : (sh.table.insert i (newRow name data)).get? i = some (newRow name data) := by
      rw [Table.get?_insert hid, if_pos rfl]
    rw [Function.update_self]
    exact ((L.insert hid name data).jobState_pending hrow rfl).symm
  · have hrow : (sh.table.insert id (newRow name data)).get? i = sh.table.get? i :=
      (Table.get?_insert hid _ i).trans (if_neg hi)
    have hsame : Shared.jobState { sh with table := sh.table.insert id (newRow name data) } i =
        sh.jobState i := jobState_congr rfl rfl (fun _ => hrow) (congrArg Option.isSome hrow)
    rw [Function.update_of_ne hi]
    exact hsame.symm

/-- A claiming statement takes the rows it marks. -/
theorem Ledger.board_claim (L : Ledger sh pc) {T : JobsTable} {lock : List Char} {w : Nat}
    {M : List JobId} (hM : Marks sh.table T lock w M) :
    Board.step sh.board (.take q M) =
      some (Shared.board { sh with table := T, claims := ⟨lock, q, w, M⟩ :: sh.claims }) := by
  have hwaiting : ∀ i ∈ M, sh.board i = .waiting := by
    intro i hi
    obtain ⟨r, hr, hs, _⟩ := hM.marked i hi
    exact L.jobState_pending hr hs
  rw [Board.step, if_pos hwaiting, Option.some.injEq]
  funext i
  by_cases hi : i ∈ M
  · rw [if_pos hi]
    obtain ⟨r, hr, hs, hr'⟩ := hM.marked i hi
    -- a pending row was never executed, since only owned rows are
    have hresult : sh.result i = none := by
      rw [Shared.result_eq_none]
      intro hran
      obtain ⟨q', hown⟩ := L.ran i hran
      obtain ⟨r₀, hr₀, hs₀⟩ := L.owned_row hown
      exact hs₀ ((Option.some.inj (hr.symm.trans hr₀)) ▸ hs)
    have howner : Shared.owner { sh with table := T, claims := ⟨lock, q, w, M⟩ :: sh.claims } i =
        some q := by
      simp only [Shared.owner, List.find?_cons, decide_eq_true hi, Option.map_some]
    rw [Shared.board, Shared.jobState, hr', howner]
    change _ = match sh.result i with
      | some ret => JobState.ran q ret
      | none => JobState.held q
    rw [hresult]
  · have hrow := hM.frame i hi
    have hsame : Shared.jobState
        { sh with table := T, claims := ⟨lock, q, w, M⟩ :: sh.claims } i = sh.jobState i := by
      refine jobState_congr ?_ rfl (fun _ => hrow) (congrArg Option.isSome hrow)
      simp only [Shared.owner, List.find?_cons, decide_eq_false hi]
    rw [if_neg hi]
    exact hsame.symm

/-- The claiming `UPDATE`, whatever its fate, takes the rows that it marked. -/
theorem Ledger.board_claim_reply (L : Ledger sh pc) (lock : List Char) (w : Nat) (reply : Reply) :
    Board.step sh.board (.take q (if reply = .failed false then [] else claimIds sh.table w)) =
      some (sh.claim q lock w reply).board := by
  match reply with
  | .ok => exact L.board_claim (marks_claim sh.table lock w)
  | .failed true => exact L.board_claim (marks_claim sh.table lock w)
  | .failed false => exact L.board_claim (marks_none sh.table lock w)

/-- An execution runs a job that its queue holds. -/
theorem Ledger.board_execute (L : Ledger sh pc) {w : Int} {jobs : List JobId}
    (hpc : pc q = .batch w (id :: jobs)) (ret : Int) :
    Board.step sh.board (.run q id ret) =
      some (Shared.board { sh with runs := (id, ret) :: sh.runs }) := by
  obtain ⟨hown, hrun, _⟩ := (L.duty q).todo id (by rw [hpc]; exact List.mem_cons_self ..)
  have hheld : sh.board id = .held q := by
    rw [Shared.board, L.jobState_owned hown, Shared.result_eq_none.mpr hrun]
  rw [Board.step, if_pos hheld, Option.some.injEq]
  funext i
  by_cases hi : i = id
  · subst hi
    have hresult : Shared.result { sh with runs := (i, ret) :: sh.runs } i = some ret := by
      simp only [Shared.result, List.find?_cons, decide_true, Option.map_some]
    rw [Function.update_self, Shared.board, (L.execute hpc ret).jobState_owned hown, hresult]
  · have hsame : Shared.jobState { sh with runs := (id, ret) :: sh.runs } i = sh.jobState i := by
      refine jobState_congr rfl ?_ (fun _ => rfl) rfl
      simp only [Shared.result, List.find?_cons, decide_eq_false (Ne.symm hi)]
    rw [Function.update_of_ne hi]
    exact hsame.symm

/-- What a step of the queues is on the board: nothing for most of them. -/
def boardEvents (s : System ι) : Event ι → List (BoardEvent ι)
  | .insert id _ _ => [.post id]
  | .thread q (.claim _ reply) =>
    match s.pc q with
    | .findJobs w => [.take q (if reply = .failed false then [] else claimIds s.shared.table w)]
    | _ => []
  | .thread q (.execute loadData execute) =>
    match s.pc q with
    | .batch _ (id :: _) => [.run q id (realExecute loadData execute)]
    | _ => []
  | _ => []

theorem exec_board_singleton {b c : Board ι} {e : BoardEvent ι} (h : Board.step b e = some c) :
    exec Board.step b [e] = some c :=
  exec_cons_eq_some.mpr ⟨c, h, exec_nil _ c⟩

/-- A step of a thread is a step of the board or none. -/
theorem Ledger.board_threadStep {cfg : Config} {s : System ι} {sh' : Shared ι}
    {wq' : WorkQueue} {a : Action} (L : Ledger s.shared s.pc)
    (h : ThreadStep cfg q s.shared (s.queues q) a sh' wq') :
    Core.exec Board.step s.shared.board (boardEvents s (.thread q a)) = some sh'.board := by
  have hpc : ∀ p, (s.queues q).pc = p → s.pc q = p := fun p hp => hp
  have hwrite : sh'.claims = s.shared.claims → sh'.runs = s.shared.runs →
      sh'.board = s.shared.board := by
    intro hclaims hruns
    rcases L.ownWrite rfl h with ⟨w, stamp, reply, rfl⟩ | ⟨hw, _⟩
    · exact absurd hclaims (List.cons_ne_self _ _)
    · exact L.board_write hw hclaims hruns
  cases h with
  | claim w stamp reply hp hfresh =>
    rw [boardEvents, hpc _ hp]
    exact exec_board_singleton (L.board_claim_reply (lockid stamp) w reply)
  | execute w id jobs loadData execute hp =>
    rw [boardEvents, hpc _ hp]
    exact exec_board_singleton (L.board_execute (hpc _ hp) _)
  | check | timeout | popFirst | popNext | popNone | fetchOk | fetchNoResult | fetchFailed
  | release | create | returnJobs | discard | mark | finish | batchEnd =>
    rw [hwrite rfl rfl]
    rfl

/-- Every step of the queues is a step of the board or none. -/
theorem Ledger.board_step {cfg : ι → Config} {s t : System ι} {e : Event ι}
    (L : Ledger s.shared s.pc) (h : Worker.step cfg s e = some t) :
    Core.exec Board.step s.shared.board (boardEvents s e) = some t.shared.board := by
  cases e with
  | insert id name data =>
    simp only [Worker.step] at h
    split at h
    · rename_i hid
      obtain rfl := Option.some.inj h
      exact exec_board_singleton (L.board_insert hid name data)
    · contradiction
  | sendWork q | sendStop q | clearActive q =>
    obtain rfl := Option.some.inj h
    rfl
  | thread q a =>
    obtain ⟨sh, wq, hstep, rfl⟩ := step_thread h
    exact L.board_threadStep hstep

/-- Each execution that a step traces is a run on the board. -/
theorem runs_step {cfg : ι → Config} {s t : System ι} {e : Event ι}
    (h : step cfg s e = some t) : t.shared.runs.reverse =
      s.shared.runs.reverse ++ (boardEvents s e).filterMap BoardEvent.execution := by
  cases e with
  | insert id name data =>
    simp only [step] at h
    split at h
    · obtain rfl := Option.some.inj h
      exact (List.append_nil _).symm
    · contradiction
  | sendWork q | sendStop q | clearActive q =>
    obtain rfl := Option.some.inj h
    exact (List.append_nil _).symm
  | thread q a =>
    obtain ⟨sh, wq, hstep, rfl⟩ := step_thread h
    have hpc : ∀ p, (s.queues q).pc = p → s.pc q = p := fun p hp => hp
    cases hstep with
    | claim w stamp reply hp hfresh =>
      rw [boardEvents, hpc _ hp]
      exact (List.append_nil _).symm
    | execute w id jobs loadData execute hp =>
      rw [boardEvents, hpc _ hp]
      exact List.reverse_cons
    | check | timeout | popFirst | popNext | popNone | fetchOk | fetchNoResult | fetchFailed
    | release | create | returnJobs | discard | mark | finish | batchEnd =>
      exact (List.append_nil _).symm

/-- The queues refine the board: from any start, every run of the queues, with any
interleaving and any failing statements, is a run of the board between the two boards that
the database shows, and its executions are the board's runs in their order. -/
theorem queues_refine_board {cfg : ι → Config} {s t : System ι} {es : List (Event ι)}
    (hs : Boot s) (hrun : exec (step cfg) s es = some t) :
    exec Board.step s.shared.board (labels (step cfg) boardEvents s es) = some t.shared.board ∧
      t.shared.runs.reverse =
        (labels (step cfg) boardEvents s es).filterMap BoardEvent.execution := by
  refine ⟨?_, ?_⟩
  · exact exec_labels (fun s : System ι => s.shared.board)
      (I := fun s => Ledger s.shared s.pc) (fun _ _ _ L h => L.step h)
      (fun _ _ _ L h => L.board_step h) hs.ledger hrun
  · have hrecord := record_labels (fun s : System ι => s.shared.runs.reverse)
      (fun _ _ _ h => runs_step h) hrun
    rw [hs.runs] at hrecord
    exact hrecord

end Steps

/-- In the race the job is posted, one queue takes it and the other takes nothing. -/
theorem queues_refine_board_race :
    ∃ t, exec (step fun _ => Config.runOnly) System.initial raceEvents = some t ∧
      exec Board.step (Shared.board (System.initial : System Bool).shared)
        [.post 1, .take true [1], .take false []] = some t.shared.board := by
  obtain ⟨t, ht⟩ := Option.isSome_iff_exists.mp
    (show (exec (step fun _ => Config.runOnly) System.initial raceEvents).isSome by decide)
  have hlabels : labels (step fun _ => Config.runOnly) boardEvents System.initial raceEvents =
      [.post 1, .take true [1], .take false []] := by decide
  refine ⟨t, ht, ?_⟩
  rw [← hlabels]
  exact (queues_refine_board fresh_initial.boot ht).1

end Workq.Worker
