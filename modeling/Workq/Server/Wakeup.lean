import Workq.Core.Run
import Workq.Worker.Schedule

/-!
# Wake-ups from the server to a worker

The server writes its message, the worker's handler reads the stream in pieces of any
size, and the work threads go on in between. Each byte of the stream becomes one token:
the message is two bytes long, and the handler schedules once before it knows whether the
read returns anything. So every wake-up is doubled and the final read adds a token.
-/

namespace Workq.Server

open Workq.Core Workq.Worker

/-- `char msg[2] = "w"`, written with its terminator. -/
def wakeup : List UInt8 := [0x77, 0]

/-- The `server_send_pipe` of a worker, its threads, and whether the worker is running. -/
structure Link where
  pipe : List UInt8
  pool : Pool
  running : Bool

/-- What happens on a channel. -/
inductive LinkEvent where
  /-- `Server::schedule` writes successfully. -/
  | schedule
  /-- `on_io_work` with a read of some of the bytes available. -/
  | read (bytes : Nat)
  /-- `on_io_work` with a read at the end of the pipe. -/
  | eof
  /-- `on_io_work` with a failed read. -/
  | error
  /-- The work threads go on; only `schedule` pushes tokens. -/
  | work (threads : List WorkQueue)
  deriving DecidableEq

/-- The read that ends the worker. -/
def LinkEvent.final : LinkEvent → Bool
  | .eof | .error => true
  | _ => false

/-- The link after `on_io_work` with the given result of `read`. -/
def Link.handle (l : Link) (bytes : Int) (rest : List UInt8) : Link :=
  ⟨rest, (l.pool.onIoWork bytes).1, (l.pool.onIoWork bytes).2⟩

/-- One event on the channel. -/
def Link.step (l : Link) : LinkEvent → Option Link
  | .schedule => if l.running then some { l with pipe := l.pipe ++ wakeup } else none
  | .read n =>
    -- the buffer takes 80 bytes besides its terminator
    if l.running ∧ 1 ≤ n ∧ n ≤ 80 ∧ n ≤ l.pipe.length then some (l.handle n (l.pipe.drop n))
    else none
  | .eof => if l.running ∧ l.pipe = [] then some (l.handle 0 []) else none
  | .error => if l.running then some (l.handle (-1) l.pipe) else none
  | .work threads =>
    if h : threads.map WorkQueue.sent = l.pool.threads.map WorkQueue.sent then
      some { l with pool := ⟨threads, by
        intro hnil
        rw [hnil, List.map_nil, eq_comm, List.map_eq_nil_iff] at h
        exact l.pool.nonempty h⟩ }
    else none

/-- Everything an event can do. -/
inductive LinkStep (l : Link) : LinkEvent → Link → Prop
  | schedule : LinkStep l .schedule { l with pipe := l.pipe ++ wakeup }
  | read (n : Nat) (hpos : 1 ≤ n) (hle : n ≤ l.pipe.length) :
      LinkStep l (.read n) (l.handle n (l.pipe.drop n))
  | eof (hempty : l.pipe = []) : LinkStep l .eof (l.handle 0 [])
  | error : LinkStep l .error (l.handle (-1) l.pipe)
  | work (pool : Pool) (hsent : pool.pushed = l.pool.pushed) :
      LinkStep l (.work pool.threads) { l with pool := pool }

/-- The step function does nothing that is not listed. -/
theorem Link.step_cases {l m : Link} {e : LinkEvent} (h : l.step e = some m) : LinkStep l e m := by
  cases e with
  | schedule =>
    simp only [Link.step] at h
    split at h
    · exact Option.some.inj h ▸ .schedule
    · contradiction
  | read n =>
    simp only [Link.step] at h
    split at h
    · rename_i hn
      exact Option.some.inj h ▸ .read n hn.2.1 hn.2.2.2
    · contradiction
  | eof =>
    simp only [Link.step] at h
    split at h
    · rename_i hempty
      exact Option.some.inj h ▸ .eof hempty.2
    · contradiction
  | error =>
    simp only [Link.step] at h
    split at h
    · exact Option.some.inj h ▸ .error
    · contradiction
  | work threads =>
    simp only [Link.step] at h
    split at h
    · rename_i hsent
      rw [← Option.some.inj h]
      exact .work ⟨threads, _⟩ (congrArg List.sum hsent)
    · contradiction

/-- The tokens that an event adds to those pushed and those still to come from the pipe. -/
def LinkEvent.tokens : LinkEvent → Nat
  | .schedule => 2
  | .eof | .error => 1
  | _ => 0

/-- Each byte in the pipe is a token to come. -/
theorem Link.step_tokens {l m : Link} {e : LinkEvent} (h : l.step e = some m) :
    m.pool.pushed + m.pipe.length = l.pool.pushed + l.pipe.length + e.tokens := by
  cases Link.step_cases h with
  | schedule =>
    simp only [List.length_append, wakeup, LinkEvent.tokens, List.length_cons, List.length_nil]
    omega
  | read n hpos hle =>
    simp only [Link.handle, (l.pool.pushed_onIoWork_bytes hpos).1, List.length_drop,
      LinkEvent.tokens]
    omega
  | eof hempty =>
    simp only [Link.handle, (l.pool.pushed_onIoWork_final (Or.inr rfl)).1, hempty,
      LinkEvent.tokens, List.length_nil, Nat.add_zero]
  | error =>
    simp only [Link.handle, (l.pool.pushed_onIoWork_final (Or.inl rfl)).1, LinkEvent.tokens]
    omega
  | work pool hsent => simp only [hsent, LinkEvent.tokens, Nat.add_zero]

/-- Over a run the tokens pushed and still to come grow by two for each wake-up and by one
for a final read. -/
theorem Link.exec_tokens {l m : Link} {es : List LinkEvent}
    (h : exec Link.step l es = some m) :
    m.pool.pushed + m.pipe.length = l.pool.pushed + l.pipe.length +
      (2 * es.count .schedule + es.countP LinkEvent.final) := by
  induction es generalizing l with
  | nil =>
    rw [exec_nil, Option.some.injEq] at h
    rw [h]
    rfl
  | cons e es ih =>
    obtain ⟨u, hu, hm⟩ := exec_cons_eq_some.mp h
    have hstep := Link.step_tokens hu
    have hrest := ih hm
    have htokens : e.tokens = 2 * [e].count .schedule + [e].countP LinkEvent.final := by
      cases e <;> rfl
    rw [show e :: es = [e] ++ es from rfl, List.count_append, List.countP_append]
    omega

/-- The final reads of a run push no token. -/
def QuietFinalReads (l : Link) (es : List LinkEvent) : Prop :=
  AllSteps Link.step (fun u e => e.final = true →
    ∀ v, u.step e = some v → v.pool.pushed = u.pool.pushed) l es

/-- The read that ends the worker pushes a token first. -/
theorem Link.pushed_final {l m : Link} {e : LinkEvent} (h : l.step e = some m)
    (hfinal : e.final = true) : m.pool.pushed = l.pool.pushed + 1 := by
  cases Link.step_cases h with
  | eof hempty => exact (l.pool.pushed_onIoWork_final (Or.inr rfl)).1
  | error => exact (l.pool.pushed_onIoWork_final (Or.inl rfl)).1
  | schedule | read | work => contradiction

/-- A final read that happens is never quiet. -/
theorem not_quiet_of_final {l m : Link} {es : List LinkEvent}
    (h : exec Link.step l es = some m) (hq : QuietFinalReads l es) :
    es.countP LinkEvent.final = 0 := by
  induction es generalizing l with
  | nil => rfl
  | cons e es ih =>
    obtain ⟨u, hu, hm⟩ := exec_cons_eq_some.mp h
    have hrest := ih hm (hq.2 u hu)
    rw [List.countP_cons, hrest, Nat.zero_add, ite_eq_right_iff]
    intro hfinal
    have hquiet := hq.1 hfinal u hu
    have hpushed := Link.pushed_final hu hfinal
    omega

/-- A drained channel has pushed exactly one token for each wake-up, and none for its final
read, exactly if there was no wake-up and no final read. -/
theorem wakeups_exact_iff {l m : Link} {es : List LinkEvent} (hempty : l.pipe = [])
    (hrun : exec Link.step l es = some m) (hdrained : m.pipe = []) :
    (m.pool.pushed = l.pool.pushed + es.count .schedule ∧ QuietFinalReads l es) ↔
      (es.count .schedule = 0 ∧ es.countP LinkEvent.final = 0) := by
  have htokens := Link.exec_tokens hrun
  rw [hempty, hdrained, List.length_nil] at htokens
  constructor
  · rintro ⟨hpushed, hquiet⟩
    have hfinal := not_quiet_of_final hrun hquiet
    exact ⟨by omega, hfinal⟩
  · rintro ⟨hwake, hfinal⟩
    refine ⟨by omega, ?_⟩
    have hnone : ∀ e ∈ es, ¬ e.final = true := List.countP_eq_zero.mp hfinal
    exact (allSteps_of_forall hnone l).imp fun _ _ hnot h => absurd h hnot

/-- A worker with two idle threads and an empty pipe. -/
def Link.idle : Link := ⟨[], ⟨[WorkQueue.new, WorkQueue.new], List.cons_ne_nil _ _⟩, true⟩

/-- Nothing sent, nothing pushed, while the threads go on. -/
theorem wakeups_exact_unused :
    ∃ m, exec Link.step Link.idle [.work [WorkQueue.new, WorkQueue.new]] = some m ∧
      m.pool.pushed = Link.idle.pool.pushed := by
  obtain ⟨m, hm⟩ := Option.isSome_iff_exists.mp
    (show (exec Link.step Link.idle [.work [WorkQueue.new, WorkQueue.new]]).isSome by decide)
  have hpipe : m.pipe = [] := by
    have hmap : (exec Link.step Link.idle [.work [WorkQueue.new, WorkQueue.new]]).map Link.pipe =
      some [] := by decide
    rw [hm] at hmap
    exact Option.some.inj hmap
  exact ⟨m, hm, ((wakeups_exact_iff rfl hm hpipe).mpr ⟨by decide, by decide⟩).1⟩

/-- One wake-up, read in one piece, pushes two tokens, and the end of the pipe a third. -/
theorem wakeup_pushes_twice :
    (exec Link.step Link.idle [.schedule, .read 2]).map (fun m => (m.pipe, m.pool.pushed)) =
        some ([], 2) ∧
      (exec Link.step Link.idle [.schedule, .read 2, .eof]).map
        (fun m => (m.pipe, m.pool.pushed)) = some ([], 3) := by
  decide

end Workq.Server
