import Mathlib.Algebra.BigOperators.Group.List.Basic
import Mathlib.Algebra.GroupWithZero.Nat
import Workq.Worker.Queue

/-!
# The worker's main thread

`schedule` picks one work thread and sends it a token. `onIoWork` is the handler of the
server's channel: it schedules once before it reads, and once more for each byte but the
first that the read returned.
-/

namespace Workq.Worker

/-- `m_threads` of a running worker; the setting `threads` is positive. -/
structure Pool where
  threads : List WorkQueue
  nonempty : threads ≠ []
  deriving DecidableEq

/-- The loop of `schedule` over the threads' pending counts, from thread `i` on. -/
def selectThread : List Int → Nat → Int → Nat → Nat
  | [], _, _, selected => selected
  | value :: values, i, smallest, selected =>
    if smallest < value then selectThread values (i + 1) value i
    else selectThread values (i + 1) smallest selected

/-- The index that `schedule` selects; `smallest` starts at 10. -/
def Pool.selected (p : Pool) : Nat := selectThread (p.threads.map WorkQueue.pending) 0 10 0

/-- The loop selects its start value or an index it visits. -/
theorem selectThread_lt {values : List Int} {i selected n : Nat} {smallest : Int}
    (hs : selected < n) (hi : i + values.length ≤ n) :
    selectThread values i smallest selected < n := by
  induction values generalizing i smallest selected with
  | nil => exact hs
  | cons value values ih =>
    rw [List.length_cons] at hi
    unfold selectThread
    split
    · exact ih (by omega) (by omega)
    · exact ih hs (by omega)

theorem Pool.selected_lt (p : Pool) : p.selected < p.threads.length := by
  refine selectThread_lt (List.length_pos_of_ne_nil p.nonempty) ?_
  rw [List.length_map, Nat.zero_add]

/-- `Worker::schedule`. -/
def Pool.schedule (p : Pool) : Pool where
  threads := p.threads.modify p.selected WorkQueue.sendWork
  nonempty := by
    rw [ne_eq, List.modify_eq_nil_iff]
    exact p.nonempty

/-- `Worker::shutdown`: clear `m_active` and send every thread a stop message. -/
def Pool.shutdown (p : Pool) : Pool where
  threads := p.threads.map fun wq => { wq with active := false }.sendStop
  nonempty := by
    rw [ne_eq, List.map_eq_nil_iff]
    exact p.nonempty

/-- `Worker::on_io_work`, given what `read` returned; the flag says whether the worker goes
on. -/
def Pool.onIoWork (p : Pool) (bytes : Int) : Pool × Bool :=
  if bytes = -1 ∨ bytes = 0 then (p.schedule.shutdown, false)
  else (Pool.schedule^[(bytes - 1).toNat] p.schedule, true)

section Lengths

/-! The main thread neither adds nor removes threads. -/

theorem Pool.length_schedule (p : Pool) : p.schedule.threads.length = p.threads.length :=
  List.length_modify ..

theorem Pool.length_schedules (p : Pool) (n : Nat) :
    (Pool.schedule^[n] p).threads.length = p.threads.length := by
  induction n generalizing p with
  | zero => rfl
  | succ n ih => rw [Function.iterate_succ_apply, ih, p.length_schedule]

theorem Pool.length_shutdown (p : Pool) : p.shutdown.threads.length = p.threads.length :=
  List.length_map ..

theorem Pool.length_onIoWork (p : Pool) (bytes : Int) :
    (p.onIoWork bytes).1.threads.length = p.threads.length := by
  rw [Pool.onIoWork]
  split
  · exact p.schedule.length_shutdown.trans p.length_schedule
  · exact (p.schedule.length_schedules _).trans p.length_schedule

end Lengths

/-- The work tokens pushed so far. -/
def Pool.pushed (p : Pool) : Nat := (p.threads.map WorkQueue.sent).sum

/-- Sending one thread a token pushes one token. -/
theorem sum_sent_modify {threads : List WorkQueue} {i : Nat} (hi : i < threads.length) :
    ((threads.modify i WorkQueue.sendWork).map WorkQueue.sent).sum =
      (threads.map WorkQueue.sent).sum + 1 := by
  induction threads generalizing i with
  | nil => exact absurd hi (Nat.not_lt_zero i)
  | cons wq threads ih =>
    cases i with
    | zero =>
      simp only [List.modify_zero_cons, List.map_cons, List.sum_cons, WorkQueue.sendWork]
      omega
    | succ i =>
      rw [List.length_cons] at hi
      rw [List.modify_succ_cons, List.map_cons, List.map_cons, List.sum_cons, List.sum_cons,
        ih (by omega)]
      omega

theorem Pool.pushed_schedule (p : Pool) : p.schedule.pushed = p.pushed + 1 :=
  sum_sent_modify p.selected_lt

theorem Pool.pushed_schedules (p : Pool) (n : Nat) :
    (Pool.schedule^[n] p).pushed = p.pushed + n := by
  induction n generalizing p with
  | zero => rfl
  | succ n ih => rw [Function.iterate_succ_apply, ih, p.pushed_schedule]; omega

theorem Pool.pushed_shutdown (p : Pool) : p.shutdown.pushed = p.pushed := by
  rw [Pool.pushed, Pool.shutdown, List.map_map]
  rfl

/-- A read of some bytes pushes one token for each of them. -/
theorem Pool.pushed_onIoWork_bytes (p : Pool) {n : Nat} (hn : 1 ≤ n) :
    (p.onIoWork n).1.pushed = p.pushed + n ∧ (p.onIoWork n).2 = true := by
  have hne : ¬ ((n : Int) = -1 ∨ (n : Int) = 0) := by omega
  rw [Pool.onIoWork, if_neg hne]
  refine ⟨?_, rfl⟩
  rw [Pool.pushed_schedules, Pool.pushed_schedule]
  omega

/-- The final read pushes a token although it returned no byte. -/
theorem Pool.pushed_onIoWork_final (p : Pool) {bytes : Int} (h : bytes = -1 ∨ bytes = 0) :
    (p.onIoWork bytes).1.pushed = p.pushed + 1 ∧ (p.onIoWork bytes).2 = false := by
  rw [Pool.onIoWork, if_pos h]
  exact ⟨by rw [Pool.pushed_shutdown, Pool.pushed_schedule], rfl⟩

/-- The loop keeps its start value while no count is above its bound. -/
theorem selectThread_of_le {values : List Int} {smallest : Int}
    (h : ∀ value ∈ values, value ≤ smallest) (i selected : Nat) :
    selectThread values i smallest selected = selected := by
  induction values generalizing i with
  | nil => rfl
  | cons value values ih =>
    rw [List.forall_mem_cons] at h
    rw [selectThread, if_neg (by omega)]
    exact ih h.2 (i + 1)

/-- Once a count is above the bound, the loop selects a largest one. -/
theorem selectThread_of_lt {values : List Int} {smallest : Int}
    (h : ∃ value ∈ values, smallest < value) (i selected : Nat) :
    ∃ k largest, selectThread values i smallest selected = i + k ∧
      values[k]? = some largest ∧ smallest < largest ∧ ∀ value ∈ values, value ≤ largest := by
  induction values generalizing i smallest selected with
  | nil =>
    obtain ⟨value, hmem, _⟩ := h
    exact absurd hmem List.not_mem_nil
  | cons head values ih =>
    rw [selectThread]
    split
    · rename_i hhead
      by_cases hlater : ∃ value ∈ values, head < value
      · -- a later count is larger still
        obtain ⟨k, largest, hk, hget, hlt, hmax⟩ := ih hlater (i + 1) i
        refine ⟨k + 1, largest, by omega, hget, by omega, ?_⟩
        rw [List.forall_mem_cons]
        exact ⟨by omega, hmax⟩
      · simp only [not_exists, not_and, not_lt] at hlater
        refine ⟨0, head, selectThread_of_le hlater (i + 1) i, rfl, hhead, ?_⟩
        rw [List.forall_mem_cons]
        exact ⟨le_rfl, hlater⟩
    · rename_i hhead
      rw [List.exists_mem_cons_iff, or_iff_right hhead] at h
      obtain ⟨k, largest, hk, hget, hlt, hmax⟩ := ih h (i + 1) selected
      refine ⟨k + 1, largest, by omega, hget, hlt, ?_⟩
      rw [List.forall_mem_cons]
      exact ⟨by omega, hmax⟩

/-- Only the selected thread is sent a token. -/
theorem Pool.getElem?_schedule (p : Pool) (i : Nat) :
    p.schedule.threads[i]? =
      if i = p.selected then p.threads[i]?.map WorkQueue.sendWork else p.threads[i]? := by
  rw [Pool.schedule, List.getElem?_modify]
  by_cases hi : i = p.selected
  · rw [if_pos hi, ← hi]
    simp
  · rw [if_neg hi]
    simp [Ne.symm hi]

/-- What is selected when no thread has more than ten tokens pending. -/
theorem Pool.selected_of_le (p : Pool) (h : ∀ wq ∈ p.threads, wq.pending ≤ 10) :
    p.threads[p.selected]? = some (p.threads.head p.nonempty) := by
  have hzero : p.selected = 0 := by
    refine selectThread_of_le ?_ 0 0
    rw [List.forall_mem_map]
    exact h
  rw [hzero, List.head_eq_getElem, List.getElem?_eq_getElem]

/-- What is selected when some thread has more than ten tokens pending. -/
theorem Pool.selected_of_lt (p : Pool) (h : ∃ wq ∈ p.threads, 10 < wq.pending) :
    ∃ largest, p.threads[p.selected]? = some largest ∧
      ∀ wq ∈ p.threads, wq.pending ≤ largest.pending := by
  have hvalue : ∃ value ∈ p.threads.map WorkQueue.pending, 10 < value := by
    obtain ⟨wq, hmem, hlt⟩ := h
    exact ⟨wq.pending, List.mem_map_of_mem hmem, hlt⟩
  obtain ⟨k, value, hk, hget, _, hmax⟩ := selectThread_of_lt hvalue 0 0
  have hselected : p.selected = k := by rw [Pool.selected, hk, Nat.zero_add]
  rw [List.getElem?_map, Option.map_eq_some_iff] at hget
  obtain ⟨largest, hlargest, rfl⟩ := hget
  rw [List.forall_mem_map] at hmax
  exact ⟨largest, by rw [hselected, hlargest], hmax⟩

/-- `schedule` sends one token to a least busy thread, and nothing to any other, exactly if
all threads are equally busy, or none has more than ten tokens pending and the first thread
is a least busy one. -/
theorem Pool.schedule_least_busy_iff (p : Pool) :
    (p.selected < p.threads.length ∧
      (∃ wq, p.threads[p.selected]? = some wq ∧
        ∀ other ∈ p.threads, wq.pending ≤ other.pending) ∧
      ∀ i, p.schedule.threads[i]? =
        if i = p.selected then p.threads[i]?.map WorkQueue.sendWork else p.threads[i]?) ↔
      (∀ wq ∈ p.threads, ∀ other ∈ p.threads, wq.pending = other.pending) ∨
        ∀ wq ∈ p.threads,
          wq.pending ≤ 10 ∧ (p.threads.head p.nonempty).pending ≤ wq.pending := by
  have hfirst := List.head_mem p.nonempty
  constructor
  · rintro ⟨_, ⟨wq, hwq, hleast⟩, _⟩
    by_cases hle : ∀ wq ∈ p.threads, wq.pending ≤ 10
    · rw [p.selected_of_le hle, Option.some.injEq] at hwq
      subst hwq
      exact Or.inr fun other hother => ⟨hle other hother, hleast other hother⟩
    · simp only [not_forall, not_le, exists_prop] at hle
      obtain ⟨largest, hlargest, hmax⟩ := p.selected_of_lt hle
      rw [hlargest, Option.some.injEq] at hwq
      subst hwq
      -- the largest count is also the smallest one
      refine Or.inl fun first hf second hs => ?_
      exact (le_antisymm (hmax first hf) (hleast first hf)).trans
        (le_antisymm (hleast second hs) (hmax second hs))
  · intro h
    refine ⟨p.selected_lt, ?_, p.getElem?_schedule⟩
    rcases h with hequal | hlight
    · have hget := List.getElem?_eq_getElem p.selected_lt
      refine ⟨_, hget, fun other hother => ?_⟩
      exact (hequal _ (List.mem_of_getElem? hget) other hother).le
    · refine ⟨_, p.selected_of_le fun wq hwq => (hlight wq hwq).1, ?_⟩
      exact fun other hother => (hlight other hother).2

/-- An idle thread and one with eleven tokens pending: the busy one gets the next token. -/
def unbalanced : Pool where
  threads := [.new, { WorkQueue.new with pending := 11 }]
  nonempty := List.cons_ne_nil _ _

theorem schedule_prefers_the_busy_thread :
    unbalanced.selected = 1 ∧
      ¬ ∃ wq, unbalanced.threads[unbalanced.selected]? = some wq ∧
        ∀ other ∈ unbalanced.threads, wq.pending ≤ other.pending := by
  have hselected : unbalanced.selected = 1 := by decide
  refine ⟨hselected, ?_⟩
  rintro ⟨wq, hwq, hleast⟩
  rw [hselected] at hwq
  obtain rfl : { WorkQueue.new with pending := 11 } = wq := by simpa [unbalanced] using hwq
  have hnew := hleast .new List.mem_cons_self
  exact absurd hnew (by decide)

end Workq.Worker
