import Mathlib.Data.List.Basic

/-!
# The connection handle

`m_mysql` is the connection and, by being NULL or not, the flag that tells whether there is
one. `connect` overwrites it without looking, and `disconnect` closes and frees the object
it points to but leaves the pointer as it is. The model keeps books of what was opened,
closed and freed, and of whether the client was ever passed an object after its release.
-/

namespace Workq.Adaptor

/-- How `connect` ends. -/
inductive ConnectResult where
  | connected
  /-- `mysql_init` returned NULL. -/
  | initFailed
  /-- `mysql_real_connect` returned NULL. -/
  | connectFailed
  deriving DecidableEq, Repr

/-- `m_mysql`, and the books of the `MYSQL` objects, numbered as they are allocated. -/
structure MysqlAdaptor where
  mysql : Option Nat
  allocated : Nat
  /-- The objects whose connection `mysql_real_connect` opened. -/
  opened : List Nat
  /-- The objects passed to `mysql_close`, once for each call. -/
  closed : List Nat
  /-- The objects passed to `g_free`. -/
  freed : List Nat
  /-- Whether the client was passed a closed or freed object. -/
  misused : Bool
  deriving DecidableEq, Repr

/-- The constructor. -/
def MysqlAdaptor.new : MysqlAdaptor := ⟨none, 0, [], [], [], false⟩

/-- Pass an object to the client. -/
def MysqlAdaptor.pass (a : MysqlAdaptor) (h : Nat) : MysqlAdaptor :=
  if h ∈ a.closed ∨ h ∈ a.freed then { a with misused := true } else a

/-- `g_malloc` of a new object, which `m_mysql` then points to. -/
def MysqlAdaptor.malloc (a : MysqlAdaptor) : MysqlAdaptor :=
  { a with mysql := some a.allocated, allocated := a.allocated + 1 }

/-- The label `conn_error` of `connect`: free the object and clear the pointer. -/
def MysqlAdaptor.connError (a : MysqlAdaptor) : MysqlAdaptor :=
  match a.mysql with
  | none => a
  | some h => { a with mysql := none, freed := h :: a.freed }

/-- `MysqlAdaptor::connect`: `mysql_init`, `mysql_real_connect` and `mysql_options` on a new
object. `g_malloc` does not return NULL. -/
def MysqlAdaptor.connect (a : MysqlAdaptor) (result : ConnectResult) : MysqlAdaptor :=
  let h := a.allocated
  let inited := a.malloc.pass h
  match result with
  | .initFailed => inited.connError
  | .connectFailed => (inited.pass h).connError
  | .connected => { inited.pass h with opened := h :: a.opened }.pass h

/-- `MysqlAdaptor::disconnect`. -/
def MysqlAdaptor.disconnect (a : MysqlAdaptor) : MysqlAdaptor :=
  match a.mysql with
  | none => a
  | some h => { a.pass h with closed := h :: a.closed, freed := h :: a.freed }

/-- `MysqlAdaptor::query`, with the client's reply to the statement. -/
def MysqlAdaptor.query (a : MysqlAdaptor) (reply : Int) : MysqlAdaptor × Int :=
  match a.mysql with
  | none => (a, -1)
  | some h => (a.pass h, reply)

/-- `MysqlAdaptor::query_with_result`: whether it returns an iterator. -/
def MysqlAdaptor.queryWithResult (a : MysqlAdaptor) (reply : Int) : MysqlAdaptor × Bool :=
  match a.mysql with
  | none => (a, false)
  | some h => (a.pass h, reply = 0)

/-- `MysqlAdaptor::alive`, with what `mysql_ping` returns. -/
def MysqlAdaptor.alive (a : MysqlAdaptor) (ping : Int) : MysqlAdaptor × Bool :=
  match a.mysql with
  | none => (a, false)
  | some h => (a.pass h, ping = 0)

/-- `MysqlAdaptor::errors`: whether it returns a text. -/
def MysqlAdaptor.errors (a : MysqlAdaptor) : MysqlAdaptor × Bool :=
  match a.mysql with
  | none => (a, false)
  | some h => (a.pass h, true)

/-- The public calls, with what the client returns to them. -/
inductive AdaptorCall where
  | connect (result : ConnectResult)
  | query (reply : Int)
  | queryWithResult (reply : Int)
  | alive (ping : Int)
  | errors
  | disconnect
  deriving DecidableEq, Repr

/-- One call. -/
def MysqlAdaptor.call (a : MysqlAdaptor) : AdaptorCall → MysqlAdaptor
  | .connect result => a.connect result
  | .query reply => (a.query reply).1
  | .queryWithResult reply => (a.queryWithResult reply).1
  | .alive ping => (a.alive ping).1
  | .errors => a.errors.1
  | .disconnect => a.disconnect

/-- The calls in order, from a given adaptor on. -/
def MysqlAdaptor.run (a : MysqlAdaptor) (calls : List AdaptorCall) : MysqlAdaptor :=
  calls.foldl MysqlAdaptor.call a

/-- The destructor. -/
def MysqlAdaptor.destroy (a : MysqlAdaptor) : MysqlAdaptor := a.disconnect

/-- What a call that finds no connection has to return. -/
def MysqlAdaptor.Refuses (a : MysqlAdaptor) : AdaptorCall → Prop
  | .query reply => (a.query reply).2 = -1
  | .queryWithResult reply => (a.queryWithResult reply).2 = false
  | .alive ping => (a.alive ping).2 = false
  | .connect _ | .errors | .disconnect => True

/-- Whether a connection is open after a call, given whether one was before it. -/
def opens (isOpen : Bool) : AdaptorCall → Bool
  | .connect result => result = .connected
  | .disconnect => false
  | .query _ | .queryWithResult _ | .alive _ | .errors => isOpen

/-- Along the calls and the destructor after them every opened connection is closed exactly
once, no released object is passed to the client, and the calls made while no connection is
open say so. -/
structure HandleSafe (calls : List AdaptorCall) : Prop where
  closedOnce : ∀ h ∈ (MysqlAdaptor.new.run calls).destroy.opened,
    (MysqlAdaptor.new.run calls).destroy.closed.count h = 1
  unused : (MysqlAdaptor.new.run calls).destroy.misused = false
  refused : ∀ before c after, calls = before ++ c :: after → before.foldl opens false = false →
    (MysqlAdaptor.new.run before).Refuses c

/-- Every `connect` finds no open connection, and every `disconnect` of an open connection is
followed by a `connect`. The flag says whether a connection is open at the first call. -/
def Paired : Bool → List AdaptorCall → Prop
  | _, [] => True
  | isOpen, .connect result :: calls => isOpen = false ∧ Paired (result = .connected) calls
  | isOpen, .disconnect :: calls =>
    (isOpen = true → ∃ result rest, calls = .connect result :: rest) ∧ Paired false calls
  | isOpen, _ :: calls => Paired isOpen calls

/-- A released object in the client's hands is noticed. -/
theorem MysqlAdaptor.misused_pass (a : MysqlAdaptor) {h : Nat} (hc : h ∈ a.closed) :
    (a.pass h).misused = true := by
  rw [MysqlAdaptor.pass, if_pos (Or.inl hc)]

theorem MysqlAdaptor.pass_eq_self {a : MysqlAdaptor} {h : Nat} (hc : h ∉ a.closed)
    (hf : h ∉ a.freed) : a.pass h = a := by
  rw [MysqlAdaptor.pass, if_neg (by rw [not_or]; exact ⟨hc, hf⟩)]

@[simp] theorem MysqlAdaptor.pass_mysql (a : MysqlAdaptor) (h : Nat) :
    (a.pass h).mysql = a.mysql := by
  unfold MysqlAdaptor.pass
  split <;> rfl

@[simp] theorem MysqlAdaptor.pass_allocated (a : MysqlAdaptor) (h : Nat) :
    (a.pass h).allocated = a.allocated := by
  unfold MysqlAdaptor.pass
  split <;> rfl

@[simp] theorem MysqlAdaptor.pass_opened (a : MysqlAdaptor) (h : Nat) :
    (a.pass h).opened = a.opened := by
  unfold MysqlAdaptor.pass
  split <;> rfl

@[simp] theorem MysqlAdaptor.pass_closed (a : MysqlAdaptor) (h : Nat) :
    (a.pass h).closed = a.closed := by
  unfold MysqlAdaptor.pass
  split <;> rfl

@[simp] theorem MysqlAdaptor.pass_freed (a : MysqlAdaptor) (h : Nat) :
    (a.pass h).freed = a.freed := by
  unfold MysqlAdaptor.pass
  split <;> rfl

/-- The calls that neither open nor close a connection. -/
def AdaptorCall.uses : AdaptorCall → Bool
  | .connect _ | .disconnect => false
  | .query _ | .queryWithResult _ | .alive _ | .errors => true

/-- A use of the connection passes the pointer on unless it is NULL. -/
theorem MysqlAdaptor.call_of_uses (a : MysqlAdaptor) {c : AdaptorCall} (hc : c.uses = true) :
    (a.mysql = none ∧ a.call c = a) ∨ ∃ h, a.mysql = some h ∧ a.call c = a.pass h := by
  cases hm : a.mysql with
  | none =>
    left
    refine ⟨rfl, ?_⟩
    cases c <;> simp_all [MysqlAdaptor.call, MysqlAdaptor.query, MysqlAdaptor.queryWithResult,
      MysqlAdaptor.alive, MysqlAdaptor.errors, AdaptorCall.uses]
  | some h =>
    right
    refine ⟨h, rfl, ?_⟩
    cases c <;> simp_all [MysqlAdaptor.call, MysqlAdaptor.query, MysqlAdaptor.queryWithResult,
      MysqlAdaptor.alive, MysqlAdaptor.errors, AdaptorCall.uses]

/-- What a call can be. -/
theorem AdaptorCall.cases_uses (c : AdaptorCall) :
    (∃ result, c = .connect result) ∨ c = .disconnect ∨ c.uses = true := by
  cases c <;> simp [AdaptorCall.uses]

/-- Without a pointer every call refuses. -/
theorem MysqlAdaptor.refuses_of_none {a : MysqlAdaptor} (hm : a.mysql = none)
    (c : AdaptorCall) : a.Refuses c := by
  cases c <;> simp [MysqlAdaptor.Refuses, MysqlAdaptor.query, MysqlAdaptor.queryWithResult,
    MysqlAdaptor.alive, hm]

/-- What `connect` makes of an adaptor whose next object is a fresh one. -/
theorem MysqlAdaptor.connect_eq {a : MysqlAdaptor} (hc : a.allocated ∉ a.closed)
    (hf : a.allocated ∉ a.freed) (result : ConnectResult) :
    a.connect result =
      if result = .connected then
        { a with mysql := some a.allocated, allocated := a.allocated + 1,
                 opened := a.allocated :: a.opened }
      else
        { a with mysql := none, allocated := a.allocated + 1,
                 freed := a.allocated :: a.freed } := by
  have hpass : a.malloc.pass a.allocated = a.malloc := MysqlAdaptor.pass_eq_self hc hf
  cases result with
  | connected =>
    simp only [MysqlAdaptor.connect, hpass, if_true]
    exact MysqlAdaptor.pass_eq_self hc hf
  | initFailed => simp only [MysqlAdaptor.connect, hpass]; rfl
  | connectFailed => simp only [MysqlAdaptor.connect, hpass]; rfl

/-- Releasing a connection that is still open. -/
theorem MysqlAdaptor.disconnect_eq {a : MysqlAdaptor} {h : Nat} (hm : a.mysql = some h)
    (hc : h ∉ a.closed) (hf : h ∉ a.freed) :
    a.disconnect = { a with closed := h :: a.closed, freed := h :: a.freed } := by
  simp only [MysqlAdaptor.disconnect, hm, MysqlAdaptor.pass_eq_self hc hf]

/-- The books of an adaptor whose open connection is the given one. -/
structure Sound (conn : Option Nat) (a : MysqlAdaptor) : Prop where
  unused : a.misused = false
  allocated : ∀ h, h ∈ a.opened ∨ h ∈ a.closed ∨ h ∈ a.freed → h < a.allocated
  closedOnce : ∀ h ∈ a.opened, conn ≠ some h → a.closed.count h = 1
  /-- The open connection is the one that the pointer points to. -/
  live : ∀ h, conn = some h → a.mysql = some h ∧ h ∈ a.opened ∧ h ∉ a.closed ∧ h ∉ a.freed
  /-- Without an open connection, the pointer is NULL or points to a closed one. -/
  stale : conn = none → ∀ h, a.mysql = some h → h ∈ a.closed

theorem sound_new : Sound none .new := by
  constructor <;> simp [MysqlAdaptor.new]

theorem Sound.connect {a : MysqlAdaptor} (ha : Sound none a) (result : ConnectResult) :
    Sound (if result = .connected then some a.allocated else none) (a.connect result) := by
  have hc : a.allocated ∉ a.closed :=
    fun hm => Nat.lt_irrefl _ (ha.allocated _ (Or.inr (Or.inl hm)))
  have hf : a.allocated ∉ a.freed :=
    fun hm => Nat.lt_irrefl _ (ha.allocated _ (Or.inr (Or.inr hm)))
  have hold : ∀ h, h ∈ a.opened ∨ h ∈ a.closed ∨ h ∈ a.freed → h < a.allocated + 1 :=
    fun h hh => Nat.lt_succ_of_lt (ha.allocated h hh)
  rw [MysqlAdaptor.connect_eq hc hf]
  split
  · refine ⟨ha.unused, ?_, ?_, ?_, ?_⟩
    · intro h hh
      simp only [List.mem_cons] at hh
      rcases hh with (rfl | hh) | hh
      · exact Nat.lt_succ_self _
      · exact hold h (Or.inl hh)
      · exact hold h (Or.inr hh)
    · intro h hh hlive
      rcases List.mem_cons.mp hh with rfl | hh
      · exact absurd rfl hlive
      · exact ha.closedOnce h hh (by simp)
    · rintro h ⟨⟩
      exact ⟨rfl, List.mem_cons_self, hc, hf⟩
    · intro hnone
      contradiction
  · refine ⟨ha.unused, ?_, ha.closedOnce, ?_, ?_⟩
    · intro h hh
      simp only [List.mem_cons] at hh
      rcases hh with hh | hh | rfl | hh
      · exact hold h (Or.inl hh)
      · exact hold h (Or.inr (Or.inl hh))
      · exact Nat.lt_succ_self _
      · exact hold h (Or.inr (Or.inr hh))
    · intro h hnone
      contradiction
    · intro _ h hnone
      contradiction

theorem Sound.disconnect {a : MysqlAdaptor} {h : Nat} (ha : Sound (some h) a) :
    Sound none a.disconnect ∧ a.disconnect.mysql = some h := by
  obtain ⟨hm, hopen, hc, hf⟩ := ha.live h rfl
  rw [MysqlAdaptor.disconnect_eq hm hc hf]
  refine ⟨⟨ha.unused, ?_, ?_, ?_, ?_⟩, hm⟩
  · intro g hg
    simp only [List.mem_cons] at hg
    have hlt := ha.allocated h (Or.inl hopen)
    rcases hg with hg | (rfl | hg) | rfl | hg
    · exact ha.allocated g (Or.inl hg)
    · exact hlt
    · exact ha.allocated g (Or.inr (Or.inl hg))
    · exact hlt
    · exact ha.allocated g (Or.inr (Or.inr hg))
  · intro g hg _
    by_cases hgh : g = h
    · rw [hgh, List.count_cons_self, List.count_eq_zero_of_not_mem hc]
    · rw [List.count_cons_of_ne (Ne.symm hgh)]
      exact ha.closedOnce g hg (by simpa using Ne.symm hgh)
  · intro g hnone
    contradiction
  · intro _ g hg
    rw [hm, Option.some.injEq] at hg
    exact hg ▸ List.mem_cons_self

/-- An open connection that the adaptor has no pointer to. -/
structure Lost (h : Nat) (a : MysqlAdaptor) : Prop where
  opened : h ∈ a.opened
  notClosed : h ∉ a.closed
  pointer : a.mysql ≠ some h
  allocated : h < a.allocated

/-- `connect` forgets the connection that it finds. -/
theorem lost_connect {a : MysqlAdaptor} {h : Nat} (hopen : h ∈ a.opened) (hc : h ∉ a.closed)
    (hlt : h < a.allocated) (result : ConnectResult) : Lost h (a.connect result) := by
  have hne : a.allocated ≠ h := (Nat.ne_of_lt hlt).symm
  cases result <;> constructor <;>
    simp [MysqlAdaptor.connect, MysqlAdaptor.connError, MysqlAdaptor.malloc, *] <;> omega

theorem Lost.pass {a : MysqlAdaptor} {h : Nat} (hl : Lost h a) (g : Nat) :
    Lost h (a.pass g) := by
  constructor <;> simp [hl.opened, hl.notClosed, hl.pointer, hl.allocated]

theorem Lost.disconnect {a : MysqlAdaptor} {h : Nat} (hl : Lost h a) :
    Lost h a.disconnect := by
  unfold MysqlAdaptor.disconnect
  split
  · exact hl
  · rename_i g hm
    refine ⟨(hl.pass g).opened, ?_, (hl.pass g).pointer, (hl.pass g).allocated⟩
    intro hmem
    rcases List.mem_cons.mp hmem with rfl | hmem
    · exact hl.pointer hm
    · exact hl.notClosed hmem

/-- A lost connection stays lost. -/
theorem Lost.call {a : MysqlAdaptor} {h : Nat} (hl : Lost h a) (c : AdaptorCall) :
    Lost h (a.call c) := by
  rcases c.cases_uses with ⟨result, rfl⟩ | rfl | huses
  · exact lost_connect hl.opened hl.notClosed hl.allocated result
  · exact hl.disconnect
  · rcases a.call_of_uses huses with ⟨_, heq⟩ | ⟨g, _, heq⟩
    · rw [heq]
      exact hl
    · rw [heq]
      exact hl.pass g

theorem Lost.run {a : MysqlAdaptor} {h : Nat} (hl : Lost h a) (calls : List AdaptorCall) :
    Lost h (a.run calls) := by
  induction calls generalizing a with
  | nil => exact hl
  | cons c calls ih => exact ih (hl.call c)

theorem MysqlAdaptor.misused_pass_of {a : MysqlAdaptor} (ha : a.misused = true) (g : Nat) :
    (a.pass g).misused = true := by
  unfold MysqlAdaptor.pass
  split
  · rfl
  · exact ha

theorem MysqlAdaptor.misused_connError {a : MysqlAdaptor} (ha : a.misused = true) :
    a.connError.misused = true := by
  unfold MysqlAdaptor.connError
  split <;> exact ha

theorem MysqlAdaptor.misused_disconnect {a : MysqlAdaptor} (ha : a.misused = true) :
    a.disconnect.misused = true := by
  unfold MysqlAdaptor.disconnect
  split
  · exact ha
  · exact MysqlAdaptor.misused_pass_of ha _

/-- A misuse stays on record. -/
theorem MysqlAdaptor.misused_call {a : MysqlAdaptor} (ha : a.misused = true)
    (c : AdaptorCall) : (a.call c).misused = true := by
  rcases c.cases_uses with ⟨result, rfl⟩ | rfl | huses
  · have hmalloc : a.malloc.misused = true := ha
    have hinited := MysqlAdaptor.misused_pass_of hmalloc a.allocated
    cases result with
    | initFailed => exact MysqlAdaptor.misused_connError hinited
    | connectFailed =>
      exact MysqlAdaptor.misused_connError (MysqlAdaptor.misused_pass_of hinited _)
    | connected =>
      refine MysqlAdaptor.misused_pass_of ?_ a.allocated
      exact MysqlAdaptor.misused_pass_of hinited a.allocated
  · exact MysqlAdaptor.misused_disconnect ha
  · rcases a.call_of_uses huses with ⟨_, heq⟩ | ⟨g, _, heq⟩
    · rw [heq]
      exact ha
    · rw [heq]
      exact MysqlAdaptor.misused_pass_of ha g

theorem MysqlAdaptor.misused_run {a : MysqlAdaptor} (ha : a.misused = true)
    (calls : List AdaptorCall) : (a.run calls).misused = true := by
  induction calls generalizing a with
  | nil => exact ha
  | cons c calls ih => exact ih (MysqlAdaptor.misused_call ha c)

/-- Every opened connection is closed once, and no released object was passed on. -/
def MysqlAdaptor.Clean (a : MysqlAdaptor) : Prop :=
  (∀ h ∈ a.opened, a.closed.count h = 1) ∧ a.misused = false

theorem MysqlAdaptor.not_clean_of_misused {a : MysqlAdaptor} (ha : a.misused = true)
    (calls : List AdaptorCall) : ¬ (a.run calls).destroy.Clean := by
  rintro ⟨_, hclean⟩
  rw [MysqlAdaptor.destroy, MysqlAdaptor.misused_disconnect (a.misused_run ha calls)] at hclean
  contradiction

theorem Lost.not_clean {a : MysqlAdaptor} {h : Nat} (hl : Lost h a)
    (calls : List AdaptorCall) : ¬ (a.run calls).destroy.Clean := by
  rintro ⟨honce, _⟩
  have hlost := (hl.run calls).disconnect
  have hcount := honce h hlost.opened
  rw [MysqlAdaptor.destroy, List.count_eq_zero_of_not_mem hlost.notClosed] at hcount
  contradiction

theorem paired_cons_of_uses {c : AdaptorCall} (hc : c.uses = true) (isOpen : Bool)
    (calls : List AdaptorCall) : Paired isOpen (c :: calls) ↔ Paired isOpen calls := by
  cases c with
  | connect result => exact absurd hc Bool.false_ne_true
  | disconnect => exact absurd hc Bool.false_ne_true
  | query reply => rfl
  | queryWithResult reply => rfl
  | alive ping => rfl
  | errors => rfl

/-- The calls are paired, and start with `connect` if the pointer is stale. -/
def Allowed (conn : Option Nat) (a : MysqlAdaptor) (calls : List AdaptorCall) : Prop :=
  Paired conn.isSome calls ∧
    (conn = none → a.mysql = none ∨ ∃ result rest, calls = .connect result :: rest)

/-- The destructor leaves clean books unless the pointer is stale. -/
theorem Sound.clean_destroy_iff {conn : Option Nat} {a : MysqlAdaptor} (ha : Sound conn a) :
    a.destroy.Clean ↔ (conn = none → a.mysql = none) := by
  cases conn with
  | some h =>
    have hsound := ha.disconnect.1
    refine iff_of_true ⟨?_, hsound.unused⟩ (fun hnone => absurd hnone (by simp))
    exact fun g hg => hsound.closedOnce g hg (by simp)
  | none =>
    cases hm : a.mysql with
    | none =>
      have hdestroy : a.destroy = a := by
        rw [MysqlAdaptor.destroy, MysqlAdaptor.disconnect, hm]
      rw [hdestroy]
      exact iff_of_true ⟨fun g hg => ha.closedOnce g hg (by simp), ha.unused⟩ fun _ => rfl
    | some h =>
      refine iff_of_false ?_ (by simp)
      rintro ⟨_, hclean⟩
      rw [MysqlAdaptor.destroy, MysqlAdaptor.disconnect, hm] at hclean
      rw [show _ = true from a.misused_pass (ha.stale rfl h hm)] at hclean
      contradiction

/-- A failed `connect` leaves a NULL pointer. -/
theorem MysqlAdaptor.connect_mysql {a : MysqlAdaptor} {result : ConnectResult}
    (hr : result ≠ .connected) : (a.connect result).mysql = none := by
  cases result with
  | connected => exact absurd rfl hr
  | initFailed => simp [MysqlAdaptor.connect, MysqlAdaptor.connError, MysqlAdaptor.malloc]
  | connectFailed => simp [MysqlAdaptor.connect, MysqlAdaptor.connError, MysqlAdaptor.malloc]

/-- With a stale pointer every call but `connect` is a misuse. -/
theorem Sound.misused_call {a : MysqlAdaptor} (ha : Sound none a) {h : Nat}
    (hm : a.mysql = some h) {c : AdaptorCall} (hc : ∀ result, c ≠ .connect result) :
    (a.call c).misused = true := by
  have hpass := a.misused_pass (ha.stale rfl h hm)
  rcases c.cases_uses with ⟨result, rfl⟩ | rfl | huses
  · exact absurd rfl (hc result)
  · rw [MysqlAdaptor.call, MysqlAdaptor.disconnect, hm]
    exact hpass
  · rcases a.call_of_uses huses with ⟨hnone, _⟩ | ⟨g, hg, heq⟩
    · rw [hm] at hnone
      contradiction
    · rw [hm, Option.some.injEq] at hg
      rw [heq, ← hg]
      exact hpass

/-- Without a stale pointer, a use of the connection changes nothing. -/
theorem Sound.call_of_uses {conn : Option Nat} {a : MysqlAdaptor} (ha : Sound conn a)
    (hready : conn = none → a.mysql = none) {c : AdaptorCall} (hc : c.uses = true) :
    a.call c = a := by
  rcases a.call_of_uses hc with ⟨_, heq⟩ | ⟨h, hm, heq⟩
  · exact heq
  · cases conn with
    | none =>
      rw [hready rfl] at hm
      contradiction
    | some g =>
      obtain ⟨hg, _, hclosed, hfreed⟩ := ha.live g rfl
      rw [hm, Option.some.injEq] at hg
      rw [heq, hg]
      exact MysqlAdaptor.pass_eq_self hclosed hfreed

theorem allowed_connect {a : MysqlAdaptor} (result : ConnectResult)
    (calls : List AdaptorCall) :
    Allowed none a (.connect result :: calls) ↔
      Allowed (if result = .connected then some a.allocated else none) (a.connect result)
        calls := by
  by_cases hr : result = .connected
  · simp [Allowed, Paired, hr]
  · simp [Allowed, Paired, hr, MysqlAdaptor.connect_mysql hr]

/-- After the release of an open connection only `connect` may come. -/
theorem Sound.allowed_disconnect {a : MysqlAdaptor} {h : Nat} (ha : Sound (some h) a)
    (calls : List AdaptorCall) :
    Allowed (some h) a (.disconnect :: calls) ↔ Allowed none a.disconnect calls := by
  simp [Allowed, Paired, ha.disconnect.2, and_comm]

/-- Where a call does nothing, it may stand. -/
theorem allowed_cons_of_ready {conn : Option Nat} {a : MysqlAdaptor}
    (hready : conn = none → a.mysql = none) {c : AdaptorCall} {calls : List AdaptorCall}
    (hpaired : Paired conn.isSome (c :: calls) ↔ Paired conn.isSome calls) :
    Allowed conn a (c :: calls) ↔ Allowed conn a calls := by
  rw [Allowed, Allowed, hpaired]
  exact and_congr_right fun _ => iff_of_true (fun hnone => Or.inl (hready hnone))
    (fun hnone => Or.inl (hready hnone))

/-- What one call does to sound books. If it is allowed they stay sound, and the calls after it
decide; if not, there is a misuse or a lost connection. -/
theorem Sound.call_cases {conn : Option Nat} {a : MysqlAdaptor} (ha : Sound conn a)
    (c : AdaptorCall) (calls : List AdaptorCall) :
    (∃ next, Sound next (a.call c) ∧ next.isSome = opens conn.isSome c ∧
      (Allowed conn a (c :: calls) ↔ Allowed next (a.call c) calls)) ∨
    (¬ Allowed conn a (c :: calls) ∧
      ((a.call c).misused = true ∨ ∃ h, Lost h (a.call c))) := by
  by_cases hstale : conn = none ∧ a.mysql ≠ none ∧ ∀ result, c ≠ .connect result
  · -- the pointer is passed on although its connection is closed
    obtain ⟨rfl, hne, hc⟩ := hstale
    obtain ⟨h, hm⟩ := Option.ne_none_iff_exists'.mp hne
    refine Or.inr ⟨?_, Or.inl (ha.misused_call hm hc)⟩
    rintro ⟨_, hready⟩
    rcases hready rfl with hnone | ⟨result, rest, hcons⟩
    · exact hne hnone
    · exact hc result (List.cons.inj hcons).1
  have hready : (∀ result, c ≠ .connect result) → conn = none → a.mysql = none := by
    intro hc hnone
    by_contra hne
    exact hstale ⟨hnone, hne, hc⟩
  rcases c.cases_uses with ⟨result, rfl⟩ | rfl | huses
  · cases conn with
    | some h =>
      -- the open connection is lost
      obtain ⟨_, hopen, hclosed, _⟩ := ha.live h rfl
      have hlost := lost_connect hopen hclosed (ha.allocated h (Or.inl hopen)) result
      refine Or.inr ⟨?_, Or.inr ⟨h, hlost⟩⟩
      rintro ⟨⟨hfalse, _⟩, _⟩
      contradiction
    | none =>
      refine Or.inl ⟨_, ha.connect result, ?_, allowed_connect result calls⟩
      by_cases hr : result = .connected <;> simp [opens, hr]
  · cases conn with
    | some h => exact Or.inl ⟨none, ha.disconnect.1, rfl, ha.allowed_disconnect calls⟩
    | none =>
      have hm : a.mysql = none := hready (by simp) rfl
      have hcall : a.call .disconnect = a := by
        rw [MysqlAdaptor.call, MysqlAdaptor.disconnect, hm]
      rw [hcall]
      exact Or.inl ⟨none, ha, rfl, allowed_cons_of_ready (fun _ => hm) (by simp [Paired])⟩
  · have hc : ∀ result, c ≠ .connect result := by
      rintro result rfl
      exact absurd huses Bool.false_ne_true
    rw [ha.call_of_uses (hready hc) huses]
    refine Or.inl ⟨conn, ha, ?_,
      allowed_cons_of_ready (hready hc) (paired_cons_of_uses huses _ calls)⟩
    cases c <;> simp_all [opens, AdaptorCall.uses]

/-- From sound books, the calls and the destructor leave clean books exactly if the calls are
allowed. -/
theorem Sound.clean_run_iff {conn : Option Nat} {a : MysqlAdaptor} (ha : Sound conn a)
    (calls : List AdaptorCall) : (a.run calls).destroy.Clean ↔ Allowed conn a calls := by
  induction calls generalizing conn a with
  | nil =>
    rw [show a.run [] = a from rfl, ha.clean_destroy_iff]
    simp [Paired, Allowed]
  | cons c calls ih =>
    rcases ha.call_cases c calls with ⟨next, hnext, _, hallowed⟩ | ⟨hnot, hmisused | ⟨h, hlost⟩⟩
    · exact (ih hnext).trans hallowed.symm
    · exact iff_of_false (MysqlAdaptor.not_clean_of_misused hmisused calls) hnot
    · exact iff_of_false (hlost.not_clean calls) hnot

/-- A call that is made while no connection is open says so. -/
theorem Sound.refuses {conn : Option Nat} {a : MysqlAdaptor} (ha : Sound conn a)
    {c : AdaptorCall} (before after : List AdaptorCall)
    (hallowed : Allowed conn a (before ++ c :: after))
    (hclosed : before.foldl opens conn.isSome = false) : (a.run before).Refuses c := by
  induction before generalizing conn a with
  | nil =>
    obtain rfl : conn = none := by simpa using hclosed
    rcases hallowed.2 rfl with hm | ⟨result, rest, hcons⟩
    · exact MysqlAdaptor.refuses_of_none hm c
    · rw [(List.cons.inj hcons).1]
      trivial
  | cons d before ih =>
    rcases ha.call_cases d (before ++ c :: after) with ⟨next, hnext, hopen, hiff⟩ | ⟨hnot, _⟩
    · rw [List.foldl_cons, ← hopen] at hclosed
      exact ih hnext (hiff.mp hallowed) hclosed
    · exact absurd hallowed hnot

/-- A sequence of calls ended by the destructor closes every connection exactly once, passes
on no released object and answers -1 and false without a connection, exactly if no `connect`
is made while a connection is open and every `disconnect` of an open connection is followed
by a `connect`. -/
theorem handle_safe_iff (calls : List AdaptorCall) : HandleSafe calls ↔ Paired false calls := by
  have hallowed : Allowed none .new calls ↔ Paired false calls := by
    simp [Allowed, MysqlAdaptor.new]
  have hclean := sound_new.clean_run_iff calls
  rw [hallowed] at hclean
  constructor
  · intro h
    exact hclean.mp ⟨h.closedOnce, h.unused⟩
  · intro h
    obtain ⟨honce, hunused⟩ := hclean.mpr h
    refine ⟨honce, hunused, ?_⟩
    rintro before c after rfl hclosed
    exact sound_new.refuses before after (hallowed.mpr h) hclosed

/-- One connection and its release: the destructor closes it a second time. -/
theorem disconnect_closes_twice :
    (MysqlAdaptor.new.run [.connect .connected, .disconnect]).destroy.closed = [0, 0] ∧
      ¬ HandleSafe [.connect .connected, .disconnect] := by
  refine ⟨by decide, ?_⟩
  intro h
  exact absurd h.unused (by decide)

end Workq.Adaptor
