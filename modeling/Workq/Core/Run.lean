import Mathlib.Algebra.GroupWithZero.Nat
import Mathlib.Data.List.Basic
import Mathlib.Order.RelClasses

/-!
# Finite runs of partial labelled steps

A system is a partial function from a state and an event to the next state; all
nondeterminism sits in the event. `exec` folds a list of events and is `none` as
soon as one of them is not enabled. `AllSteps` says that every step of a run
meets a condition on the state before it, and the invariant rules turn a fact
about one step into a fact about every run. `countSteps` counts the steps of a kind, and
a potential that each of them uses up bounds their number; one that every step uses up
bounds the run.
-/

namespace Workq.Core

variable {σ ε : Type*}

/-- Execute the events in order, rejecting the run at the first event that is not enabled. -/
def exec (step : σ → ε → Option σ) : σ → List ε → Option σ
  | s, [] => some s
  | s, e :: es => (step s e).bind fun t => exec step t es

@[simp] theorem exec_nil (step : σ → ε → Option σ) (s : σ) : exec step s [] = some s := rfl

theorem exec_cons (step : σ → ε → Option σ) (s : σ) (e : ε) (es : List ε) :
    exec step s (e :: es) = (step s e).bind fun t => exec step t es := rfl

/-- A nonempty run is its first step followed by the rest. -/
theorem exec_cons_eq_some {step : σ → ε → Option σ} {s u : σ} {e : ε} {es : List ε} :
    exec step s (e :: es) = some u ↔ ∃ t, step s e = some t ∧ exec step t es = some u := by
  rw [exec_cons, Option.bind_eq_some_iff]

/-- Runs compose. -/
theorem exec_append {step : σ → ε → Option σ} {s u : σ} {es fs : List ε} :
    exec step s (es ++ fs) = some u ↔
      ∃ t, exec step s es = some t ∧ exec step t fs = some u := by
  induction es generalizing s with
  | nil => simp only [List.nil_append, exec_nil, Option.some.injEq, exists_eq_left']
  | cons e es ih =>
    simp only [List.cons_append, exec_cons_eq_some, ih]
    constructor
    · rintro ⟨m, hm, t, ht, hu⟩
      exact ⟨t, ⟨m, hm, ht⟩, hu⟩
    · rintro ⟨t, ⟨m, hm, ht⟩, hu⟩
      exact ⟨m, hm, t, ht, hu⟩

/-- Every step that the run takes meets the condition at the state before it. -/
def AllSteps (step : σ → ε → Option σ) (C : σ → ε → Prop) : σ → List ε → Prop
  | _, [] => True
  | s, e :: es => C s e ∧ ∀ t, step s e = some t → AllSteps step C t es

instance decidableAllSteps {step : σ → ε → Option σ} {C : σ → ε → Prop}
    [∀ s e, Decidable (C s e)] : ∀ s es, Decidable (AllSteps step C s es)
  | _, [] => isTrue trivial
  | s, e :: es =>
    match h : step s e with
    | none => decidable_of_iff (C s e)
        ⟨fun hC => ⟨hC, fun _ ht => by rw [h] at ht; contradiction⟩, fun hA => hA.1⟩
    | some t =>
      have : Decidable (AllSteps step C t es) := decidableAllSteps t es
      decidable_of_iff (C s e ∧ AllSteps step C t es)
        ⟨fun hC => ⟨hC.1, fun u hu => Option.some.inj (h.symm.trans hu) ▸ hC.2⟩,
          fun hA => ⟨hA.1, hA.2 t h⟩⟩

/-- A condition on events alone holds along a run when it holds of each event. -/
theorem allSteps_of_forall {step : σ → ε → Option σ} {C : ε → Prop} {es : List ε}
    (h : ∀ e ∈ es, C e) (s : σ) : AllSteps step (fun _ e => C e) s es := by
  induction es generalizing s with
  | nil => trivial
  | cons e es ih =>
    refine ⟨h e (List.mem_cons_self ..), ?_⟩
    intro t _
    exact ih (fun f hf => h f (List.mem_cons_of_mem e hf)) t

/-- Weakening the condition of a run. -/
theorem AllSteps.imp {step : σ → ε → Option σ} {C D : σ → ε → Prop}
    (hCD : ∀ s e, C s e → D s e) {s : σ} {es : List ε} (h : AllSteps step C s es) :
    AllSteps step D s es := by
  induction es generalizing s with
  | nil => trivial
  | cons e es ih =>
    refine ⟨hCD s e h.1, ?_⟩
    intro t ht
    exact ih (h.2 t ht)

/-- A condition on every event besides the condition of a run. -/
theorem AllSteps.and_forall {step : σ → ε → Option σ} {C : σ → ε → Prop} {D : ε → Prop} {s : σ}
    {es : List ε} (h : AllSteps step C s es) (hD : ∀ e ∈ es, D e) :
    AllSteps step (fun s e => C s e ∧ D e) s es := by
  induction es generalizing s with
  | nil => trivial
  | cons e es ih =>
    rw [List.forall_mem_cons] at hD
    refine ⟨⟨h.1, hD.1⟩, ?_⟩
    intro t ht
    exact ih (h.2 t ht) hD.2

/-- Two runs whose steps meet the condition, one after the other. -/
theorem AllSteps.append {step : σ → ε → Option σ} {C : σ → ε → Prop} {s : σ} {es fs : List ε}
    (hes : AllSteps step C s es) (hfs : ∀ t, exec step s es = some t → AllSteps step C t fs) :
    AllSteps step C s (es ++ fs) := by
  induction es generalizing s with
  | nil => exact hfs s rfl
  | cons e es ih =>
    refine ⟨hes.1, ?_⟩
    intro t ht
    exact ih (hes.2 t ht) fun u hu => hfs u (exec_cons_eq_some.mpr ⟨t, ht, hu⟩)

/-- What every step that meets the condition preserves, every such run preserves. -/
theorem exec_preserves {step : σ → ε → Option σ} {C : σ → ε → Prop} {P : σ → Prop}
    (hstep : ∀ s e t, C s e → P s → step s e = some t → P t)
    {s u : σ} {es : List ε} (hC : AllSteps step C s es) (hs : P s)
    (hrun : exec step s es = some u) : P u := by
  induction es generalizing s with
  | nil =>
    rw [exec_nil, Option.some.injEq] at hrun
    exact hrun ▸ hs
  | cons e es ih =>
    obtain ⟨t, ht, hu⟩ := exec_cons_eq_some.mp hrun
    exact ih (hC.2 t ht) (hstep s e t hC.1 hs ht) hu

/-- The unconditional invariant rule. -/
theorem exec_invariant {step : σ → ε → Option σ} {P : σ → Prop}
    (hstep : ∀ s e t, P s → step s e = some t → P t)
    {s u : σ} {es : List ε} (hs : P s) (hrun : exec step s es = some u) : P u :=
  exec_preserves (C := fun _ _ => True) (fun s e t _ => hstep s e t)
    (allSteps_of_forall (fun _ _ => trivial) s) hs hrun

/-- When a property follows from an invariant, the invariant is kept by the steps that meet a
condition, and each other step breaks the property, then the property holds in every state
of a run exactly when all its steps meet the condition. -/
theorem forall_reached_iff_allSteps {step : σ → ε → Option σ} {C : σ → ε → Prop}
    {I P : σ → Prop} (hP : ∀ s, I s → P s)
    (hkeep : ∀ s e t, I s → C s e → step s e = some t → I t)
    (hbreak : ∀ s e, I s → ¬C s e → ∃ t, step s e = some t ∧ ¬P t)
    {s : σ} (hs : I s) (es : List ε) :
    (∀ fs, fs <+: es → ∀ u, exec step s fs = some u → P u) ↔ AllSteps step C s es := by
  induction es generalizing s with
  | nil =>
    refine iff_of_true ?_ trivial
    intro fs hfs u hu
    rw [List.prefix_nil.mp hfs, exec_nil, Option.some.injEq] at hu
    exact hu ▸ hP s hs
  | cons e es ih =>
    constructor
    · intro h
      have hC : C s e := by
        by_contra hC
        obtain ⟨t, ht, hPt⟩ := hbreak s e hs hC
        have hreach : exec step s [e] = some t := exec_cons_eq_some.mpr ⟨t, ht, exec_nil step t⟩
        exact hPt (h [e] (by simp) t hreach)
      refine ⟨hC, ?_⟩
      intro t ht
      refine (ih (hkeep s e t hs hC ht)).mp ?_
      intro fs hfs u hu
      exact h (e :: fs) (by simpa using hfs) u (exec_cons_eq_some.mpr ⟨t, ht, hu⟩)
    · rintro ⟨hC, hrest⟩ fs hfs u hu
      rcases List.prefix_cons_iff.mp hfs with rfl | ⟨fs, rfl, hrestfs⟩
      · rw [exec_nil, Option.some.injEq] at hu
        exact hu ▸ hP s hs
      · obtain ⟨t, ht, hu⟩ := exec_cons_eq_some.mp hu
        exact (ih (hkeep s e t hs hC ht)).mpr (hrest t ht) fs hrestfs u hu

/-- When the steps of a kind pay their costs out of a potential and what they gain, the costs of
a run of them are paid out of the potential at its start and all that is gained. -/
theorem exec_costs_le_of_forall {step : σ → ε → Option σ} {C : ε → Prop} (P : σ → Prop)
    (potential : σ → Nat) (cost gain : ε → Nat)
    (hstep : ∀ s e t, P s → C e → step s e = some t →
      P t ∧ cost e + potential t ≤ potential s + gain e)
    {s u : σ} (hs : P s) {es : List ε} (hes : ∀ e ∈ es, C e) (hrun : exec step s es = some u) :
    (es.map cost).sum + potential u ≤ potential s + (es.map gain).sum := by
  induction es generalizing s with
  | nil =>
    rw [exec_nil, Option.some.injEq] at hrun
    rw [hrun, List.map_nil, List.map_nil]
    omega
  | cons e es ih =>
    obtain ⟨t, ht, hu⟩ := exec_cons_eq_some.mp hrun
    obtain ⟨hP, hle⟩ := hstep s e t hs (hes e (List.mem_cons_self ..)) ht
    have hrest := ih hP (fun f hf => hes f (List.mem_cons_of_mem e hf)) hu
    rw [List.map_cons, List.map_cons, List.sum_cons, List.sum_cons]
    omega

/-- The same for steps of every kind. -/
theorem exec_costs_le {step : σ → ε → Option σ} (P : σ → Prop) (potential : σ → Nat)
    (cost gain : ε → Nat) (hstep : ∀ s e t, P s → step s e = some t →
      P t ∧ cost e + potential t ≤ potential s + gain e)
    {s u : σ} (hs : P s) {es : List ε} (hrun : exec step s es = some u) :
    (es.map cost).sum + potential u ≤ potential s + (es.map gain).sum :=
  exec_costs_le_of_forall (C := fun _ => True) P potential cost gain
    (fun s e t hP _ => hstep s e t hP) hs (fun _ _ => trivial) hrun

/-- A potential that every step uses up bounds the length of a run. -/
theorem exec_length_le {step : σ → ε → Option σ} (P : σ → Prop) (potential : σ → Nat)
    (hstep : ∀ s e t, P s → step s e = some t → P t ∧ potential t < potential s)
    {s u : σ} (hs : P s) {es : List ε} (hrun : exec step s es = some u) :
    es.length + potential u ≤ potential s := by
  have hcost : ∀ s e t, P s → step s e = some t → P t ∧ 1 + potential t ≤ potential s + 0 := by
    intro s e t hP ht
    obtain ⟨hPt, hlt⟩ := hstep s e t hP ht
    exact ⟨hPt, by omega⟩
  simpa using exec_costs_le P potential (fun _ => 1) (fun _ => 0) hcost hs hrun

/-- Adding up a test counts the entries that pass it. -/
theorem sum_toNat_eq_countP (p : ε → Bool) (es : List ε) :
    (es.map fun e => (p e).toNat).sum = es.countP p := by
  induction es with
  | nil => rfl
  | cons e es ih =>
    rw [List.map_cons, List.sum_cons, ih, List.countP_cons, Nat.add_comm]
    cases p e <;> rfl

/-- When short of a goal some step of a kind makes a measure smaller, some run of such steps
reaches the goal. -/
theorem exists_exec_reaching {α : Type*} [LT α] [WellFoundedLT α]
    {step : σ → ε → Option σ} {C : ε → Prop} {goal : σ → Prop} (P : σ → Prop) (measure : σ → α)
    (hstep : ∀ s, P s → ¬ goal s →
      ∃ e t, C e ∧ step s e = some t ∧ P t ∧ measure t < measure s)
    {s : σ} (hs : P s) :
    ∃ es u, (∀ e ∈ es, C e) ∧ exec step s es = some u ∧ goal u ∧
      AllSteps step (fun s e => ∀ t, step s e = some t → measure t < measure s) s es := by
  induction hn : measure s using WellFoundedLT.induction generalizing s with
  | ind n ih =>
    by_cases hgoal : goal s
    · exact ⟨[], s, fun e he => absurd he List.not_mem_nil, rfl, hgoal, trivial⟩
    · obtain ⟨e, t, he, ht, hPt, hlt⟩ := hstep s hs hgoal
      obtain ⟨es, u, hes, hu, hend, hall⟩ := ih _ (hn ▸ hlt) hPt rfl
      refine ⟨e :: es, u, ?_, exec_cons_eq_some.mpr ⟨t, ht, hu⟩, hend, ?_, ?_⟩
      · intro f hf
        rcases List.mem_cons.mp hf with rfl | hf
        · exact he
        · exact hes f hf
      · intro t' ht'
        exact Option.some.inj (ht.symm.trans ht') ▸ hlt
      · intro t' ht'
        exact Option.some.inj (ht.symm.trans ht') ▸ hall

/-- When the steps of a kind use up a potential, some run of them goes on until none of them
is enabled. -/
theorem exists_exec_maximal {step : σ → ε → Option σ} {C : ε → Prop} (P : σ → Prop)
    (potential : σ → Nat)
    (hstep : ∀ s e t, P s → C e → step s e = some t → P t ∧ potential t < potential s)
    {s : σ} (hs : P s) :
    ∃ es u, (∀ e ∈ es, C e) ∧ exec step s es = some u ∧ ∀ e, C e → step u e = none := by
  have hless : ∀ s, P s → ¬ (∀ e, C e → step s e = none) →
      ∃ e t, C e ∧ step s e = some t ∧ P t ∧ potential t < potential s := by
    intro s hs hstuck
    push Not at hstuck
    obtain ⟨e, he, hne⟩ := hstuck
    obtain ⟨t, ht⟩ := Option.ne_none_iff_exists'.mp hne
    exact ⟨e, t, he, ht, hstep s e t hs he ht⟩
  obtain ⟨es, u, hes, hu, hstuck, _⟩ := exists_exec_reaching P potential hless hs
  exact ⟨es, u, hes, hu, hstuck⟩

/-- The number of steps of a kind that a run takes. -/
def countSteps (step : σ → ε → Option σ) (kind : σ → σ → Bool) : σ → List ε → Nat
  | _, [] => 0
  | s, e :: es =>
    match step s e with
    | none => 0
    | some t => (kind s t).toNat + countSteps step kind t es

/-- Steps that use up a potential are at most as many as it starts with. -/
theorem countSteps_le {step : σ → ε → Option σ} {kind : σ → σ → Bool} (P : σ → Prop)
    (potential : σ → Nat) (hstep : ∀ s e t, P s → step s e = some t →
      P t ∧ (kind s t).toNat + potential t ≤ potential s)
    {s : σ} (hs : P s) (es : List ε) : countSteps step kind s es ≤ potential s := by
  induction es generalizing s with
  | nil => exact Nat.zero_le _
  | cons e es ih =>
    rw [countSteps]
    split
    · exact Nat.zero_le _
    · rename_i t ht
      obtain ⟨hP, hle⟩ := hstep s e t hs ht
      have hrest := ih hP
      omega

end Workq.Core
