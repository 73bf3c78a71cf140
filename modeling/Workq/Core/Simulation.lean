import Workq.Core.Run

/-!
# Refinement by an abstraction function

A concrete system refines an abstract one when each concrete step, read through the
abstraction function, is a run of the abstract system: one step, several, or none at all for
a step that the abstract system does not see. The abstract events of a run are then those of
its steps, one after the other.
-/

namespace Workq.Core

variable {σ ε α β : Type*}

/-- The abstract events of a run, those of each step taken at the state before it. -/
def labels (step : σ → ε → Option σ) (label : σ → ε → List β) : σ → List ε → List β
  | _, [] => []
  | s, e :: es =>
    match step s e with
    | none => []
    | some t => label s e ++ labels step label t es

@[simp] theorem labels_nil (step : σ → ε → Option σ) (label : σ → ε → List β) (s : σ) :
    labels step label s [] = [] := rfl

theorem labels_cons {step : σ → ε → Option σ} (label : σ → ε → List β) {s t : σ} {e : ε}
    (h : step s e = some t) (es : List ε) :
    labels step label s (e :: es) = label s e ++ labels step label t es := by
  rw [labels, h]

/-- When every step from a state that meets the invariant is a run of the abstract system,
so is every run. -/
theorem exec_labels {step : σ → ε → Option σ} {astep : α → β → Option α} (abs : σ → α)
    {label : σ → ε → List β} {I : σ → Prop}
    (hkeep : ∀ s e t, I s → step s e = some t → I t)
    (hstep : ∀ s e t, I s → step s e = some t → exec astep (abs s) (label s e) = some (abs t))
    {s u : σ} {es : List ε} (hs : I s) (hrun : exec step s es = some u) :
    exec astep (abs s) (labels step label s es) = some (abs u) := by
  induction es generalizing s with
  | nil =>
    rw [exec_nil, Option.some.injEq] at hrun
    rw [labels_nil, exec_nil, hrun]
  | cons e es ih =>
    obtain ⟨t, ht, hu⟩ := exec_cons_eq_some.mp hrun
    rw [labels_cons label ht]
    exact exec_append.mpr ⟨abs t, hstep s e t hs ht, ih (hkeep s e t hs ht) hu⟩

/-- What each step adds to a record, the run adds in order. -/
theorem record_labels {γ : Type*} {step : σ → ε → Option σ} {label : σ → ε → List β}
    (record : σ → List γ) {seen : β → Option γ}
    (hstep : ∀ s e t, step s e = some t → record t = record s ++ (label s e).filterMap seen)
    {s u : σ} {es : List ε} (hrun : exec step s es = some u) :
    record u = record s ++ (labels step label s es).filterMap seen := by
  induction es generalizing s with
  | nil =>
    rw [exec_nil, Option.some.injEq] at hrun
    rw [labels_nil, List.filterMap_nil, List.append_nil, hrun]
  | cons e es ih =>
    obtain ⟨t, ht, hu⟩ := exec_cons_eq_some.mp hrun
    rw [labels_cons label ht, List.filterMap_append, ← List.append_assoc, ← hstep s e t ht]
    exact ih hu

end Workq.Core
