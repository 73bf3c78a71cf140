import Mathlib.Algebra.Order.Archimedean.Basic
import Mathlib.Algebra.Order.Group.Basic

/-!
# Climbing to a top

A function climbs when each step below the top either reaches it or gains a fixed positive
amount without reaching it. In an Archimedean group the iterates then get to the top after
finitely many steps, strictly increasing until they do.
-/

namespace Workq.Core

variable {G : Type*} [AddCommGroup G] [LinearOrder G]

/-- From `bottom` on, a step below `top` reaches it or gains at least `gain`. -/
structure Climbs (f : G → G) (bottom top gain : G) : Prop where
  gain_pos : 0 < gain
  step : ∀ x, bottom ≤ x → x < top → f x = top ∨ (x + gain ≤ f x ∧ f x < top)
  stays : f top = top

variable [IsOrderedAddMonoid G] {f : G → G} {bottom top gain x : G}

/-- Gains lead away from the bottom. -/
theorem Climbs.bottom_le (h : Climbs f bottom top gain) (hb : bottom ≤ x) {m : Nat} {y : G}
    (hy : x + m • gain ≤ y) : bottom ≤ y := by
  calc bottom ≤ x := hb
    _ ≤ x + m • gain := le_add_of_nonneg_right (nsmul_nonneg h.gain_pos.le m)
    _ ≤ y := hy

/-- After some steps the top is reached, or that many gains are made. -/
theorem Climbs.iterate_cases (h : Climbs f bottom top gain) (hb : bottom ≤ x) (hx : x < top)
    (m : Nat) : f^[m] x = top ∨ (x + m • gain ≤ f^[m] x ∧ f^[m] x < top) := by
  induction m with
  | zero =>
    right
    simpa using hx
  | succ m ih =>
    rw [Function.iterate_succ_apply']
    rcases ih with htop | ⟨hgain, hlt⟩
    · rw [htop]
      exact Or.inl h.stays
    · rcases h.step _ (h.bottom_le hb hgain) hlt with hreach | ⟨hmore, hlt'⟩
      · exact Or.inl hreach
      · refine Or.inr ⟨?_, hlt'⟩
        calc x + (m + 1) • gain = x + m • gain + gain := by rw [succ_nsmul, add_assoc]
          _ ≤ f^[m] x + gain := by gcongr
          _ ≤ f (f^[m] x) := hmore

theorem Climbs.iterate_le (h : Climbs f bottom top gain) (hb : bottom ≤ x) (hx : x < top)
    (m : Nat) : f^[m] x ≤ top := by
  rcases h.iterate_cases hb hx m with htop | ⟨_, hlt⟩
  · exact htop.le
  · exact hlt.le

/-- A step that does not start at the top goes up. -/
theorem Climbs.iterate_lt_succ (h : Climbs f bottom top gain) (hb : bottom ≤ x) (hx : x < top)
    {m : Nat} (hm : f^[m] x ≠ top) : f^[m] x < f^[m + 1] x := by
  obtain ⟨hgain, hlt⟩ := (h.iterate_cases hb hx m).resolve_left hm
  rw [Function.iterate_succ_apply']
  rcases h.step _ (h.bottom_le hb hgain) hlt with hreach | ⟨hmore, _⟩
  · rw [hreach]
    exact hlt
  · exact (lt_add_of_pos_right _ h.gain_pos).trans_le hmore

/-- The iterates go up until they are at the top, and stay there. -/
theorem Climbs.exists_iterate_eq [Archimedean G] (h : Climbs f bottom top gain)
    (hb : bottom ≤ x) (hx : x < top) :
    ∃ n, (∀ m < n, f^[m] x < f^[m + 1] x) ∧ ∀ m, n ≤ m → f^[m] x = top := by
  classical
  have hreach : ∃ n, f^[n] x = top := by
    obtain ⟨n, hn⟩ := Archimedean.arch (top - x) h.gain_pos
    refine ⟨n, (h.iterate_cases hb hx n).resolve_right ?_⟩
    rintro ⟨hgain, hlt⟩
    exact absurd (hgain.trans_lt hlt) (not_lt.mpr (sub_le_iff_le_add'.mp hn))
  refine ⟨Nat.find hreach, ?_, ?_⟩
  · intro m hm
    exact h.iterate_lt_succ hb hx (Nat.find_min hreach hm)
  · intro m hm
    obtain ⟨k, rfl⟩ := Nat.exists_eq_add_of_le' hm
    rw [Function.iterate_add_apply, Nat.find_spec hreach]
    exact Function.iterate_fixed h.stays k

end Workq.Core
