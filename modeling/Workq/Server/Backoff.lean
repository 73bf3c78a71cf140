import Mathlib.Analysis.SpecialFunctions.Log.Base
import Workq.Core.Climb
import Workq.Server.Idle

/-!
# The back-off of the idle poll converges

`increase_timeout` adds the logarithm of `M * M - d * d` to a duration `d` below the maximum
`M`. The logarithm can be arbitrarily small there, but only where the clamp takes over: a
duration that stays more than one below `M` has gained at least the logarithm of `2 * M - 1`.
-/

namespace Workq.Server

open Workq.Core

variable {K : Type*} [Field K] [LinearOrder K] {cfg : IdleSettings K} {log10 : K → K}

/-- What `increase_timeout` makes of a duration. -/
def backedOff (cfg : IdleSettings K) (log10 : K → K) (duration : K) : K :=
  if duration < cfg.maxIdleTimeout then increased cfg log10 duration else duration

/-- Consecutive `increase_timeout` calls iterate the duration's change. -/
theorem duration_increaseTimeouts (s : ServerState K) (m : Nat) :
    ((ServerState.increaseTimeout cfg log10)^[m] s).duration =
      (backedOff cfg log10)^[m] s.duration := by
  have hsemi : Function.Semiconj ServerState.duration
      (ServerState.increaseTimeout cfg log10) (backedOff cfg log10) := by
    intro t
    unfold ServerState.increaseTimeout backedOff
    split <;> rfl
  exact (hsemi.iterate_right m) s

variable [IsStrictOrderedRing K]

/-- The logarithm's argument is away from one while the duration is one below the maximum. -/
theorem le_sub_squares {M d : K} (h0 : 0 ≤ d) (hd : d + 1 < M) : 2 * M - 1 ≤ M * M - d * d := by
  have hfactor : (M - 1) * (M - 1) - d * d = (M - 1 - d) * (M - 1 + d) := by ring
  have hnonneg : 0 ≤ (M - 1 - d) * (M - 1 + d) := by
    apply mul_nonneg <;> linarith
  linarith

/-- The step of the back-off gains at least the logarithm of `2 * M - 1` until it is at the
maximum. -/
theorem climbs_backedOff (hpos : ∀ y, 1 < y → 0 < |log10 y|)
    (hmono : ∀ y z, 1 < y → y ≤ z → |log10 y| ≤ |log10 z|) :
    Climbs (backedOff cfg log10) 0 cfg.maxIdleTimeout
      (if 1 < cfg.maxIdleTimeout then |log10 (2 * cfg.maxIdleTimeout - 1)| else 1) where
  gain_pos := by
    split
    · rename_i hM
      exact hpos _ (by linarith)
    · exact one_pos
  step := by
    intro d h0 hd
    rw [backedOff, if_pos hd]
    rcases increased_cases cfg log10 d with hclamp | ⟨heq, hbelow⟩
    · exact Or.inl hclamp
    · have hstep := abs_nonneg (log10 (cfg.maxIdleTimeout * cfg.maxIdleTimeout - d * d))
      have hM : 1 < cfg.maxIdleTimeout := by linarith
      have hgain := hmono (2 * cfg.maxIdleTimeout - 1) _ (by linarith)
        (le_sub_squares h0 (show d + 1 < cfg.maxIdleTimeout by linarith))
      refine Or.inr ⟨?_, by linarith⟩
      rw [if_pos hM, heq]
      linarith
  stays := if_neg (lt_irrefl _)

/-- The idle back-off converges: from any duration below the maximum, consecutive calls
strictly increase it, never above the maximum, until after finitely many of them it is the
maximum, where it stays. -/
theorem idle_backoff_converges [Archimedean K] (cfg : IdleSettings K) (log10 : K → K)
    (hpos : ∀ y, 1 < y → 0 < |log10 y|)
    (hmono : ∀ y z, 1 < y → y ≤ z → |log10 y| ≤ |log10 z|) (s : ServerState K)
    (h0 : 0 ≤ s.duration) (hlt : s.duration < cfg.maxIdleTimeout) :
    (∀ m, ((ServerState.increaseTimeout cfg log10)^[m] s).duration ≤ cfg.maxIdleTimeout) ∧
      ∃ n, (∀ m < n, ((ServerState.increaseTimeout cfg log10)^[m] s).duration <
          ((ServerState.increaseTimeout cfg log10)^[m + 1] s).duration) ∧
        ∀ m, n ≤ m →
          ((ServerState.increaseTimeout cfg log10)^[m] s).duration = cfg.maxIdleTimeout := by
  have hclimbs : Climbs (backedOff cfg log10) 0 cfg.maxIdleTimeout _ :=
    climbs_backedOff hpos hmono
  simp only [duration_increaseTimeouts]
  exact ⟨hclimbs.iterate_le h0 hlt, hclimbs.exists_iterate_eq h0 hlt⟩

/-- With the real logarithm and the default settings, the wait of 5 s grows to 64 s. -/
theorem idle_backoff_converges_from_5_to_64 :
    ∃ n, ∀ m, n ≤ m → ((ServerState.increaseTimeout (K := ℝ) {} (Real.logb 10))^[m]
      (ServerState.running {} .single)).duration = 64 := by
  have hlog : ∀ y : ℝ, 1 < y → 0 < Real.logb 10 y := by
    intro y hy
    exact Real.logb_pos (by norm_num) hy
  have hmono : ∀ y z : ℝ, 1 < y → y ≤ z → |Real.logb 10 y| ≤ |Real.logb 10 z| := by
    intro y z hy hyz
    rw [abs_of_pos (hlog y hy), abs_of_pos (hlog z (hy.trans_le hyz))]
    exact Real.logb_le_logb_of_le (by norm_num) (by linarith) hyz
  obtain ⟨_, n, _, hn⟩ := idle_backoff_converges (K := ℝ) {} (Real.logb 10)
    (fun y hy => abs_pos.mpr (hlog y hy).ne') hmono (ServerState.running {} .single)
    (by norm_num [ServerState.running]) (by norm_num [ServerState.running])
  exact ⟨n, hn⟩

end Workq.Server
