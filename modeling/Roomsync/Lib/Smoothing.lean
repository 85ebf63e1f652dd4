import Mathlib.Analysis.SpecificLimits.Basic
/-!
# Exponential smoothing

An estimate that each step moves towards a fixed target, by the share `1 - α` of the
way that is left.
-/

namespace Roomsync.Lib

open Finset

/-- The estimate after `n` steps from `x` towards `y`. -/
noncomputable def smoothed (α x y : ℝ) (n : ℕ) : ℝ := α ^ n * x + (1 - α ^ n) * y

variable {α x y : ℝ}

theorem smoothed_zero (α x y : ℝ) : smoothed α x y 0 = x := by
  unfold smoothed
  ring

theorem smoothed_succ (α x y : ℝ) (n : ℕ) :
    smoothed α x y (n + 1) = α * smoothed α x y n + (1 - α) * y := by
  unfold smoothed
  ring

theorem sum_smoothed {ι : Type*} (s : Finset ι) (α : ℝ) (x y : ι → ℝ) (n : ℕ) :
    ∑ i ∈ s, smoothed α (x i) (y i) n = smoothed α (∑ i ∈ s, x i) (∑ i ∈ s, y i) n := by
  unfold smoothed
  rw [sum_add_distrib, mul_sum, mul_sum]

theorem tendsto_smoothed (hα : 0 ≤ α) (hα' : α < 1) (x y : ℝ) :
    Filter.Tendsto (smoothed α x y) Filter.atTop (nhds y) := by
  have hpow := tendsto_pow_atTop_nhds_zero_of_lt_one hα hα'
  have hlimit := (hpow.mul_const x).add ((hpow.const_sub 1).mul_const y)
  have hvalue : 0 * x + (1 - 0) * y = y := by ring
  rwa [hvalue] at hlimit

theorem monotone_smoothed (hα : 0 ≤ α) (hα' : α ≤ 1) (hxy : x ≤ y) :
    Monotone (smoothed α x y) := by
  intro m n hmn
  have hpow := pow_le_pow_of_le_one hα hα' hmn
  have hscaled := mul_le_mul_of_nonneg_right hpow (sub_nonneg.mpr hxy)
  unfold smoothed
  linarith

theorem le_smoothed (hα : 0 ≤ α) (hxy : y ≤ x) (n : ℕ) : y ≤ smoothed α x y n := by
  have hscaled := mul_nonneg (pow_nonneg hα n) (sub_nonneg.mpr hxy)
  unfold smoothed
  linarith

end Roomsync.Lib
