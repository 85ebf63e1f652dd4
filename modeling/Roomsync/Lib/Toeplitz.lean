import Mathlib.Algebra.Order.BigOperators.Ring.Finset
import Mathlib.Algebra.Order.Interval.Finset.Basic
import Mathlib.Order.Interval.Finset.Nat
import Mathlib.Tactic.GCongr
import Mathlib.Tactic.Positivity
import Roomsync.Lib.Levinson
import Roomsync.Lib.Recurrence
/-!
# The quadratic form of correlations

The correlations of a signal make a form that sums the squares of a combination over all
windows of the signal.  What solves the normal equations is the best predictor in this form,
and running it without excitation takes no combination of the last values out of it.
-/

namespace Roomsync.Lib

open Finset

/-! ## The form -/

section Form

variable {K : Type*} [CommRing K] (R : ℕ → K) (n : ℕ)

/-- The form of the correlations `R` on the first `n` entries. -/
def correlationForm (f g : ℕ → K) : K :=
  ∑ i ∈ range n, ∑ j ∈ range n, f i * g j * R (i.dist j)

variable {R n} {f g h : ℕ → K}

theorem correlationForm_comm (f g : ℕ → K) :
    correlationForm R n f g = correlationForm R n g f := by
  unfold correlationForm
  rw [sum_comm]
  apply sum_congr rfl
  intro i _
  apply sum_congr rfl
  intro j _
  rw [Nat.dist_comm]
  ring

theorem correlationForm_eq_rows (f g : ℕ → K) : correlationForm R n f g =
    ∑ i ∈ range n, f i * ∑ j ∈ range n, g j * R (i.dist j) := by
  unfold correlationForm
  apply sum_congr rfl
  intro i _
  rw [mul_sum]
  apply sum_congr rfl
  intro j _
  ring

theorem correlationForm_add_left (f g h : ℕ → K) :
    correlationForm R n (fun i => f i + g i) h =
      correlationForm R n f h + correlationForm R n g h := by
  simp only [correlationForm, add_mul, sum_add_distrib]

theorem correlationForm_mul_left (c : K) (f h : ℕ → K) :
    correlationForm R n (fun i => c * f i) h = c * correlationForm R n f h := by
  simp only [correlationForm, mul_sum, mul_assoc]

theorem correlationForm_add_self (f g : ℕ → K) :
    correlationForm R n (fun i => f i + g i) (fun i => f i + g i) =
      correlationForm R n f f + 2 * correlationForm R n f g + correlationForm R n g g := by
  rw [correlationForm_add_left, correlationForm_comm f, correlationForm_comm g,
    correlationForm_add_left, correlationForm_add_left, correlationForm_comm g f]
  ring

theorem correlationForm_scaled {S : ℕ → K} {c : K} (h : ∀ l < n, R l = c * S l) (f g : ℕ → K) :
    correlationForm R n f g = c * correlationForm S n f g := by
  unfold correlationForm
  rw [mul_sum]
  apply sum_congr rfl
  intro i hi
  rw [mul_sum]
  apply sum_congr rfl
  intro j hj
  have hlag : i.dist j < n := by
    have hrow := mem_range.mp hi
    have hcolumn := mem_range.mp hj
    unfold Nat.dist
    omega
  rw [h _ hlag]
  ring

/-- A last entry of zero does not count. -/
theorem correlationForm_succ_of_last (hf : f n = 0) :
    correlationForm R (n + 1) f f = correlationForm R n f f := by
  unfold correlationForm
  rw [sum_range_succ, hf]
  simp only [zero_mul, sum_const_zero, add_zero]
  apply sum_congr rfl
  intro i _
  rw [sum_range_succ, hf, mul_zero, zero_mul, add_zero]

/-- Neither does a first one: the form is the same along the diagonal. -/
theorem correlationForm_succ_of_first (hf : f 0 = 0) :
    correlationForm R (n + 1) f f =
      correlationForm R n (fun i => f (i + 1)) fun i => f (i + 1) := by
  unfold correlationForm
  rw [sum_range_succ', hf]
  simp only [zero_mul, sum_const_zero, add_zero]
  apply sum_congr rfl
  intro i _
  rw [sum_range_succ', hf, mul_zero, zero_mul, add_zero]
  apply sum_congr rfl
  intro j _
  rw [Nat.dist_add_add_right]

end Form

/-! ## The predictor in the form -/

section Predictor

variable {K : Type*} [Field K] {R a : ℕ → K} {p : ℕ} {err : K}

/-- The coefficients of the prediction error: one for the value itself, then `a`. -/
def errorFilter (a : ℕ → K) : ℕ → K
  | 0 => 1
  | j + 1 => a j

/-- The error of the predictor is orthogonal to all values that it looks back on. -/
theorem SolvesNormal.correlationForm_errorFilter (h : SolvesNormal R a p err) (f : ℕ → K) :
    correlationForm R (p + 1) f (errorFilter a) = f 0 * err := by
  have hrow : ∀ i < p, ∑ j ∈ range (p + 1), errorFilter a j * R ((i + 1).dist j) = 0 := by
    intro i hi
    have hdist : ∑ j ∈ range p, a j * R ((i + 1).dist (j + 1)) = -R (i + 1) := by
      rw [← h.equations i hi]
      apply sum_congr rfl
      intro j _
      rw [Nat.dist_add_add_right]
    rw [sum_range_succ']
    dsimp only [errorFilter]
    rw [hdist, Nat.dist_zero_right]
    ring
  have hfirst : ∑ j ∈ range (p + 1), errorFilter a j * R (Nat.dist 0 j) = err := by
    rw [sum_range_succ', h.error]
    simp only [errorFilter, Nat.dist_zero_left]
    ring
  rw [correlationForm_eq_rows, sum_range_succ', hfirst,
    sum_eq_zero fun i hi => by rw [hrow i (mem_range.mp hi), mul_zero], zero_add]

theorem SolvesNormal.correlationForm_self (h : SolvesNormal R a p err) :
    correlationForm R (p + 1) (errorFilter a) (errorFilter a) = err := by
  rw [h.correlationForm_errorFilter]
  exact one_mul err

/-- A combination of the values one step later, as one of the values now. -/
def stepBack (a g : ℕ → K) (j : ℕ) : K := g (j + 1) - g 0 * a j

theorem stepBack_of_le (ha : ∀ j, p ≤ j → a j = 0) {g : ℕ → K} (hg : ∀ j, p ≤ j → g j = 0)
    {j : ℕ} (hj : p ≤ j) : stepBack a g j = 0 := by
  unfold stepBack
  rw [hg _ (by omega), ha j hj, mul_zero, sub_zero]

/-- A step takes out of the form what the newest value adds to the prediction. -/
theorem SolvesNormal.correlationForm_stepBack (h : SolvesNormal R a p err) {g : ℕ → K}
    (hg : ∀ j, p ≤ j → g j = 0) :
    correlationForm R p (stepBack a g) (stepBack a g) =
      correlationForm R p g g - err * g 0 ^ 2 := by
  let k : ℕ → K := fun i => g i + -g 0 * errorFilter a i
  have hfirst : k 0 = 0 := by
    show g 0 + -g 0 * 1 = 0
    ring
  have hlater : (fun i => k (i + 1)) = stepBack a g := by
    ext j
    show g (j + 1) + -g 0 * a j = g (j + 1) - g 0 * a j
    ring
  have hcross : correlationForm R (p + 1) g (fun i => -g 0 * errorFilter a i) =
      -g 0 * (g 0 * err) := by
    rw [correlationForm_comm, correlationForm_mul_left, correlationForm_comm,
      h.correlationForm_errorFilter]
  have hself : correlationForm R (p + 1) (fun i => -g 0 * errorFilter a i)
      (fun i => -g 0 * errorFilter a i) = g 0 ^ 2 * err := by
    rw [correlationForm_mul_left, correlationForm_comm, correlationForm_mul_left,
      h.correlationForm_self]
    ring
  rw [← hlater, ← correlationForm_succ_of_first hfirst, correlationForm_add_self, hcross, hself,
    correlationForm_succ_of_last (hg p le_rfl)]
  ring

/-! ## Free prediction -/

def newest : ℕ → K := errorFilter fun _ => 0

theorem newest_of_pos {j : ℕ} (hj : 0 < j) : newest (K := K) j = 0 := by
  obtain ⟨i, rfl⟩ := Nat.exists_eq_succ_of_ne_zero hj.ne'
  rfl

theorem correlationForm_newest (hp : 0 < p) : correlationForm R p newest newest = R 0 := by
  induction p, hp using Nat.le_induction with
  | base => simp [correlationForm, newest, errorFilter]
  | succ p hp ih => rw [correlationForm_succ_of_last (newest_of_pos hp), ih]

def combination (p : ℕ) (g x : ℕ → K) (t : ℕ) : K := ∑ k ∈ range p, g k * x (p + t - 1 - k)

variable {x g : ℕ → K} {N t : ℕ}

theorem combination_newest (hp : 0 < p) (x : ℕ → K) (n : ℕ) :
    combination p newest x (n + 1) = x (p + n) := by
  unfold combination
  rw [sum_eq_single_of_mem 0 (mem_range.mpr hp)]
  · exact one_mul _
  · intro k _ hk
    rw [newest_of_pos (Nat.pos_of_ne_zero hk), zero_mul]

theorem Predicts.combination_succ (h : Predicts a p N x) (hg : ∀ j, p ≤ j → g j = 0)
    (ht : t < N) : combination p g x (t + 1) = combination p (stepBack a g) x t := by
  cases p with
  | zero => rfl
  | succ q =>
      have hlater : ∑ k ∈ range (q + 1), g (k + 1) * x (q + 1 + t - 1 - k) =
          ∑ k ∈ range q, g (k + 1) * x (q + 1 + (t + 1) - 1 - (k + 1)) := by
        rw [sum_range_succ, hg (q + 1) le_rfl, zero_mul, add_zero]
        apply sum_congr rfl
        intro k _
        have hplace : q + 1 + t - 1 - k = q + 1 + (t + 1) - 1 - (k + 1) := by omega
        rw [hplace]
      have hnewest : x (q + 1 + (t + 1) - 1 - 0) =
          -∑ k ∈ range (q + 1), a k * x (q + 1 + t - 1 - k) := h t ht
      unfold combination stepBack
      rw [sum_range_succ', hnewest, ← hlater]
      simp only [sub_mul, mul_assoc, sum_sub_distrib, ← mul_sum]
      ring

theorem Predicts.combination_eq (h : Predicts a p N x) (ha : ∀ j, p ≤ j → a j = 0)
    (hg : ∀ j, p ≤ j → g j = 0) (ht : t ≤ N) :
    combination p g x t = combination p ((stepBack a)^[t] g) x 0 := by
  induction t generalizing g with
  | zero => rfl
  | succ t ih =>
      have hback : ∀ j, p ≤ j → stepBack a g j = 0 := fun j hj => stepBack_of_le ha hg hj
      rw [h.combination_succ hg ht, ih hback (by omega), Function.iterate_succ_apply]

end Predictor

section Ordered

variable {K : Type*} [Field K] [LinearOrder K] [IsStrictOrderedRing K] {R a x : ℕ → K}
  {p N : ℕ} {err : K}

theorem SolvesNormal.correlationForm_iterate_le (h : SolvesNormal R a p err) (herr : 0 ≤ err)
    (ha : ∀ j, p ≤ j → a j = 0) {g : ℕ → K} (hg : ∀ j, p ≤ j → g j = 0) (t : ℕ) :
    correlationForm R p ((stepBack a)^[t] g) ((stepBack a)^[t] g) ≤ correlationForm R p g g := by
  induction t generalizing g with
  | zero => exact le_rfl
  | succ t ih =>
      have hback : ∀ j, p ≤ j → stepBack a g j = 0 := fun j hj => stepBack_of_le ha hg hj
      rw [Function.iterate_succ_apply]
      apply (ih hback).trans
      rw [h.correlationForm_stepBack hg]
      have hlost : 0 ≤ err * g 0 ^ 2 := mul_nonneg herr (sq_nonneg _)
      linarith

/-- Where the form bounds all combinations of the values that a free run starts from, the
power bounds all that it predicts. -/
theorem Predicts.sq_le (h : Predicts a p N x) (hsolves : SolvesNormal R a p err)
    (herr : 0 ≤ err) (ha : ∀ j, p ≤ j → a j = 0) {m : K} (hm : 0 ≤ m) (hR : 0 ≤ R 0)
    (hstart : ∀ g, combination p g x 0 ^ 2 ≤ m * correlationForm R p g g) {n : ℕ} (hn : n < N) :
    x (p + n) ^ 2 ≤ m * R 0 := by
  rcases Nat.eq_zero_or_pos p with rfl | hp
  · have hzero : x (0 + n) = 0 := by
      rw [h n hn, sum_range_zero, neg_zero]
    rw [hzero, zero_pow two_ne_zero]
    exact mul_nonneg hm hR
  · have hnew : ∀ j, p ≤ j → newest (K := K) j = 0 := fun j hj => newest_of_pos (by omega)
    rw [← combination_newest hp x n, h.combination_eq ha hnew hn]
    apply (hstart _).trans
    rw [← correlationForm_newest (R := R) hp]
    exact mul_le_mul_of_nonneg_left (hsolves.correlationForm_iterate_le herr ha hnew _) hm

end Ordered

/-! ## Signals -/

section Signal

variable {K : Type*} [CommRing K] {s : ℕ → K} {M n : ℕ}

def behind (s : ℕ → K) (t i : ℕ) : K := if i ≤ t then s (t - i) else 0

/-- The products of a signal of `M` values with itself, at a lag. -/
def lagSum (s : ℕ → K) (M lag : ℕ) : K := ∑ t ∈ range M, s t * s (t + lag)

theorem sum_behind_of_le (hs : ∀ t, M ≤ t → s t = 0) {i j : ℕ} (hij : i ≤ j) (hj : j ≤ n) :
    ∑ t ∈ range (M + n), behind s t i * behind s t j = lagSum s M (j - i) := by
  have hbefore : ∑ t ∈ range j, behind s t i * behind s t j = 0 := by
    apply sum_eq_zero
    intro t ht
    unfold behind
    rw [if_neg (c := j ≤ t) (Nat.not_le.mpr (mem_range.mp ht)), mul_zero]
  have hafter : ∑ t ∈ range (M + n - j), behind s (j + t) i * behind s (j + t) j =
      ∑ t ∈ range (M + n - j), s t * s (t + (j - i)) := by
    apply sum_congr rfl
    intro t _
    have hplace : j + t - i = t + (j - i) := by omega
    unfold behind
    rw [if_pos (by omega), if_pos (by omega), hplace, Nat.add_sub_cancel_left, mul_comm]
  have hsplit : M + n = j + (M + n - j) := by omega
  have hcut : M + n - j = M + (n - j) := by omega
  rw [hsplit, sum_range_add, hbefore, zero_add, hafter, hcut, sum_range_add]
  unfold lagSum
  rw [add_eq_left]
  apply sum_eq_zero
  intro t _
  rw [hs (M + t) (by omega), zero_mul]

theorem sum_behind_mul (hs : ∀ t, M ≤ t → s t = 0) {i j : ℕ} (hi : i ≤ n) (hj : j ≤ n) :
    ∑ t ∈ range (M + n), behind s t i * behind s t j = lagSum s M (i.dist j) := by
  rcases Nat.le_total i j with hij | hji
  · rw [sum_behind_of_le hs hij hj, Nat.dist_eq_sub_of_le hij]
  · rw [sum_congr rfl fun t _ => mul_comm (behind s t i) (behind s t j),
      sum_behind_of_le hs hji hi, Nat.dist_eq_sub_of_le_right hji]

theorem sum_windows_sq (hs : ∀ t, M ≤ t → s t = 0) (g : ℕ → K) :
    ∑ t ∈ range (M + n), (∑ i ∈ range n, g i * behind s t i) ^ 2 =
      correlationForm (lagSum s M) n g g := by
  have hsquare : ∀ t, (∑ i ∈ range n, g i * behind s t i) ^ 2 =
      ∑ i ∈ range n, ∑ j ∈ range n, g i * g j * (behind s t i * behind s t j) := by
    intro t
    rw [sq, sum_mul_sum]
    apply sum_congr rfl
    intro i _
    apply sum_congr rfl
    intro j _
    ring
  rw [sum_congr rfl fun t _ => hsquare t, sum_comm]
  unfold correlationForm
  apply sum_congr rfl
  intro i hi
  rw [sum_comm]
  apply sum_congr rfl
  intro j hj
  rw [← mul_sum, sum_behind_mul hs (mem_range.mp hi).le (mem_range.mp hj).le]

end Signal

theorem window_sq_le {K : Type*} [CommRing K] [LinearOrder K] [IsStrictOrderedRing K] {s : ℕ → K}
    {M n t : ℕ} (hs : ∀ t, M ≤ t → s t = 0) (ht : t < M + n) (g : ℕ → K) :
    (∑ i ∈ range n, g i * behind s t i) ^ 2 ≤ correlationForm (lagSum s M) n g g := by
  rw [← sum_windows_sq hs]
  exact single_le_sum (f := fun t => (∑ i ∈ range n, g i * behind s t i) ^ 2)
    (fun t _ => sq_nonneg _) (mem_range.mpr ht)

end Roomsync.Lib
