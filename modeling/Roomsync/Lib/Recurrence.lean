import Mathlib.Algebra.BigOperators.Intervals
import Mathlib.Algebra.BigOperators.Ring.Finset
import Mathlib.Algebra.Order.Ring.Nat
import Mathlib.Algebra.Ring.Defs
import Mathlib.Data.Nat.Find
/-!
# Linear prediction without excitation

Each value is minus a fixed combination of the `p` before it.  What follows the first `p` is
all zero exactly when each coefficient looks back on zeros only.
-/

namespace Roomsync.Lib

open Finset

section Prediction

variable {K : Type*} [CommRing K]

/-- The `N` values from place `p` on are predicted with the coefficients `a`. -/
def Predicts (a : ℕ → K) (p N : ℕ) (x : ℕ → K) : Prop :=
  ∀ n < N, x (p + n) = -∑ k ∈ range p, a k * x (p + n - 1 - k)

variable {a x : ℕ → K} {p N : ℕ}

theorem Predicts.update (h : Predicts a p N x) {v : K}
    (hv : v = -∑ k ∈ range p, a k * x (p + N - 1 - k)) :
    Predicts a p (N + 1) (Function.update x (p + N) v) := by
  have hread : ∀ n ≤ N, ∑ k ∈ range p, a k * Function.update x (p + N) v (p + n - 1 - k) =
      ∑ k ∈ range p, a k * x (p + n - 1 - k) := by
    intro n hn
    apply sum_congr rfl
    intro k hk
    have hlt := mem_range.mp hk
    rw [Function.update_of_ne (by omega)]
  intro n hn
  rw [hread n (Nat.le_of_lt_succ hn)]
  rcases Nat.lt_succ_iff_lt_or_eq.mp hn with hlt | rfl
  · rw [Function.update_of_ne (by omega), h n hlt]
  · rw [Function.update_self, hv]

theorem Predicts.of_support (h : Predicts a p N x) {q : ℕ} (hq : q ≤ p)
    (ha : ∀ k, q ≤ k → a k = 0) : Predicts a q N fun i => x (p - q + i) := by
  intro n hn
  have hplace : p - q + (q + n) = p + n := by omega
  have hcut : ∑ k ∈ range q, a k * x (p + n - 1 - k) = ∑ k ∈ range p, a k * x (p + n - 1 - k) := by
    apply sum_subset (range_subset_range.mpr hq)
    intro k _ hk
    rw [ha k (not_lt.mp fun hlt => hk (mem_range.mpr hlt)), zero_mul]
  dsimp only
  rw [hplace, h n hn, ← hcut]
  apply congrArg Neg.neg
  apply sum_congr rfl
  intro k hk
  have hkq := mem_range.mp hk
  have hback : p + n - 1 - k = p - q + (q + n - 1 - k) := by omega
  rw [hback]

theorem Predicts.sub (h : Predicts a p N x) {y : ℕ → K} (hy : Predicts a p N y) :
    Predicts a p N fun i => x i - y i := by
  intro n hn
  dsimp only
  rw [h n hn, hy n hn, neg_sub_neg, ← neg_sub, ← sum_sub_distrib]
  apply congrArg Neg.neg
  apply sum_congr rfl
  intro k _
  rw [mul_sub]

theorem Predicts.mul_left (h : Predicts a p N x) (c : K) : Predicts a p N fun i => c * x i := by
  intro n hn
  dsimp only
  rw [h n hn, mul_neg, mul_sum]
  apply congrArg Neg.neg
  apply sum_congr rfl
  intro k _
  rw [mul_left_comm]

theorem Predicts.zero (h : Predicts a p N x)
    (hback : ∀ k < p, a k ≠ 0 → ∀ i ≤ k, x (p - 1 - i) = 0) {n : ℕ} (hn : n < N) :
    x (p + n) = 0 := by
  induction n using Nat.strong_induction_on with
  | _ n ih =>
      rw [h n hn, neg_eq_zero]
      apply sum_eq_zero
      intro k hk
      have hkp := mem_range.mp hk
      by_cases hak : a k = 0
      · rw [hak, zero_mul]
      · have hx : x (p + n - 1 - k) = 0 := by
          rcases Nat.lt_or_ge k n with hlt | hge
          · have hplace : p + n - 1 - k = p + (n - 1 - k) := by omega
            rw [hplace]
            exact ih (n - 1 - k) (by omega) (by omega)
          · have hplace : p + n - 1 - k = p - 1 - (k - n) := by omega
            rw [hplace]
            exact hback k hkp hak (k - n) (by omega)
        rw [hx, mul_zero]

theorem Predicts.eq_mul (h : Predicts a p N x) {y : ℕ → K} (hy : Predicts a p N y) {c : K}
    (hstart : ∀ i < p, y i = c * x i) {n : ℕ} (hn : n < N) : y (p + n) = c * x (p + n) := by
  apply sub_eq_zero.mp
  refine (hy.sub (h.mul_left c)).zero ?_ hn
  intro k hk _ i hi
  rw [hstart _ (by omega), sub_self]

end Prediction

section Domain

variable {K : Type*} [CommRing K] [NoZeroDivisors K] {a x : ℕ → K} {p N : ℕ}

/-- If only zeros come out, the last coefficient has looked back on zeros only: each place
that it reaches is the last one to count in some prediction. -/
theorem Predicts.back_zero (h : Predicts a p N x) (hN : p ≤ N) (hzero : ∀ n < N, x (p + n) = 0)
    {l : ℕ} (hl : l < p) (hal : a l ≠ 0) (hlast : ∀ k < p, l < k → a k = 0) {i : ℕ}
    (hi : i ≤ l) : x (p - 1 - i) = 0 := by
  induction i using Nat.strong_induction_on with
  | _ i ih =>
      have hsum : ∑ k ∈ range p, a k * x (p + (l - i) - 1 - k) = a l * x (p - 1 - i) := by
        have hplace : p + (l - i) - 1 - l = p - 1 - i := by omega
        rw [← hplace]
        apply sum_eq_single_of_mem l (mem_range.mpr hl)
        intro k hk hkl
        have hkp := mem_range.mp hk
        rcases Nat.lt_or_ge l k with hlt | hge
        · rw [hlast k hkp hlt, zero_mul]
        · have hx : x (p + (l - i) - 1 - k) = 0 := by
            rcases Nat.lt_or_ge k (l - i) with hnew | hold
            · have hafter : p + (l - i) - 1 - k = p + (l - i - 1 - k) := by omega
              rw [hafter]
              exact hzero _ (by omega)
            · have hbefore : p + (l - i) - 1 - k = p - 1 - (k - (l - i)) := by omega
              rw [hbefore]
              exact ih _ (by omega) (by omega)
          rw [hx, mul_zero]
      have hpredicted := h (l - i) (by omega)
      rw [hzero (l - i) (by omega), hsum] at hpredicted
      exact (mul_eq_zero.mp (neg_eq_zero.mp hpredicted.symm)).resolve_left hal

theorem Predicts.zero_iff (h : Predicts a p N x) (hN : p ≤ N) :
    (∀ n < N, x (p + n) = 0) ↔ ∀ k < p, a k ≠ 0 → ∀ i ≤ k, x (p - 1 - i) = 0 := by
  constructor
  · intro hzero k hk hak i hi
    classical
    have hkp : k ≤ p - 1 := by omega
    have hle : k ≤ Nat.findGreatest (fun j => a j ≠ 0) (p - 1) := Nat.le_findGreatest hkp hak
    have hbound := Nat.findGreatest_le (P := fun j => a j ≠ 0) (p - 1)
    apply h.back_zero hN hzero (l := Nat.findGreatest (fun j => a j ≠ 0) (p - 1)) (by omega)
    · exact Nat.findGreatest_spec (P := fun j => a j ≠ 0) hkp hak
    · intro j hj hlast
      exact not_not.mp (Nat.findGreatest_is_greatest hlast (by omega))
    · omega
  · intro hback n hn
    exact h.zero hback hn

end Domain

end Roomsync.Lib
