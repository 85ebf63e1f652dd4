import Mathlib.Algebra.BigOperators.Intervals
import Mathlib.Analysis.Complex.Basic
import Mathlib.Data.Nat.Dist
import Mathlib.Tactic.FieldSimp
import Mathlib.Tactic.LinearCombination
import Roomsync.Lib.Loop
/-!
# Linear predictors, one order at a time

A predictor of order `i + 1` is one of order `i` plus a multiple of its reversal.  With
factors below one its polynomial keeps its roots inside the unit disc; with the factor that
the error asks for, it solves one normal equation more.
-/

namespace Roomsync.Lib

open Finset

/-! ## The step -/

section Step

variable {K : Type*} [CommRing K]

/-- Coefficients of order `i + 1`, from those of order `i` and the reflection `k`. -/
def stepUp (k : K) (i : ℕ) (a : ℕ → K) (j : ℕ) : K :=
  if j < i then a j + k * a (i - 1 - j) else if j = i then k else a j

variable {k : K} {i j : ℕ} {a : ℕ → K}

theorem stepUp_of_lt (hj : j < i) : stepUp k i a j = a j + k * a (i - 1 - j) := if_pos hj

theorem stepUp_self : stepUp k i a i = k := by
  unfold stepUp
  rw [if_neg (Nat.lt_irrefl i), if_pos rfl]

theorem stepUp_of_gt (hj : i < j) : stepUp k i a j = a j := by
  unfold stepUp
  rw [if_neg (by omega), if_neg (by omega)]

theorem stepUp_zero (ha : a i = 0) : stepUp 0 i a = a := by
  ext j
  rcases Nat.lt_trichotomy j i with hlt | rfl | hgt
  · rw [stepUp_of_lt hlt, zero_mul, add_zero]
  · rw [stepUp_self, ha]
  · exact stepUp_of_gt hgt

theorem sum_mul_congr (a : ℕ → K) {f g : ℕ → K} {i : ℕ} (h : ∀ j < i, f j = g j) :
    ∑ j ∈ range i, a j * f j = ∑ j ∈ range i, a j * g j := by
  apply sum_congr rfl
  intro j hj
  rw [h j (mem_range.mp hj)]

theorem sum_stepUp (k : K) (i : ℕ) (a f : ℕ → K) :
    ∑ j ∈ range (i + 1), stepUp k i a j * f j =
      ∑ j ∈ range i, a j * f j + k * (∑ j ∈ range i, a j * f (i - 1 - j) + f i) := by
  have hlower : ∑ j ∈ range i, stepUp k i a j * f j =
      ∑ j ∈ range i, a j * f j + k * ∑ j ∈ range i, a (i - 1 - j) * f j := by
    rw [mul_sum, ← sum_add_distrib]
    apply sum_congr rfl
    intro j hj
    rw [stepUp_of_lt (mem_range.mp hj)]
    ring
  have hreflect : ∑ j ∈ range i, a (i - 1 - j) * f j = ∑ j ∈ range i, a j * f (i - 1 - j) := by
    rw [← sum_range_reflect]
    apply sum_congr rfl
    intro j hj
    have hback : i - 1 - (i - 1 - j) = j := by
      have hlt := mem_range.mp hj
      omega
    rw [hback]
  rw [sum_range_succ, hlower, hreflect, stepUp_self]
  ring

end Step

/-! ## The polynomial -/

section Polynomial

variable {K : Type*} [CommRing K]

/-- `z ^ i + a 0 * z ^ (i - 1) + … + a (i - 1)`. -/
def predictorPoly (a : ℕ → K) (i : ℕ) (z : K) : K :=
  z ^ i + ∑ j ∈ range i, a j * z ^ (i - 1 - j)

def reversedPoly (a : ℕ → K) (i : ℕ) (z : K) : K := 1 + ∑ j ∈ range i, a j * z ^ (j + 1)

theorem predictorPoly_stepUp (k : K) (i : ℕ) (a : ℕ → K) (z : K) :
    predictorPoly (stepUp k i a) (i + 1) z =
      z * predictorPoly a i z + k * reversedPoly a i z := by
  have hshift : ∑ j ∈ range i, a j * z ^ (i + 1 - 1 - j) =
      z * ∑ j ∈ range i, a j * z ^ (i - 1 - j) := by
    rw [mul_sum]
    apply sum_congr rfl
    intro j hj
    have hpower : i + 1 - 1 - j = i - 1 - j + 1 := by
      have hlt := mem_range.mp hj
      omega
    rw [hpower, pow_succ]
    ring
  have hreverse : ∑ j ∈ range i, a j * z ^ (i + 1 - 1 - (i - 1 - j)) =
      ∑ j ∈ range i, a j * z ^ (j + 1) := by
    apply sum_mul_congr
    intro j hj
    have hpower : i + 1 - 1 - (i - 1 - j) = j + 1 := by omega
    rw [hpower]
  unfold predictorPoly reversedPoly
  rw [sum_stepUp, hshift, hreverse, Nat.add_sub_cancel, Nat.sub_self]
  ring

theorem reversedPoly_stepUp (k : K) (i : ℕ) (a : ℕ → K) (z : K) :
    reversedPoly (stepUp k i a) (i + 1) z =
      reversedPoly a i z + k * (z * predictorPoly a i z) := by
  have hshift : ∑ j ∈ range i, a j * z ^ (i - 1 - j + 1) =
      z * ∑ j ∈ range i, a j * z ^ (i - 1 - j) := by
    rw [mul_sum]
    apply sum_congr rfl
    intro j _
    ring
  unfold predictorPoly reversedPoly
  rw [sum_stepUp k i a fun j => z ^ (j + 1), hshift]
  ring

end Polynomial

/-! ## Stability -/

section Stability

open Complex

/-- Outside the unit disc, and on its border, the polynomial is not zero and dominates its
reversal. -/
def Dominates (a : ℕ → ℝ) (i : ℕ) : Prop :=
  ∀ z : ℂ, 1 ≤ ‖z‖ → predictorPoly (fun j => (a j : ℂ)) i z ≠ 0 ∧
    ‖reversedPoly (fun j => (a j : ℂ)) i z‖ ≤ ‖predictorPoly (fun j => (a j : ℂ)) i z‖

theorem dominates_zero (a : ℕ → ℝ) : Dominates a 0 := by
  intro z _
  unfold predictorPoly reversedPoly
  simp

theorem ofReal_stepUp (k : ℝ) (i : ℕ) (a : ℕ → ℝ) :
    (fun j => ((stepUp k i a j : ℝ) : ℂ)) = stepUp (k : ℂ) i fun j => (a j : ℂ) := by
  ext j
  unfold stepUp
  split
  · push_cast
    rfl
  · split <;> rfl

theorem normSq_reflect (k : ℝ) (v w : ℂ) :
    normSq (v + k * w) - normSq (w + k * v) = (1 - k ^ 2) * (normSq v - normSq w) := by
  simp only [normSq_apply, add_re, add_im, re_ofReal_mul, im_ofReal_mul]
  ring

theorem Dominates.stepUp {a : ℕ → ℝ} {i : ℕ} (ha : Dominates a i) {k : ℝ} (hk : |k| < 1) :
    Dominates (stepUp k i a) (i + 1) := by
  intro z hz
  obtain ⟨hne, hle⟩ := ha z hz
  rw [ofReal_stepUp, predictorPoly_stepUp, reversedPoly_stepUp]
  generalize reversedPoly (fun j => (a j : ℂ)) i z = w at hle
  generalize hv : z * predictorPoly (fun j => (a j : ℂ)) i z = v
  have hfar : ‖w‖ ≤ ‖v‖ := by
    rw [← hv, norm_mul]
    exact hle.trans (le_mul_of_one_le_left (norm_nonneg _) hz)
  have hpos : 0 < ‖v‖ := by
    rw [← hv, norm_pos_iff]
    have hz0 : z ≠ 0 := by
      rw [← norm_pos_iff]
      linarith
    exact mul_ne_zero hz0 hne
  constructor
  · intro hzero
    have heq : ‖v‖ = |k| * ‖w‖ := by
      rw [eq_neg_of_add_eq_zero_left hzero, norm_neg, norm_mul, norm_real, Real.norm_eq_abs]
    have hlt : |k| * ‖w‖ < ‖v‖ :=
      calc |k| * ‖w‖ ≤ |k| * ‖v‖ := mul_le_mul_of_nonneg_left hfar (abs_nonneg k)
        _ < ‖v‖ := mul_lt_of_lt_one_left hpos hk
    exact absurd heq hlt.ne'
  · have hsquares : 0 ≤ normSq v - normSq w := by
      rw [normSq_eq_norm_sq, normSq_eq_norm_sq, sub_nonneg]
      exact pow_le_pow_left₀ (norm_nonneg w) hfar 2
    have hgap : 0 ≤ (1 - k ^ 2) * (normSq v - normSq w) := by
      apply mul_nonneg _ hsquares
      rw [sub_nonneg, ← sq_abs]
      exact pow_le_one₀ (abs_nonneg k) hk.le
    rw [← normSq_reflect, normSq_eq_norm_sq, normSq_eq_norm_sq, sub_nonneg] at hgap
    exact le_of_sq_le_sq hgap (norm_nonneg _)

theorem Dominates.norm_lt_one {a : ℕ → ℝ} {i : ℕ} (ha : Dominates a i) {z : ℂ}
    (hz : predictorPoly (fun j => (a j : ℂ)) i z = 0) : ‖z‖ < 1 := by
  by_contra hfar
  exact (ha z (not_lt.mp hfar)).1 hz

end Stability

/-! ## The normal equations -/

section Normal

variable {K : Type*} [Field K]

/-- The coefficients of order `i` predict lags `1` to `i` of `R`, and `err` is what is left. -/
structure SolvesNormal (R : ℕ → K) (a : ℕ → K) (i : ℕ) (err : K) : Prop where
  equations : ∀ m < i, ∑ j ∈ range i, a j * R (m.dist j) = -R (m + 1)
  error : err = R 0 + ∑ j ∈ range i, a j * R (j + 1)

theorem solvesNormal_zero (R a : ℕ → K) : SolvesNormal R a 0 (R 0) where
  equations := by
    intro m hm
    exact absurd hm (Nat.not_lt_zero m)
  error := by
    rw [sum_range_zero, add_zero]

def lagResidual (R a : ℕ → K) (i : ℕ) : K := R (i + 1) + ∑ j ∈ range i, a j * R (i - j)

def reflectionOf (R a : ℕ → K) (i : ℕ) (err : K) : K := -lagResidual R a i / err

/-- Read backwards, the coefficients solve the equations in the other order. -/
theorem SolvesNormal.mirrored {R a : ℕ → K} {i : ℕ} {err : K} (h : SolvesNormal R a i err)
    {m : ℕ} (hm : m < i) : ∑ j ∈ range i, a j * R (m.dist (i - 1 - j)) = -R (m.dist i) := by
  have heq := h.equations (i - 1 - m) (by omega)
  have hlag : m.dist i = i - 1 - m + 1 := by
    unfold Nat.dist
    omega
  rw [hlag, ← heq]
  apply sum_mul_congr
  intro j hj
  have hdist : m.dist (i - 1 - j) = (i - 1 - m).dist j := by
    unfold Nat.dist
    omega
  rw [hdist]

/-- The step with that reflection solves one equation more. -/
theorem SolvesNormal.stepUp {R a : ℕ → K} {i : ℕ} {err k : K} (h : SolvesNormal R a i err)
    (herr : err ≠ 0) (hk : k = reflectionOf R a i err) :
    SolvesNormal R (stepUp k i a) (i + 1) (err * (1 - k * k)) := by
  have hlast : k * err = -(R (i + 1) + ∑ j ∈ range i, a j * R (i - j)) := by
    rw [hk, reflectionOf, lagResidual, div_mul_cancel₀ _ herr]
  constructor
  · intro m hm
    rw [sum_stepUp k i a fun j => R (m.dist j)]
    rcases Nat.lt_succ_iff_lt_or_eq.mp hm with hlt | rfl
    · rw [h.equations m hlt, h.mirrored hlt]
      ring
    · have hlow : ∑ j ∈ range m, a j * R (m.dist j) = ∑ j ∈ range m, a j * R (m - j) := by
        apply sum_mul_congr
        intro j hj
        rw [Nat.dist_eq_sub_of_le_right hj.le]
      have hmirror : ∑ j ∈ range m, a j * R (m.dist (m - 1 - j)) =
          ∑ j ∈ range m, a j * R (j + 1) := by
        apply sum_mul_congr
        intro j hj
        have hdist : m.dist (m - 1 - j) = j + 1 := by
          unfold Nat.dist
          omega
        rw [hdist]
      rw [hlow, hmirror, Nat.dist_self]
      linear_combination hlast + k * (-h.error)
  · have hmirror : ∑ j ∈ range i, a j * R (i - 1 - j + 1) = ∑ j ∈ range i, a j * R (i - j) := by
      apply sum_mul_congr
      intro j hj
      have hlag : i - 1 - j + 1 = i - j := by omega
      rw [hlag]
    rw [sum_stepUp k i a fun j => R (j + 1), hmirror]
    linear_combination h.error - k * hlast

end Normal

/-! ## The recursion

It goes from order to order, with reflections that are clamped, while the error is above a
threshold.
-/

section Recursion

noncomputable section

variable (clamp : ℝ → ℝ) (ε : ℝ) (R : ℕ → ℝ)

def durbinStep (i : ℕ) (s : ℝ × (ℕ → ℝ)) : (ℝ × (ℕ → ℝ)) × Bool :=
  let k := clamp (reflectionOf R s.2 i s.1)
  let err := s.1 * (1 - k * k)
  ((err, stepUp k i s.2), !decide (err ≤ ε))

/-- The error and the coefficients of order `n`, or of the order that it stopped at. -/
def durbin (n : ℕ) : (ℝ × (ℕ → ℝ)) × Bool :=
  passes (durbinStep clamp ε R) ((R 0, fun _ => 0), !decide (R 0 < ε)) n

variable {clamp : ℝ → ℝ} {ε : ℝ} {R : ℕ → ℝ} {n : ℕ}

theorem durbin_succ_of_true (h : (durbin clamp ε R n).2 = true) :
    durbin clamp ε R (n + 1) = durbinStep clamp ε R n (durbin clamp ε R n).1 :=
  passes_succ_of_true h

theorem durbin_succ_of_false (h : (durbin clamp ε R n).2 = false) :
    durbin clamp ε R (n + 1) = durbin clamp ε R n :=
  passes_succ_of_false h

theorem durbin_coeff_of_le {j : ℕ} (hj : n ≤ j) : (durbin clamp ε R n).1.2 j = 0 := by
  induction n with
  | zero => rfl
  | succ n ih =>
      cases hgo : (durbin clamp ε R n).2 with
      | false =>
          rw [durbin_succ_of_false hgo]
          exact ih (by omega)
      | true =>
          rw [durbin_succ_of_true hgo]
          exact (stepUp_of_gt (by omega)).trans (ih (by omega))

theorem durbin_goes_on_iff : (durbin clamp ε R n).2 = true ↔
    ε < (durbin clamp ε R n).1.1 ∨ n = 0 ∧ (durbin clamp ε R n).1.1 = ε := by
  induction n with
  | zero =>
      have hflag : (durbin clamp ε R 0).2 = !decide (R 0 < ε) := rfl
      have herr : (durbin clamp ε R 0).1.1 = R 0 := rfl
      rw [hflag, herr, Bool.not_eq_true', decide_eq_false_iff_not, not_lt, le_iff_lt_or_eq,
        eq_comm (a := ε)]
      simp
  | succ n ih =>
      cases hgo : (durbin clamp ε R n).2 with
      | false =>
          rw [hgo] at ih
          have hstopped := (not_iff_not.mpr ih).mp Bool.false_ne_true
          rw [durbin_succ_of_false hgo, hgo]
          simp only [Bool.false_eq_true, Nat.add_eq_zero_iff, one_ne_zero, and_false, false_and,
            or_false, false_iff]
          exact fun h => hstopped (Or.inl h)
      | true =>
          rw [durbin_succ_of_true hgo]
          simp [durbinStep]

theorem dominates_durbin (hclamp : ∀ k, |clamp k| < 1) : Dominates (durbin clamp ε R n).1.2 n := by
  induction n with
  | zero => exact dominates_zero _
  | succ n ih =>
      cases hgo : (durbin clamp ε R n).2 with
      | false =>
          have hzero := ih.stepUp (k := 0) (by rw [abs_zero]; exact one_pos)
          rw [stepUp_zero (durbin_coeff_of_le le_rfl)] at hzero
          rw [durbin_succ_of_false hgo]
          exact hzero
      | true =>
          rw [durbin_succ_of_true hgo]
          exact ih.stepUp (hclamp _)

/-- The clamp leaves the reflections of the orders up to `n` that the recursion gets to. -/
def Unclamped (clamp : ℝ → ℝ) (ε : ℝ) (R : ℕ → ℝ) (n : ℕ) : Prop :=
  ∀ i < n, (durbin clamp ε R i).2 = true →
    clamp (reflectionOf R (durbin clamp ε R i).1.2 i (durbin clamp ε R i).1.1) =
      reflectionOf R (durbin clamp ε R i).1.2 i (durbin clamp ε R i).1.1

/-- Some lag from `z` on, up to lag `n`, is not what the predictor of order `z` makes of the
ones before, and the recursion gets there. -/
def Surprises (clamp : ℝ → ℝ) (ε : ℝ) (R : ℕ → ℝ) (z n : ℕ) : Prop :=
  ∃ i, z ≤ i ∧ i < n ∧ lagResidual R (durbin clamp ε R z).1.2 i ≠ 0 ∧
    (ε < (durbin clamp ε R z).1.1 ∨ i = 0 ∧ (durbin clamp ε R z).1.1 = ε)

theorem surprises_succ_iff {z : ℕ} (hz : z ≤ n)
    (hsame : (durbin clamp ε R n).1 = (durbin clamp ε R z).1) :
    Surprises clamp ε R z (n + 1) ↔ Surprises clamp ε R z n ∨
      lagResidual R (durbin clamp ε R n).1.2 n ≠ 0 ∧ (durbin clamp ε R n).2 = true := by
  unfold Surprises
  rw [durbin_goes_on_iff, hsame]
  constructor
  · rintro ⟨i, hzi, hin, hnew⟩
    rcases Nat.lt_succ_iff_lt_or_eq.mp hin with hlt | rfl
    · exact Or.inl ⟨i, hzi, hlt, hnew⟩
    · exact Or.inr hnew
  · rintro (⟨i, hzi, hin, hnew⟩ | hnew)
    · exact ⟨i, hzi, by omega, hnew⟩
    · exact ⟨n, hz, Nat.lt_succ_self n, hnew⟩

theorem durbin_coeff_behind {z : ℕ} (hz : z ≤ n)
    (h : ∃ j, z ≤ j ∧ (durbin clamp ε R n).1.2 j ≠ 0) :
    ∃ j, z ≤ j ∧ (durbin clamp ε R (n + 1)).1.2 j ≠ 0 := by
  cases hgo : (durbin clamp ε R n).2 with
  | false =>
      rw [durbin_succ_of_false hgo]
      exact h
  | true =>
      rw [durbin_succ_of_true hgo]
      dsimp only [durbinStep]
      generalize clamp (reflectionOf R (durbin clamp ε R n).1.2 n (durbin clamp ε R n).1.1) = k
      by_cases hk : k = 0
      · rw [hk, stepUp_zero (durbin_coeff_of_le le_rfl)]
        exact h
      · refine ⟨n, hz, ?_⟩
        rw [stepUp_self]
        exact hk

theorem durbin_err_pos_of_true (hε : 0 < ε) (hgo : (durbin clamp ε R n).2 = true) :
    0 < (durbin clamp ε R n).1.1 := by
  rcases durbin_goes_on_iff.mp hgo with hgt | ⟨-, heq⟩
  · exact hε.trans hgt
  · rw [heq]
    exact hε

theorem Unclamped.solvesNormal (h : Unclamped clamp ε R n) (hclamp : ∀ k, |clamp k| < 1)
    (hε : 0 < ε) (hR : 0 ≤ R 0) :
    ∃ q ≤ n, SolvesNormal R (durbin clamp ε R n).1.2 q (durbin clamp ε R n).1.1 ∧
      (∀ j, q ≤ j → (durbin clamp ε R n).1.2 j = 0) ∧ 0 ≤ (durbin clamp ε R n).1.1 ∧
      (q = n ∨ (durbin clamp ε R n).1.1 ≤ ε) := by
  induction n with
  | zero => exact ⟨0, le_rfl, solvesNormal_zero R _, fun _ _ => rfl, hR, Or.inl rfl⟩
  | succ n ih =>
      obtain ⟨q, hq, hsolves, hzero, herr, hstop⟩ := ih fun i hi => h i (by omega)
      cases hgo : (durbin clamp ε R n).2 with
      | false =>
          rw [durbin_succ_of_false hgo]
          refine ⟨q, by omega, hsolves, hzero, herr, Or.inr ?_⟩
          by_contra hgt
          have htrue := durbin_goes_on_iff.mpr (Or.inl (not_le.mp hgt))
          exact Bool.false_ne_true (hgo.symm.trans htrue)
      | true =>
          have hqn : q = n := by
            rcases hstop with hqn | hle
            · exact hqn
            · rcases durbin_goes_on_iff.mp hgo with hgt | ⟨hn, -⟩
              · exact absurd hgt (not_lt.mpr hle)
              · omega
          subst hqn
          have hpos := durbin_err_pos_of_true hε hgo
          have hsquare := (sq_lt_one_iff_abs_lt_one _).mpr (hclamp (reflectionOf R
            (durbin clamp ε R q).1.2 q (durbin clamp ε R q).1.1))
          rw [durbin_succ_of_true hgo]
          refine ⟨q + 1, le_rfl, hsolves.stepUp hpos.ne' (h q (Nat.lt_succ_self q) hgo), ?_, ?_,
            Or.inl rfl⟩
          · intro j hj
            dsimp only [durbinStep]
            rw [stepUp_of_gt (by omega)]
            exact hzero j (by omega)
          · dsimp only [durbinStep]
            rw [← sq]
            exact mul_nonneg herr (sub_nonneg.mpr hsquare.le)

/-- An order that the recursion gets to adds a coefficient exactly if it finds its lag
unpredicted. -/
theorem clamp_reflection_eq_zero_iff (hclamp : ∀ k, clamp k = 0 ↔ k = 0) (hε : 0 < ε)
    (hgo : (durbin clamp ε R n).2 = true) :
    clamp (reflectionOf R (durbin clamp ε R n).1.2 n (durbin clamp ε R n).1.1) = 0 ↔
      lagResidual R (durbin clamp ε R n).1.2 n = 0 := by
  have herr := (durbin_err_pos_of_true hε hgo).ne'
  rw [hclamp, reflectionOf, div_eq_zero_iff, neg_eq_zero, or_iff_left herr]

theorem durbin_succ_of_lagResidual_eq_zero (hclamp : ∀ k, clamp k = 0 ↔ k = 0) (hε : 0 < ε)
    (hgo : (durbin clamp ε R n).2 = true)
    (hlag : lagResidual R (durbin clamp ε R n).1.2 n = 0) :
    (durbin clamp ε R (n + 1)).1 = (durbin clamp ε R n).1 := by
  rw [durbin_succ_of_true hgo]
  dsimp only [durbinStep]
  rw [(clamp_reflection_eq_zero_iff hclamp hε hgo).mpr hlag,
    stepUp_zero (durbin_coeff_of_le le_rfl), mul_zero, sub_zero, mul_one]

theorem durbin_succ_coeff_of_lagResidual_ne_zero (hclamp : ∀ k, clamp k = 0 ↔ k = 0)
    (hε : 0 < ε) (hgo : (durbin clamp ε R n).2 = true)
    (hlag : lagResidual R (durbin clamp ε R n).1.2 n ≠ 0) :
    (durbin clamp ε R (n + 1)).1.2 n ≠ 0 := by
  rw [durbin_succ_of_true hgo]
  dsimp only [durbinStep]
  rw [stepUp_self]
  exact fun h => hlag ((clamp_reflection_eq_zero_iff hclamp hε hgo).mp h)

/-- Until it meets such a lag, the recursion stays with the predictor of order `z`; from then
on it keeps a coefficient behind that order. -/
theorem durbin_from (hclamp : ∀ k, clamp k = 0 ↔ k = 0) (hε : 0 < ε) {z : ℕ} (hz : z ≤ n) :
    (Surprises clamp ε R z n ∧ ∃ j, z ≤ j ∧ (durbin clamp ε R n).1.2 j ≠ 0) ∨
      (¬ Surprises clamp ε R z n ∧ (durbin clamp ε R n).1 = (durbin clamp ε R z).1) := by
  induction n, hz using Nat.le_induction with
  | base =>
      refine Or.inr ⟨?_, rfl⟩
      rintro ⟨i, hzi, hiz, -⟩
      omega
  | succ n hzn ih =>
      rcases ih with ⟨⟨i, hzi, hin, hnew⟩, hbehind⟩ | ⟨hquiet, hsame⟩
      · exact Or.inl ⟨⟨i, hzi, by omega, hnew⟩, durbin_coeff_behind hzn hbehind⟩
      · rw [surprises_succ_iff hzn hsame]
        cases hgo : (durbin clamp ε R n).2 with
        | false =>
            rw [durbin_succ_of_false hgo]
            refine Or.inr ⟨?_, hsame⟩
            rintro (hold | ⟨-, htrue⟩)
            · exact hquiet hold
            · exact Bool.false_ne_true htrue
        | true =>
            by_cases hlag : lagResidual R (durbin clamp ε R n).1.2 n = 0
            · refine Or.inr ⟨?_, ?_⟩
              · rintro (hold | ⟨hne, -⟩)
                · exact hquiet hold
                · exact hne hlag
              · rw [durbin_succ_of_lagResidual_eq_zero hclamp hε hgo hlag]
                exact hsame
            · refine Or.inl ⟨Or.inr ⟨hlag, rfl⟩, n, hzn, ?_⟩
              exact durbin_succ_coeff_of_lagResidual_ne_zero hclamp hε hgo hlag

/-- The predictor of order `n` looks back beyond `z` samples exactly if the lags surprise the
one of order `z`. -/
theorem durbin_coeff_ne_zero_iff (hclamp : ∀ k, clamp k = 0 ↔ k = 0) (hε : 0 < ε) {z : ℕ}
    (hz : z ≤ n) :
    (∃ j, z ≤ j ∧ (durbin clamp ε R n).1.2 j ≠ 0) ↔ Surprises clamp ε R z n := by
  rcases durbin_from hclamp hε hz with ⟨hsurprise, hbehind⟩ | ⟨hquiet, hsame⟩
  · exact iff_of_true hbehind hsurprise
  · refine iff_of_false ?_ hquiet
    rintro ⟨j, hj, hne⟩
    rw [hsame] at hne
    exact hne (durbin_coeff_of_le hj)

end

end Recursion

end Roomsync.Lib
