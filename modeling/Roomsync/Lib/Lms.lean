import Mathlib.Algebra.BigOperators.Ring.Finset
import Mathlib.Algebra.Order.BigOperators.Group.Finset
import Mathlib.Algebra.Order.Ring.Defs
import Mathlib.Data.Fintype.BigOperators
import Mathlib.Tactic.Linarith
import Mathlib.Tactic.Ring
/-!
# Adaptive filters

A filter of `taps` weights predicts each sample of a signal from as many values, and
moves its weights along these by its error.  Where the signal is the answer of a fixed
filter to the same values, the way to that filter gets shorter by what the error and the
energy of the values say.
-/

namespace Roomsync.Lib

open Finset

section Filter

variable {R : Type*} [CommRing R] {taps : ℕ}

def filterOutput (w x : Fin taps → R) : R := ∑ k, w k * x k

def lmsError (w x : Fin taps → R) (d : R) : R := d - filterOutput w x

def lmsUpdate (μ e : R) (w x : Fin taps → R) : Fin taps → R := fun k => w k + μ * e * x k

/-- The weights before sample `n` of a block, of values `x` and signal `d`. -/
def lmsWeights (μ : R) (x : ℕ → Fin taps → R) (d : ℕ → R) (w : Fin taps → R) :
    ℕ → Fin taps → R
  | 0 => w
  | n + 1 =>
      let w' := lmsWeights μ x d w n
      lmsUpdate μ (lmsError w' (x n) (d n)) w' (x n)

def lmsErrors (μ : R) (x : ℕ → Fin taps → R) (d : ℕ → R) (w : Fin taps → R) (n : ℕ) : R :=
  lmsError (lmsWeights μ x d w n) (x n) (d n)

def sqDistance (w h : Fin taps → R) : R := ∑ k, (w k - h k) ^ 2

/-- A filter that adapts to the answer of `h` errs by the answer of what it lacks. -/
theorem lmsError_filterOutput (w h x : Fin taps → R) :
    lmsError w x (filterOutput h x) = -∑ k, (w k - h k) * x k := by
  unfold lmsError filterOutput
  rw [← sum_sub_distrib, ← sum_neg_distrib]
  apply sum_congr rfl
  intro k _
  ring

theorem lmsError_zero (x : Fin taps → R) (d : R) : lmsError (fun _ => 0) x d = d := by
  unfold lmsError filterOutput
  rw [sum_eq_zero fun k _ => zero_mul (x k), sub_zero]

theorem lmsUpdate_zero (μ : R) (w x : Fin taps → R) : lmsUpdate μ 0 w x = w := by
  ext k
  unfold lmsUpdate
  ring

theorem lms_silent (μ : R) (x : ℕ → Fin taps → R) {d : ℕ → R} {size : ℕ}
    (hd : ∀ n < size, d n = 0) :
    lmsWeights μ x d (fun _ => 0) size = (fun _ => 0) ∧
      ∀ n < size, lmsErrors μ x d (fun _ => 0) n = 0 := by
  induction size with
  | zero => exact ⟨rfl, fun n hn => absurd hn (Nat.not_lt_zero n)⟩
  | succ size ih =>
      obtain ⟨hweights, herrors⟩ := ih fun n hn => hd n (by omega)
      have hlast : lmsErrors μ x d (fun _ => 0) size = 0 := by
        unfold lmsErrors
        rw [hweights, lmsError_zero, hd size (by omega)]
      refine ⟨?_, fun n hn => ?_⟩
      · change lmsUpdate μ (lmsErrors μ x d (fun _ => 0) size)
          (lmsWeights μ x d (fun _ => 0) size) (x size) = _
        rw [hlast, lmsUpdate_zero, hweights]
      · rcases Nat.lt_succ_iff_lt_or_eq.mp hn with hlt | rfl
        · exact herrors n hlt
        · exact hlast

theorem lms_unheard (μ : R) {x : ℕ → Fin taps → R} (d : ℕ → R) (w : Fin taps → R) {size : ℕ}
    (hx : ∀ n < size, ∀ k, x n k = 0) :
    lmsWeights μ x d w size = w ∧ ∀ n < size, lmsErrors μ x d w n = d n := by
  have houtput : ∀ w, ∀ n < size, filterOutput w (x n) = 0 := by
    intro w n hn
    exact sum_eq_zero fun k _ => by rw [hx n hn k, mul_zero]
  have hweights : ∀ n ≤ size, lmsWeights μ x d w n = w := by
    intro n hn
    induction n with
    | zero => rfl
    | succ n ih =>
        ext k
        change lmsWeights μ x d w n k + μ * lmsErrors μ x d w n * x n k = w k
        rw [ih (by omega), hx n hn k, mul_zero, add_zero]
  refine ⟨hweights size le_rfl, ?_⟩
  intro n hn
  unfold lmsErrors lmsError
  rw [houtput _ n hn, sub_zero]

theorem sqDistance_lmsUpdate (μ : R) (w h x : Fin taps → R) {e : R}
    (he : e = lmsError w x (filterOutput h x)) :
    sqDistance (lmsUpdate μ e w x) h =
      sqDistance w h - μ * e ^ 2 * (2 - μ * ∑ k, x k ^ 2) := by
  have hlack : ∑ k, (w k - h k) * x k = -e := by
    rw [he, lmsError_filterOutput, neg_neg]
  have hterm : ∀ k, (lmsUpdate μ e w x k - h k) ^ 2 =
      (w k - h k) ^ 2 + 2 * μ * e * ((w k - h k) * x k) + (μ * e) ^ 2 * x k ^ 2 := by
    intro k
    unfold lmsUpdate
    ring
  calc sqDistance (lmsUpdate μ e w x) h
      = ∑ k, (w k - h k) ^ 2 + 2 * μ * e * ∑ k, (w k - h k) * x k +
          (μ * e) ^ 2 * ∑ k, x k ^ 2 := by
        unfold sqDistance
        rw [sum_congr rfl fun k _ => hterm k, sum_add_distrib, sum_add_distrib, ← mul_sum,
          ← mul_sum]
    _ = sqDistance w h - μ * e ^ 2 * (2 - μ * ∑ k, x k ^ 2) := by
        rw [hlack, sqDistance]
        ring

theorem sqDistance_lmsUpdate_add (μ : R) (w h x : Fin taps → R) {d e v : R}
    (he : e = lmsError w x d) (hv : v = d - filterOutput h x) :
    sqDistance (lmsUpdate μ e w x) h + μ * (e - v) ^ 2 =
      sqDistance w h + μ * v ^ 2 - μ * e ^ 2 * (1 - μ * ∑ k, x k ^ 2) := by
  have hlack : ∑ k, (w k - h k) * x k = v - e := by
    have hsplit : ∑ k, (w k - h k) * x k = filterOutput w x - filterOutput h x := by
      unfold filterOutput
      rw [← sum_sub_distrib]
      apply sum_congr rfl
      intro k _
      ring
    rw [hsplit, he, hv, lmsError]
    ring
  have hterm : ∀ k, (lmsUpdate μ e w x k - h k) ^ 2 =
      (w k - h k) ^ 2 + 2 * μ * e * ((w k - h k) * x k) + (μ * e) ^ 2 * x k ^ 2 := by
    intro k
    unfold lmsUpdate
    ring
  have hexpand : sqDistance (lmsUpdate μ e w x) h = ∑ k, (w k - h k) ^ 2 +
      2 * μ * e * ∑ k, (w k - h k) * x k + (μ * e) ^ 2 * ∑ k, x k ^ 2 := by
    unfold sqDistance
    rw [sum_congr rfl fun k _ => hterm k, sum_add_distrib, sum_add_distrib, ← mul_sum, ← mul_sum]
  rw [hexpand, hlack, sqDistance]
  ring

/-! ### Linearity -/

theorem filterOutput_combination (a b : R) (w w' x : Fin taps → R) :
    filterOutput (fun k => a * w k + b * w' k) x =
      a * filterOutput w x + b * filterOutput w' x := by
  unfold filterOutput
  rw [mul_sum, mul_sum, ← sum_add_distrib]
  apply sum_congr rfl
  intro k _
  ring

theorem lmsWeights_combination (μ a b : R) (x : ℕ → Fin taps → R) (d d' : ℕ → R)
    (w w' : Fin taps → R) (n : ℕ) :
    lmsWeights μ x (fun n => a * d n + b * d' n) (fun k => a * w k + b * w' k) n =
      fun k => a * lmsWeights μ x d w n k + b * lmsWeights μ x d' w' n k := by
  induction n with
  | zero => rfl
  | succ n ih =>
      ext k
      simp only [lmsWeights, ih, lmsUpdate, lmsError, filterOutput_combination]
      ring

theorem lmsErrors_combination (μ a b : R) (x : ℕ → Fin taps → R) (d d' : ℕ → R)
    (w w' : Fin taps → R) (n : ℕ) :
    lmsErrors μ x (fun n => a * d n + b * d' n) (fun k => a * w k + b * w' k) n =
      a * lmsErrors μ x d w n + b * lmsErrors μ x d' w' n := by
  unfold lmsErrors lmsError
  rw [lmsWeights_combination, filterOutput_combination]
  ring

theorem lmsWeights_turned (μ : R) {c : R} (hc : c * c = 1) (x : ℕ → Fin taps → R) (d : ℕ → R)
    (w : Fin taps → R) (n : ℕ) :
    lmsWeights μ (fun n k => c * x n k) d (fun k => c * w k) n =
      (fun k => c * lmsWeights μ x d w n k) ∧
    lmsErrors μ (fun n k => c * x n k) d (fun k => c * w k) n = lmsErrors μ x d w n := by
  have houtput : ∀ (w : Fin taps → R) n,
      filterOutput (fun k => c * w k) (fun k => c * x n k) = filterOutput w (x n) := by
    intro w n
    unfold filterOutput
    apply sum_congr rfl
    intro k _
    rw [mul_mul_mul_comm, hc, one_mul]
  have herror : ∀ n, lmsWeights μ (fun n k => c * x n k) d (fun k => c * w k) n =
      (fun k => c * lmsWeights μ x d w n k) →
      lmsErrors μ (fun n k => c * x n k) d (fun k => c * w k) n = lmsErrors μ x d w n := by
    intro n hweights
    unfold lmsErrors lmsError
    rw [hweights, houtput]
  have hweights : lmsWeights μ (fun n k => c * x n k) d (fun k => c * w k) n =
      fun k => c * lmsWeights μ x d w n k := by
    induction n with
    | zero => rfl
    | succ n ih =>
        have hnext := herror n ih
        ext k
        change lmsUpdate μ (lmsErrors μ (fun n k => c * x n k) d (fun k => c * w k) n)
          (lmsWeights μ (fun n k => c * x n k) d (fun k => c * w k) n) (fun k => c * x n k) k = _
        rw [hnext, ih]
        simp only [lmsUpdate, lmsWeights]
        unfold lmsErrors
        ring
  exact ⟨hweights, herror n hweights⟩

end Filter

section Order

variable {R : Type*} [CommRing R] [LinearOrder R] [IsStrictOrderedRing R] {taps : ℕ}

theorem sqDistance_lmsWeights_le {μ : R} (hμ : 0 ≤ μ) {x : ℕ → Fin taps → R} {d : ℕ → R}
    {h : Fin taps → R} {size : ℕ} (hd : ∀ n < size, d n = filterOutput h (x n))
    (hstep : ∀ n < size, μ * ∑ k, x n k ^ 2 ≤ 2) (w : Fin taps → R) :
    sqDistance (lmsWeights μ x d w size) h ≤ sqDistance w h := by
  induction size with
  | zero => exact le_rfl
  | succ size ih =>
      have hbefore := ih (fun n hn => hd n (by omega)) fun n hn => hstep n (by omega)
      have hgain : 0 ≤ μ * lmsErrors μ x d w size ^ 2 * (2 - μ * ∑ k, x size k ^ 2) :=
        mul_nonneg (mul_nonneg hμ (sq_nonneg _)) (sub_nonneg.mpr (hstep size (by omega)))
      have hnext := sqDistance_lmsUpdate μ (lmsWeights μ x d w size) h (x size)
        (e := lmsErrors μ x d w size) (by rw [lmsErrors, hd size (by omega)])
      calc sqDistance (lmsWeights μ x d w (size + 1)) h
          = sqDistance (lmsWeights μ x d w size) h -
              μ * lmsErrors μ x d w size ^ 2 * (2 - μ * ∑ k, x size k ^ 2) := hnext
        _ ≤ sqDistance (lmsWeights μ x d w size) h := sub_le_self _ hgain
        _ ≤ sqDistance w h := hbefore

/-- With steps of at most the inverse energy, a block leaves no more of the answer of `h` in the
errors than the filter gets closer to it, and than what else there is in the signal. -/
theorem sum_sq_lmsErrors_sub_le {μ : R} (hμ : 0 ≤ μ) {x : ℕ → Fin taps → R} {d v : ℕ → R}
    {h : Fin taps → R} (size : ℕ) (hv : ∀ n < size, v n = d n - filterOutput h (x n))
    (hstep : ∀ n < size, μ * ∑ k, x n k ^ 2 ≤ 1) (w : Fin taps → R) :
    μ * ∑ n ∈ range size, (lmsErrors μ x d w n - v n) ^ 2 +
        sqDistance (lmsWeights μ x d w size) h ≤
      sqDistance w h + μ * ∑ n ∈ range size, v n ^ 2 := by
  induction size with
  | zero =>
      show μ * 0 + sqDistance w h ≤ sqDistance w h + μ * 0
      rw [mul_zero, zero_add, add_zero]
  | succ size ih =>
      have hbefore := ih (fun n hn => hv n (by omega)) fun n hn => hstep n (by omega)
      have hlost : 0 ≤ μ * lmsErrors μ x d w size ^ 2 * (1 - μ * ∑ k, x size k ^ 2) :=
        mul_nonneg (mul_nonneg hμ (sq_nonneg _)) (sub_nonneg.mpr (hstep size (by omega)))
      have hnext := sqDistance_lmsUpdate_add μ (lmsWeights μ x d w size) h (x size)
        (e := lmsErrors μ x d w size) rfl (hv size (by omega))
      change sqDistance (lmsWeights μ x d w (size + 1)) h + _ = _ at hnext
      rw [sum_range_succ, sum_range_succ, mul_add, mul_add]
      linarith

end Order

end Roomsync.Lib
