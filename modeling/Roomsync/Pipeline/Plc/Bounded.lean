import Mathlib.Analysis.Real.Sqrt
import Roomsync.Lib.Toeplitz
import Roomsync.Pipeline.LossCounter
import Roomsync.Pipeline.Plc.Audible
/-!
# How loud a concealed frame can be

The coefficients are those of the best predictor of the context, and its error is what
`levinson_durbin` returns.  Run without excitation it never gets above the energy of the
samples it was made from, as long as no reflection was clamped.
-/

namespace Roomsync.Pipeline.Plc

open Roomsync.Lib
open Finset
open Noise (frameSize)

noncomputable section

variable {p i : ℕ}

/-! ## The passes without a clamp -/

/-- No pass that `levinson_durbin` gets to clamps its reflection. -/
def NotClamped (R : Buffer (p + 1) ℝ) : Prop :=
  ∀ head i, Iterates R head i → |reflection R (head i) i| ≤ 0.999

def durbinHead (R : Buffer (p + 1) ℝ) (j : ℕ) : ℝ × Buffer p ℝ :=
  ((predictor (R.getD 0) j).1, fun k => (predictor (R.getD 0) j).2 k)

theorem durbinHead_coeff (R : Buffer (p + 1) ℝ) {j : ℕ} (hj : j ≤ p) :
    (durbinHead R j).2.getD 0 = (predictor (R.getD 0) j).2 := by
  ext k
  rcases Nat.lt_or_ge k p with hk | hk
  · rw [Buffer.getD_of_lt _ _ hk]
    rfl
  · rw [Buffer.getD_of_le _ _ hk]
    exact (durbin_coeff_of_le (hj.trans hk)).symm

theorem durbin_goes_on_of_le {clamp : ℝ → ℝ} {ε : ℝ} {R : ℕ → ℝ} {j : ℕ}
    (hi : (durbin clamp ε R i).2 = true) (hj : j ≤ i) : (durbin clamp ε R j).2 = true := by
  by_contra hstop
  have hstopped := Bool.eq_false_of_not_eq_true hstop
  have hsame : durbin clamp ε R i = durbin clamp ε R j := passes_of_stopped hstopped hj
  rw [hsame] at hi
  exact hstop hi

theorem durbinPass_durbinHead (R : Buffer (p + 1) ℝ) {j : ℕ} (hj : j < p)
    (hgo : (durbin clamped 1e-12 (R.getD 0) j).2 = true) :
    durbinPass R j (durbinHead R j) =
      some (durbinHead R (j + 1), (durbin clamped 1e-12 (R.getD 0) (j + 1)).2) := by
  obtain ⟨a, hstep, ha⟩ :=
    durbinPass_spec R hj (Nat.lt_succ_self p) (durbinHead R j) rfl rfl
  have hcoeff : (reflection R (durbinHead R j) j) =
      reflectionOf (R.getD 0) (predictor (R.getD 0) j).2 j (predictor (R.getD 0) j).1 := by
    unfold reflection
    rw [durbinHead_coeff R hj.le]
    rfl
  rw [durbinHead_coeff R hj.le, hcoeff] at ha
  have hbuffer : a = (durbinHead R (j + 1)).2 := by
    ext k
    have hk := congrFun ha k
    rw [Buffer.getD_of_lt _ _ k.isLt] at hk
    rw [hk]
    unfold durbinHead predictor
    rw [durbin_succ_of_true hgo]
    rfl
  rw [hstep, hcoeff, hbuffer]
  unfold durbinHead predictor
  rw [durbin_succ_of_true hgo]
  rfl

theorem iterates_durbinHead (R : Buffer (p + 1) ℝ) (hi : i < p)
    (hgo : (durbin clamped 1e-12 (R.getD 0) i).2 = true) : Iterates R (durbinHead R) i := by
  have hR : R.getD 0 0 = R 0 := R.getD_of_lt 0 (Nat.succ_pos p)
  have hstart : (!decide (R.getD 0 0 < 1e-12)) = true :=
    durbin_goes_on_of_le hgo (Nat.zero_le i)
  have hloud := of_decide_eq_false (Bool.not_eq_true' _ ▸ hstart)
  rw [hR] at hloud
  refine ⟨not_lt.mp hloud, hi, ?_, ?_⟩
  · rw [← hR]
    rfl
  · intro j hj
    have hpass := durbinPass_durbinHead R (hj.trans hi) (durbin_goes_on_of_le hgo hj.le)
    rw [durbin_goes_on_of_le hgo (Nat.succ_le_of_lt hj)] at hpass
    exact hpass

theorem NotClamped.unclamped {R : Buffer (p + 1) ℝ} (h : NotClamped R) :
    Unclamped clamped 1e-12 (R.getD 0) p := by
  intro i hi hgo
  have hreflection := h _ i (iterates_durbinHead R hi hgo)
  unfold reflection at hreflection
  rw [durbinHead_coeff R hi.le] at hreflection
  exact clamped_of_abs_le hreflection

/-! ## The context as a signal -/

def signal (flat : List ℝ) (t : ℕ) : ℝ := flat.getD t 0

theorem signal_of_le (flat : List ℝ) {t : ℕ} (ht : flat.length ≤ t) : signal flat t = 0 := by
  unfold signal
  rw [List.getD_eq_getElem?_getD, List.getElem?_eq_none ht, Option.getD_none]

theorem lagSum_signal (flat : List ℝ) (lag : ℕ) : lagSum (signal flat) flat.length lag =
    ∑ n ∈ range (flat.length - lag), signal flat n * signal flat (n + lag) := by
  unfold lagSum
  symm
  apply sum_subset
  · exact range_subset_range.mpr (Nat.sub_le _ _)
  · intro t _ ht
    rw [mem_range] at ht
    rw [signal_of_le flat (t := t + lag) (by omega), mul_zero]

theorem correlations_getD (flat : List ℝ) {lag : ℕ} (hlag : lag < lpcOrder + 1) :
    (correlations flat).getD 0 lag =
      (flat.length : ℝ)⁻¹ * lagSum (signal flat) flat.length lag := by
  rw [Buffer.getD_of_lt _ _ hlag, lagSum_signal, inv_mul_eq_div]
  rfl

theorem lagSum_zero_eq_energy (flat : List ℝ) :
    lagSum (signal flat) flat.length 0 = energy flat := by
  have hlist : energy flat = ∑ i, flat.get i ^ 2 := by
    conv_lhs => rw [← List.ofFn_get flat]
    exact energy_ofFn _
  unfold lagSum
  rw [hlist, sum_range]
  apply sum_congr rfl
  intro i _
  unfold signal
  rw [Nat.add_zero, List.getD_eq_getElem _ _ i.isLt, sq]
  rfl

/-! ## The predictor of the context -/

theorem correlationForm_nonneg (flat : List ℝ) (f : ℕ → ℝ) :
    0 ≤ correlationForm ((correlations flat).getD 0) (lpcOrder + 1) f f := by
  rw [correlationForm_scaled (fun _ hlag => correlations_getD flat hlag),
    ← sum_windows_sq (fun t ht => signal_of_le flat ht)]
  exact mul_nonneg (inv_nonneg.mpr (Nat.cast_nonneg _)) (sum_nonneg fun t _ => sq_nonneg _)

theorem power_nonneg (flat : List ℝ) : 0 ≤ (correlations flat).getD 0 0 := by
  rw [← correlationForm_newest (R := (correlations flat).getD 0) (Nat.succ_pos lpcOrder)]
  exact correlationForm_nonneg flat newest

theorem predictor_solvesNormal {flat : List ℝ} (h : NotClamped (correlations flat)) :
    ∃ q ≤ lpcOrder, SolvesNormal ((correlations flat).getD 0)
        (predictor ((correlations flat).getD 0) lpcOrder).2 q
        (predictor ((correlations flat).getD 0) lpcOrder).1 ∧
      (∀ j, q ≤ j → (predictor ((correlations flat).getD 0) lpcOrder).2 j = 0) ∧
      0 ≤ (predictor ((correlations flat).getD 0) lpcOrder).1 ∧
      (q = lpcOrder ∨ (predictor ((correlations flat).getD 0) lpcOrder).1 ≤ 1e-12) :=
  h.unclamped.solvesNormal abs_clamped_lt_one (by norm_num) (power_nonneg flat)

theorem scaled_correlationForm {flat : List ℝ} (hne : (flat.length : ℝ) ≠ 0) {q : ℕ}
    (hq : q ≤ lpcOrder) (g : ℕ → ℝ) :
    flat.length * correlationForm ((correlations flat).getD 0) q g g =
      correlationForm (lagSum (signal flat) flat.length) q g g := by
  have hscaled : ∀ l < q, (correlations flat).getD 0 l =
      (flat.length : ℝ)⁻¹ * lagSum (signal flat) flat.length l :=
    fun l hl => correlations_getD flat (by omega)
  rw [correlationForm_scaled hscaled, mul_inv_cancel_left₀ hne]

theorem combination_seed {flat : List ℝ} (hlength : lpcOrder ≤ flat.length) {x : ℕ → ℝ}
    (hseed : ∀ i < lpcOrder, x i = flat.getD (flat.length - lpcOrder + i) 0) {q : ℕ}
    (hq : q ≤ lpcOrder) (g : ℕ → ℝ) :
    combination q g (fun i => x (lpcOrder - q + i)) 0 =
      ∑ k ∈ range q, g k * behind (signal flat) (flat.length - 1) k := by
  unfold combination
  apply sum_congr rfl
  intro k hk
  have hkq := mem_range.mp hk
  have hplace : flat.length - lpcOrder + (lpcOrder - q + (q + 0 - 1 - k)) =
      flat.length - 1 - k := by omega
  unfold behind signal
  dsimp only
  rw [if_pos (by omega), hseed _ (by omega), hplace]

theorem predicted_sq_le {flat : List ℝ} (hlength : lpcOrder ≤ flat.length)
    (h : NotClamped (correlations flat)) {x : ℕ → ℝ}
    (hpredicts : Predicts (predictor ((correlations flat).getD 0) lpcOrder).2 lpcOrder frameSize x)
    (hseed : ∀ i < lpcOrder, x i = flat.getD (flat.length - lpcOrder + i) 0) {n : ℕ}
    (hn : n < frameSize) : x (lpcOrder + n) ^ 2 ≤ energy flat := by
  have hroom : 0 < flat.length := (by unfold lpcOrder; omega : 0 < lpcOrder).trans_le hlength
  have hpos : (0 : ℝ) < flat.length := by exact_mod_cast hroom
  obtain ⟨q, hq, hsolves, hzero, herr, -⟩ := predictor_solvesNormal h
  have hstart : ∀ g, combination q g (fun i => x (lpcOrder - q + i)) 0 ^ 2 ≤
      flat.length * correlationForm ((correlations flat).getD 0) q g g := by
    intro g
    rw [combination_seed hlength hseed hq, scaled_correlationForm hpos.ne' hq]
    exact window_sq_le (fun t ht => signal_of_le flat ht) (by omega) g
  have hpower : (flat.length : ℝ) * (correlations flat).getD 0 0 = energy flat := by
    rw [correlations_getD flat (Nat.succ_pos lpcOrder), mul_inv_cancel_left₀ hpos.ne',
      lagSum_zero_eq_energy]
  have hplace : lpcOrder + n = lpcOrder - q + (q + n) := by omega
  rw [← hpower, hplace]
  exact (hpredicts.of_support hq hzero).sq_le hsolves herr hzero hpos.le (power_nonneg flat)
    hstart hn

namespace PlcProcessor

theorem abs_le_of_mem_conceal {s : PlcProcessor} (hwhole : s.Whole)
    (h : NotClamped (correlations s.flat)) {lossMs : ℤ} {out : List ℝ}
    (hout : s.conceal lossMs = some out) {sample : ℝ} (hsample : sample ∈ out) :
    |sample| ≤ Orchestrator.fade lossMs * √(energy s.flat) := by
  have hfade := Orchestrator.fade_nonneg lossMs
  by_cases hne : s.history = []
  · unfold conceal at hout
    rw [hne, List.isEmpty_nil, if_pos rfl] at hout
    obtain rfl := Option.some.inj hout
    rw [List.eq_of_mem_replicate hsample, abs_zero]
    exact mul_nonneg hfade (Real.sqrt_nonneg _)
  · obtain ⟨x, hpredicts, hseed, hconceal⟩ := conceal_spec hwhole hne
    rw [hconceal] at hout
    obtain rfl := Option.some.inj hout
    obtain ⟨n, rfl⟩ := (List.mem_ofFn' _ _).mp hsample
    have hsq := predicted_sq_le (lpcOrder_le_length_flat hwhole hne) h hpredicts hseed n.isLt
    change |x (lpcOrder + n) * Orchestrator.fade lossMs| ≤ _
    rw [abs_mul, abs_of_nonneg hfade, mul_comm]
    exact mul_le_mul_of_nonneg_left (Real.abs_le_sqrt hsq) hfade

end PlcProcessor

end

end Roomsync.Pipeline.Plc

namespace Roomsync.Orchestrator

open Pipeline.Noise (frameSize)
open Pipeline.Plc

/-- In no run does concealment get louder than what it was made from, unless a reflection was
clamped. -/
theorem run_concealed_bounded (cfg : PipelineConfig) (calls : List Call)
    (frame : Option (List ℝ)) (ms : ℝ) :
    ∃ answers p out p', run cfg calls = some (answers, p) ∧
      p.process frame frameSize true ms = some (out, p') ∧
      (NotClamped (correlations p.plc.flat) →
        ∀ sample ∈ out, |sample| ≤ fade p'.plcLossMs * √(energy p.plc.flat)) := by
  obtain ⟨answers, p, hrun, -, hp⟩ := run_sound cfg calls
  obtain ⟨base, hconceal, -⟩ := PlcProcessor.conceal_eq_some hp.whole
  have hlost := Pipeline.processLost_eq_some (hconceal p.nextLossMs)
  refine ⟨answers, p, _, _, hrun, Pipeline.process_lost hlost frame ms, ?_⟩
  intro hclamp sample hsample
  exact PlcProcessor.abs_le_of_mem_conceal hp.whole hclamp (hconceal p.nextLossMs) hsample

end Roomsync.Orchestrator
