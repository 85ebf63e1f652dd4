import Roomsync.Lib.Run
import Roomsync.Pipeline.Noise.Spectrum
import Mathlib.Tactic.Linarith
import Mathlib.Tactic.Positivity
/-!
# The noise suppressor never amplifies

The window and the gains are at most one, and the transform and its inverse change the
energy by factors that cancel.
-/

namespace Roomsync.Pipeline.Noise

open Roomsync.Lib
open Finset

noncomputable section

variable {n : ℕ}

/-! ## Windows and gains -/

theorem hann_nonneg (i : Fin 160) : 0 ≤ hann i := by
  have hcos := Real.cos_le_one (2.0 * Real.pi * i / (160 - 1))
  unfold hann
  linarith

theorem hann_le_one (i : Fin 160) : hann i ≤ 1 := by
  have hcos := Real.neg_one_le_cos (2.0 * Real.pi * i / (160 - 1))
  unfold hann
  linarith

theorem weighted_sq_le (frame : Buffer n ℝ) (i : ℕ) :
    weighted hann frame i ^ 2 ≤ frame.getD 0 i ^ 2 := by
  have hweight : hann.getD 0 i ^ 2 ≤ 1 := by
    rcases Nat.lt_or_ge i 160 with hi | hi
    · rw [Buffer.getD_of_lt _ _ hi]
      exact pow_le_one₀ (hann_nonneg _) (hann_le_one _)
    · rw [Buffer.getD_of_le _ _ hi]
      norm_num
  unfold weighted
  rw [mul_pow]
  exact mul_le_of_le_one_right (sq_nonneg _) hweight

theorem specFloor_le_gain (power noise : ℝ) : specFloor ≤ gain power noise := le_max_left _ _

theorem gain_le_one {power noise : ℝ} (hpower : 0 ≤ power) (hnoise : 0 ≤ noise) :
    gain power noise ≤ 1 := by
  have hratio : 0 ≤ overSubtract * noise / (power + 1e-12) := by
    unfold overSubtract
    positivity
  apply max_le
  · unfold specFloor
    norm_num
  · apply Real.sqrt_le_one.mpr
    apply max_le zero_le_one
    linarith

/-! ## The estimate -/

theorem blend_pos {psd power : ℝ} (hpsd : 0 < psd) (hpower : 0 ≤ power) :
    0 < noiseAlpha * psd + (1 - noiseAlpha) * power := by
  have halpha : (0 : ℝ) < 1 - noiseAlpha := by
    unfold noiseAlpha
    norm_num
  have hpos : 0 < noiseAlpha * psd := mul_pos (by unfold noiseAlpha; norm_num) hpsd
  have hnonneg := mul_nonneg halpha.le hpower
  linarith

theorem blend_le {psd power bound : ℝ} (hpsd : psd ≤ bound) :
    noiseAlpha * psd + (1 - noiseAlpha) * power ≤ max power bound := by
  have hpsd' : psd ≤ max power bound := hpsd.trans (le_max_right _ _)
  have hpower : power ≤ max power bound := le_max_left _ _
  unfold noiseAlpha
  linarith

/-! ## Decibels -/

theorem reductionDb_bounds {energy left : ℝ} (hnonneg : 0 ≤ energy)
    (hlow : specFloor * specFloor * energy ≤ left) (hhigh : left ≤ energy) :
    0 ≤ 10 * Real.logb 10 ((energy + 1e-12) / (left + 1e-12)) ∧
      10 * Real.logb 10 ((energy + 1e-12) / (left + 1e-12)) ≤ 20 * Real.logb 10 20 := by
  have hleft : 0 ≤ left := le_trans (by unfold specFloor; positivity) hlow
  have hden : 0 < left + 1e-12 := by positivity
  have hnum : 0 < energy + 1e-12 := by positivity
  have hone : 1 ≤ (energy + 1e-12) / (left + 1e-12) := by
    rw [le_div_iff₀ hden]
    linarith
  have hmost : (energy + 1e-12) / (left + 1e-12) ≤ 20 ^ 2 := by
    rw [div_le_iff₀ hden]
    unfold specFloor at hlow
    linarith
  have hlog : Real.logb 10 ((energy + 1e-12) / (left + 1e-12)) ≤ 2 * Real.logb 10 20 := by
    calc Real.logb 10 ((energy + 1e-12) / (left + 1e-12))
        ≤ Real.logb 10 (20 ^ 2) :=
          Real.logb_le_logb_of_le (by norm_num) (by positivity) hmost
      _ = 2 * Real.logb 10 20 := by
          rw [Real.logb_pow]
          norm_num
  constructor
  · exact mul_nonneg (by norm_num) (Real.logb_nonneg (by norm_num) hone)
  · linarith

/-! ## Energy -/

theorem getD_nonneg {x : Buffer n ℝ} (hx : ∀ k, 0 ≤ x k) (i : ℕ) : 0 ≤ x.getD 0 i := by
  rcases Nat.lt_or_ge i n with hi | hi
  · rw [Buffer.getD_of_lt _ _ hi]
    exact hx _
  · exact (Buffer.getD_of_le _ _ hi).ge

theorem sum_getD_sq {size : ℕ} (hn : n ≤ size) (x : Buffer n ℝ) :
    ∑ i ∈ range size, x.getD 0 i ^ 2 = ∑ i, x i ^ 2 := by
  have htail : ∀ i ∈ range size, i ∉ range n → x.getD 0 i ^ 2 = 0 := by
    intro i _ hi
    rw [mem_range, Nat.not_lt] at hi
    rw [Buffer.getD_of_le _ _ hi]
    norm_num
  calc ∑ i ∈ range size, x.getD 0 i ^ 2
      = ∑ i ∈ range n, x.getD 0 i ^ 2 := (sum_subset (range_mono hn) htail).symm
    _ = ∑ i : Fin n, x.getD 0 i ^ 2 := sum_range _
    _ = ∑ i, x i ^ 2 := by
        apply sum_congr rfl
        intro i _
        rw [Buffer.getD_of_lt _ _ i.isLt]

namespace NoiseSuppressor

variable {s s' : NoiseSuppressor} {frame out : Buffer n ℝ}

theorem binGain_nonneg (s : NoiseSuppressor) (power : Buffer halfFft ℝ) (k : ℕ) :
    0 ≤ s.binGain power k := by
  have hfloor : (0 : ℝ) ≤ specFloor := by
    unfold specFloor
    norm_num
  exact hfloor.trans (specFloor_le_gain _ _)

theorem binGain_le_one (hpsd : ∀ k, 0 < s.noisePsd k) (hannWin : Buffer 160 ℝ)
    (frame : Buffer n ℝ) (k : ℕ) : s.binGain (framePower hannWin frame) k ≤ 1 :=
  gain_le_one (getD_nonneg (fun _ => binPower_nonneg _ _ _) k)
    (getD_nonneg (fun j => (hpsd j).le) k)

theorem normSq_denoised_le (hpsd : ∀ k, 0 < s.noisePsd k) (frame : Buffer n ℝ)
    (i : Fin fftSize) :
    Complex.normSq (s.denoised frame i) ≤ Complex.normSq (spectrum s.hannWin frame i) := by
  unfold denoised
  rw [map_mul, Complex.normSq_ofReal]
  have hle := binGain_le_one hpsd s.hannWin frame (min i (fftSize - i))
  exact mul_le_of_le_one_right (Complex.normSq_nonneg _)
    (mul_le_one₀ hle (binGain_nonneg _ _ _) hle)

theorem sum_normSq_spectrum_le (hn : n ≤ fftSize) (frame : Buffer n ℝ) :
    ∑ k, Complex.normSq (spectrum hann frame k) ≤ fftSize * ∑ i, frame i ^ 2 := by
  unfold spectrum
  rw [sum_normSq_dft]
  apply mul_le_mul_of_nonneg_left _ (Nat.cast_nonneg _)
  calc ∑ i : Fin fftSize, Complex.normSq (weighted hann frame i)
      = ∑ i ∈ range fftSize, weighted hann frame i ^ 2 := by
        rw [sum_range]
        apply sum_congr rfl
        intro i _
        rw [Complex.normSq_ofReal, sq]
    _ ≤ ∑ i ∈ range fftSize, frame.getD 0 i ^ 2 := sum_le_sum fun i _ => weighted_sq_le frame i
    _ = ∑ i, frame i ^ 2 := sum_getD_sq hn frame

theorem sum_samples_sq_le (hn : n ≤ fftSize) (X : Buffer fftSize ℂ) :
    fftSize * ∑ i : Fin n, samples X i ^ 2 ≤ ∑ k, Complex.normSq (X k) := by
  have hne : fftSize ≠ 0 := by
    rw [fftSize_eq]
    norm_num
  rw [← sum_normSq_idft hne X]
  apply mul_le_mul_of_nonneg_left _ (Nat.cast_nonneg _)
  calc ∑ i : Fin n, samples X i ^ 2
      = ∑ i ∈ range n, samples X i ^ 2 := (sum_range fun i => samples X i ^ 2).symm
    _ ≤ ∑ i ∈ range fftSize, samples X i ^ 2 :=
        sum_le_sum_of_subset_of_nonneg (range_mono hn) fun i _ _ => sq_nonneg _
    _ = ∑ i : Fin fftSize, samples X i ^ 2 := sum_range _
    _ ≤ ∑ i : Fin fftSize, Complex.normSq (idft X i) := by
        apply sum_le_sum
        intro i _
        unfold samples
        rw [Buffer.getD_of_lt _ _ i.isLt, sq]
        exact Complex.re_sq_le_normSq _

theorem Processed.energy_le (h : Processed s frame out s') (hn : n ≤ fftSize)
    (hwindow : s.hannWin = hann) (hpsd : ∀ k, 0 < s'.noisePsd k) :
    ∑ i, out i ^ 2 ≤ ∑ i, frame i ^ 2 := by
  have hpos : (0 : ℝ) < fftSize := by
    rw [fftSize_eq]
    norm_num
  have hwindow' : s'.hannWin = hann := h.hannWin.trans hwindow
  apply le_of_mul_le_mul_left _ hpos
  calc (fftSize : ℝ) * ∑ i, out i ^ 2
      = fftSize * ∑ i : Fin n, samples (s'.denoised frame) i ^ 2 := by rw [h.out]
    _ ≤ ∑ k, Complex.normSq (s'.denoised frame k) := sum_samples_sq_le hn _
    _ ≤ ∑ k, Complex.normSq (spectrum s'.hannWin frame k) :=
        sum_le_sum fun k _ => normSq_denoised_le hpsd frame k
    _ ≤ fftSize * ∑ i, frame i ^ 2 := by
        rw [hwindow']
        exact sum_normSq_spectrum_le hn frame

theorem outPower_bounds (hpsd : ∀ k, 0 < s.noisePsd k) (hannWin : Buffer 160 ℝ)
    (frame : Buffer n ℝ) :
    specFloor * specFloor * frameEnergy hannWin frame ≤
        s.outPower (framePower hannWin frame) halfFft ∧
      s.outPower (framePower hannWin frame) halfFft ≤ frameEnergy hannWin frame := by
  have hfloor : (0 : ℝ) ≤ specFloor := by
    unfold specFloor
    norm_num
  have hpower : ∀ k ∈ range halfFft,
      (framePower hannWin frame).getD 0 k = binPower hannWin frame k :=
    fun k hk => Buffer.getD_of_lt _ _ (mem_range.mp hk)
  unfold outPower frameEnergy
  rw [mul_sum]
  constructor
  · apply sum_le_sum
    intro k hk
    rw [hpower k hk]
    apply mul_le_mul_of_nonneg_right _ (binPower_nonneg _ _ _)
    exact mul_self_le_mul_self hfloor (specFloor_le_gain _ _)
  · apply sum_le_sum
    intro k hk
    rw [hpower k hk]
    have hle := binGain_le_one hpsd hannWin frame k
    exact mul_le_of_le_one_left (binPower_nonneg _ _ _)
      (mul_le_one₀ hle (binGain_nonneg _ _ _) hle)

end NoiseSuppressor

/-! ## Runs -/

/-- The largest power of bin `k`, or the value that the estimate starts from. -/
def peak (powers : List (Buffer halfFft ℝ)) (k : Fin halfFft) : ℝ :=
  powers.foldr (fun power bound => max (power k) bound) 1e-6

namespace Recorded

structure Sound (r : Recorded) : Prop where
  hannWin : r.suppressor.hannWin = hann
  psd_pos : ∀ k, 0 < r.suppressor.noisePsd k
  psd_le : ∀ k, r.suppressor.noisePsd k ≤ peak r.powers k
  reductionDb : 0 ≤ r.suppressor.reductionDb ∧
    r.suppressor.reductionDb ≤ 20 * Real.logb 10 20

namespace Sound

variable {r : Recorded}

theorem reset (hr : r.suppressor.hannWin = hann) : Sound ⟨r.suppressor.reset, []⟩ where
  hannWin := hr
  psd_pos := by
    intro k
    show (0 : ℝ) < 1e-6
    norm_num
  psd_le := fun _ => le_rfl
  reductionDb := ⟨le_rfl, mul_nonneg (by norm_num) (Real.logb_nonneg (by norm_num) (by norm_num))⟩

theorem new : Sound new := reset (r := .new) rfl

theorem processed (hr : Sound r) {frame out : Buffer n ℝ} {s : NoiseSuppressor}
    (h : r.suppressor.Processed frame out s) :
    Sound ⟨s, framePower r.suppressor.hannWin frame :: r.powers⟩ := by
  have hpos : ∀ k, 0 < s.noisePsd k := by
    intro k
    rcases h.noisePsd with hsame | hblend
    · rw [hsame]
      exact hr.psd_pos k
    · rw [hblend]
      exact blend_pos (hr.psd_pos k) (binPower_nonneg _ _ _)
  refine ⟨h.hannWin.trans hr.hannWin, hpos, fun k => ?_, ?_⟩
  · rcases h.noisePsd with hsame | hblend
    · rw [hsame]
      exact (hr.psd_le k).trans (le_max_right _ _)
    · rw [hblend]
      exact blend_le (hr.psd_le k)
  · rcases h.reductionDb with hsame | hnew
    · rw [hsame]
      exact hr.reductionDb
    · obtain ⟨hlow, hhigh⟩ := NoiseSuppressor.outPower_bounds hpos r.suppressor.hannWin frame
      rw [hnew]
      exact reductionDb_bounds (sum_nonneg fun k _ => binPower_nonneg _ _ k) hlow hhigh

theorem step (hr : Sound r) (call : Call) : ∃ r', r.step call = some r' ∧ Sound r' := by
  cases call with
  | reset => exact ⟨_, rfl, reset hr.hannWin⟩
  | process frame =>
      obtain ⟨out, s, hprocess, h⟩ :=
        r.suppressor.process_spec frameSize_le_fftSize frame
      refine ⟨_, ?_, hr.processed h⟩
      simp only [Recorded.step, NoiseSuppressor.analyse_eq_some, hprocess, Option.bind_eq_bind,
        Option.bind_some, Option.pure_def]

end Sound

/-- In any state, and on any next frame: the estimate is positive and below the peak, the
gains are between a twentieth and one, and no energy is added. -/
theorem never_amplifies (calls : List Call) (frame : Buffer frameSize ℝ) :
    ∃ r X energy power out s, run calls = some r ∧
      r.suppressor.analyse frame = some (X, energy, power) ∧
      r.suppressor.process frame = some (out, s) ∧
      (∀ k, 0 < r.suppressor.noisePsd k ∧
        r.suppressor.noisePsd k ≤ r.powers.foldr (fun power bound => max (power k) bound) 1e-6) ∧
      (∀ k, 0.05 ≤ gain (power k) (s.noisePsd k) ∧ gain (power k) (s.noisePsd k) ≤ 1) ∧
      ∑ i, out i ^ 2 ≤ ∑ i, frame i ^ 2 ∧
      0 ≤ r.suppressor.reductionDb ∧ r.suppressor.reductionDb ≤ 20 * Real.logb 10 20 := by
  obtain ⟨r, hrun, hr⟩ := foldlM_invariant (fun _ call hr => Sound.step hr call) Sound.new calls
  obtain ⟨out, s, hprocess, h⟩ := r.suppressor.process_spec frameSize_le_fftSize frame
  have hpos := (hr.processed h).psd_pos
  refine ⟨r, _, _, _, out, s, hrun, r.suppressor.analyse_eq_some frame, hprocess,
    fun k => ⟨hr.psd_pos k, hr.psd_le k⟩, fun k => ⟨specFloor_le_gain _ _, ?_⟩,
    h.energy_le frameSize_le_fftSize hr.hannWin hpos, hr.reductionDb⟩
  exact gain_le_one (binPower_nonneg _ _ _) (hpos k).le

end Recorded

end

end Roomsync.Pipeline.Noise
