import Roomsync.Pipeline.Noise.Attenuation
import Mathlib.Analysis.InnerProductSpace.PiL2
/-!
# What the noise suppressor takes away

The gains alone would change a frame by at most what the smallest of them takes.  The
analysis window comes before them and nothing undoes it, so a call also takes away what
the window cuts off.  How much that is, and how much the gains can add to it or give back,
is known before the call, but for the estimate that it chooses and for the phases.
-/

namespace Roomsync.Pipeline.Noise

open Roomsync.Lib
open Finset
open NoiseSuppressor (samples sum_samples_sq_le)

noncomputable section

variable {n : ℕ}

/-! ## Norms -/

def euclideanNorm (x : Buffer n ℝ) : ℝ := Real.sqrt (∑ i, x i ^ 2)

theorem euclideanNorm_eq (x : Buffer n ℝ) :
    euclideanNorm x = ‖(WithLp.toLp 2 x : EuclideanSpace ℝ (Fin n))‖ := by
  unfold euclideanNorm
  rw [EuclideanSpace.norm_eq]
  simp only [Real.norm_eq_abs, sq_abs]

theorem euclideanNorm_nonneg (x : Buffer n ℝ) : 0 ≤ euclideanNorm x := Real.sqrt_nonneg _

theorem euclideanNorm_sub_comm (x y : Buffer n ℝ) :
    euclideanNorm (fun i => x i - y i) = euclideanNorm (fun i => y i - x i) := by
  unfold euclideanNorm
  simp only [sub_sq_comm]

theorem euclideanNorm_sub_le (x y z : Buffer n ℝ) :
    euclideanNorm (fun i => x i - z i) ≤
      euclideanNorm (fun i => x i - y i) + euclideanNorm (fun i => y i - z i) := by
  rw [euclideanNorm_eq, euclideanNorm_eq, euclideanNorm_eq]
  exact norm_sub_le_norm_sub_add_norm_sub (WithLp.toLp 2 x) (WithLp.toLp 2 y) (WithLp.toLp 2 z)

/-! ## Frames under gains -/

def padded (x : Buffer n ℝ) : Buffer fftSize ℂ := fun i => (x.getD 0 i : ℂ)

/-- A frame under the gains `g` of the lower half and its mirror image, not windowed. -/
def filtered (g : ℕ → ℝ) (x : Buffer n ℝ) : Buffer n ℝ := fun i =>
  samples (fun k : Fin fftSize => dft (rootOf fftSize) (padded x) k * g (min k (fftSize - k))) i

/-- The power that the gains take from the bins of a frame, by the sample. -/
def filteredLoss (g : ℕ → ℝ) (x : Buffer n ℝ) : ℝ :=
  (∑ k : Fin fftSize, (1 - g (min k (fftSize - k))) ^ 2 *
    Complex.normSq (dft (rootOf fftSize) (padded x) k)) / fftSize

theorem fftSize_pos : (0 : ℝ) < fftSize := by
  rw [fftSize_eq]
  norm_num

theorem min_lt_halfFft (k : Fin fftSize) : min k.val (fftSize - k) < halfFft := by
  have hk := k.isLt
  unfold fftSize at hk ⊢
  unfold halfFft fftSize
  omega

theorem filtered_eq_multiplier (hn : n ≤ fftSize) (g : ℕ → ℝ) (x : Buffer n ℝ) (i : Fin n) :
    filtered g x i =
      (multiplier (fun k : Fin fftSize => g (min k (fftSize - k))) (padded x)
        ⟨i, i.isLt.trans_le hn⟩).re := by
  unfold filtered samples
  rw [Buffer.getD_of_lt _ _ (i.isLt.trans_le hn)]
  rfl

theorem padded_of_lt (hn : n ≤ fftSize) (x : Buffer n ℝ) (i : Fin n) :
    padded x ⟨i, i.isLt.trans_le hn⟩ = x i := by
  unfold padded
  rw [Buffer.getD_of_lt _ _ i.isLt]

theorem filtered_zero (g : ℕ → ℝ) (i : Fin n) : filtered g (fun _ => 0) i = 0 := by
  have hpadded : padded (fun _ => 0 : Buffer n ℝ) = fun _ => 0 := by
    ext k
    unfold padded
    rw [Buffer.getD_of_const fun _ => rfl, Complex.ofReal_zero]
  unfold filtered
  simp only [hpadded, dft_zero, zero_mul]
  exact NoiseSuppressor.samples_zero i

theorem filtered_const (hn : n ≤ fftSize) {g : ℕ → ℝ} {c : ℝ} (hg : ∀ k < halfFft, g k = c)
    (x : Buffer n ℝ) (i : Fin n) : filtered g x i = c * x i := by
  have hconst : (fun k : Fin fftSize => g (min k (fftSize - k))) = fun _ => c := by
    ext k
    exact hg _ (min_lt_halfFft k)
  rw [filtered_eq_multiplier hn, hconst, multiplier_const, padded_of_lt hn,
    ← Complex.ofReal_mul, Complex.ofReal_re]

theorem sum_normSq_padded (hn : n ≤ fftSize) (x : Buffer n ℝ) :
    ∑ k, Complex.normSq (dft (rootOf fftSize) (padded x) k) = fftSize * ∑ i, x i ^ 2 := by
  rw [sum_normSq_dft, ← sum_getD_sq hn x, sum_range]
  apply congrArg ((fftSize : ℝ) * ·)
  apply sum_congr rfl
  intro i _
  rw [padded, Complex.normSq_ofReal, sq]

theorem sum_sub_filtered_sq_le (hn : n ≤ fftSize) (g : ℕ → ℝ) (x : Buffer n ℝ) :
    ∑ i, (x i - filtered g x i) ^ 2 ≤ filteredLoss g x := by
  let rest : Fin fftSize → ℝ := fun k => 1 - g (min k (fftSize - k))
  let X : Buffer fftSize ℂ := fun k => dft (rootOf fftSize) (padded x) k * rest k
  have hterm : ∀ i : Fin n, x i - filtered g x i = samples X i := by
    intro i
    unfold samples
    rw [Buffer.getD_of_lt _ _ (i.isLt.trans_le hn)]
    change _ = (multiplier rest (padded x) ⟨i, i.isLt.trans_le hn⟩).re
    rw [multiplier_one_sub, filtered_eq_multiplier hn, padded_of_lt hn, Complex.sub_re,
      Complex.ofReal_re]
  unfold filteredLoss
  rw [le_div_iff₀' fftSize_pos]
  calc (fftSize : ℝ) * ∑ i, (x i - filtered g x i) ^ 2
      = fftSize * ∑ i : Fin n, samples X i ^ 2 := by
        rw [sum_congr rfl fun i _ => congrArg (· ^ 2) (hterm i)]
    _ ≤ ∑ k, Complex.normSq (X k) := sum_samples_sq_le hn X
    _ = ∑ k : Fin fftSize, (1 - g (min k (fftSize - k))) ^ 2 *
          Complex.normSq (dft (rootOf fftSize) (padded x) k) := by
        apply sum_congr rfl
        intro k _
        rw [map_mul, Complex.normSq_ofReal, mul_comm, sq]

theorem filteredLoss_anti {g g' : ℕ → ℝ} (h : ∀ k < halfFft, g k ≤ g' k ∧ g' k ≤ 1)
    (x : Buffer n ℝ) : filteredLoss g' x ≤ filteredLoss g x := by
  apply div_le_div_of_nonneg_right _ fftSize_pos.le
  apply sum_le_sum
  intro k _
  obtain ⟨hle, hone⟩ := h _ (min_lt_halfFft k)
  apply mul_le_mul_of_nonneg_right _ (Complex.normSq_nonneg _)
  exact pow_le_pow_left₀ (sub_nonneg.mpr hone) (sub_le_sub_left hle 1) 2

theorem filteredLoss_le (hn : n ≤ fftSize) {g : ℕ → ℝ} {c : ℝ}
    (hg : ∀ k < halfFft, c ≤ g k ∧ g k ≤ 1) (x : Buffer n ℝ) :
    filteredLoss g x ≤ (1 - c) ^ 2 * ∑ i, x i ^ 2 := by
  apply (filteredLoss_anti (g := fun _ => c) hg x).trans
  unfold filteredLoss
  rw [← mul_sum, sum_normSq_padded hn, mul_left_comm, mul_div_cancel_left₀ _ fftSize_pos.ne']

/-! ## The window -/

def kept (frame : Buffer frameSize ℝ) : Buffer frameSize ℝ := fun i => frame i * hann.getD 0 i

def cutNorm (frame : Buffer frameSize ℝ) : ℝ := euclideanNorm fun i => frame i - kept frame i

theorem hann_lt_one (i : Fin 160) : hann i < 1 := by
  have hcos : Real.cos (2.0 * Real.pi * i / (160 - 1)) ≠ -1 := by
    intro hmin
    have hshift : Real.cos (2.0 * Real.pi * i / (160 - 1) - Real.pi) = 1 := by
      rw [Real.cos_sub_pi, hmin, neg_neg]
    obtain ⟨m, hm⟩ := (Real.cos_eq_one_iff _).mp hshift
    have hpi := Real.pi_ne_zero
    have hangle : (159 * (1 + 2 * m) : ℝ) = 2 * i := by
      field_simp at hm
      norm_num at hm
      linarith
    have hparity : 159 * (1 + 2 * m) = 2 * (i.val : ℤ) := by exact_mod_cast hangle
    omega
  have hlt := lt_of_le_of_ne (Real.neg_one_le_cos _) hcos.symm
  unfold hann
  linarith

theorem hann_getD_lt_one (i : ℕ) : hann.getD 0 i < 1 := by
  rcases Nat.lt_or_ge i 160 with hi | hi
  · rw [Buffer.getD_of_lt _ _ hi]
    exact hann_lt_one _
  · rw [Buffer.getD_of_le _ _ hi]
    exact zero_lt_one

theorem weighted_eq_padded (frame : Buffer frameSize ℝ) (i : Fin fftSize) :
    (weighted hann frame i : ℂ) = padded (kept frame) i := by
  unfold weighted padded kept
  rcases Nat.lt_or_ge i.val frameSize with hi | hi
  · rw [Buffer.getD_of_lt _ _ hi, Buffer.getD_of_lt _ _ hi]
  · rw [Buffer.getD_of_le _ _ hi, Buffer.getD_of_le _ _ hi, zero_mul]

theorem spectrum_eq_padded (frame : Buffer frameSize ℝ) :
    spectrum hann frame = dft (rootOf fftSize) (padded (kept frame)) := by
  unfold spectrum
  rw [funext (weighted_eq_padded frame)]

theorem gain_anti {power noise noise' : ℝ} (hpower : 0 ≤ power) (h : noise ≤ noise') :
    gain power noise' ≤ gain power noise := by
  have hratio : overSubtract * noise / (power + 1e-12) ≤
      overSubtract * noise' / (power + 1e-12) := by
    apply div_le_div_of_nonneg_right _ (by positivity)
    exact mul_le_mul_of_nonneg_left h (by unfold overSubtract; norm_num)
  apply max_le_max le_rfl
  apply Real.sqrt_le_sqrt
  exact max_le_max le_rfl (sub_le_sub_left hratio 1)

theorem gain_of_masked {power noise : ℝ} (hpower : 0 ≤ power)
    (h : power + 1e-12 ≤ overSubtract * noise) : gain power noise = specFloor := by
  have hratio : 1 ≤ overSubtract * noise / (power + 1e-12) := by
    rw [le_div_iff₀ (by positivity), one_mul]
    exact h
  unfold gain
  dsimp only
  rw [max_eq_left (sub_nonpos.mpr hratio), Real.sqrt_zero, max_eq_left]
  unfold specFloor
  norm_num

theorem one_sub_gain_sq_mul_le {power noise : ℝ} (hpower : 0 ≤ power) (hnoise : 0 ≤ noise) :
    (1 - gain power noise) ^ 2 * power ≤ overSubtract * noise := by
  have hone := gain_le_one hpower hnoise
  have hpos : 0 ≤ gain power noise := le_trans (by unfold specFloor; norm_num)
    (specFloor_le_gain power noise)
  have hden : 0 < power + 1e-12 := by positivity
  have hover : 0 ≤ overSubtract * noise := mul_nonneg (by unfold overSubtract; norm_num) hnoise
  have hsq : 1 - overSubtract * noise / (power + 1e-12) ≤ gain power noise ^ 2 := by
    calc 1 - overSubtract * noise / (power + 1e-12)
        ≤ max 0 (1 - overSubtract * noise / (power + 1e-12)) := le_max_right _ _
      _ = Real.sqrt (max 0 (1 - overSubtract * noise / (power + 1e-12))) ^ 2 :=
          (Real.sq_sqrt (le_max_left _ _)).symm
      _ ≤ gain power noise ^ 2 := pow_le_pow_left₀ (Real.sqrt_nonneg _) (le_max_right _ _) 2
  have htaken : (1 - gain power noise) ^ 2 ≤ overSubtract * noise / (power + 1e-12) := by
    nlinarith
  calc (1 - gain power noise) ^ 2 * power
      ≤ overSubtract * noise / (power + 1e-12) * power :=
        mul_le_mul_of_nonneg_right htaken hpower
    _ ≤ overSubtract * noise / (power + 1e-12) * (power + 1e-12) := by
        apply mul_le_mul_of_nonneg_left _ (div_nonneg hover hden.le)
        linarith
    _ = overSubtract * noise := div_mul_cancel₀ _ hden.ne'

theorem normSq_dft_kept (frame : Buffer frameSize ℝ) (k : Fin fftSize) :
    Complex.normSq (dft (rootOf fftSize) (padded (kept frame)) k) =
      (framePower hann frame).getD 0 (min k (fftSize - k)) := by
  rw [← spectrum_eq_padded, Buffer.getD_of_lt _ _ (min_lt_halfFft k)]
  unfold framePower binPower
  dsimp only
  rcases Nat.le_total k.val (fftSize - k) with hk | hk
  · rw [Nat.min_eq_left hk, Buffer.getD_of_lt _ _ k.isLt]
  · have hzero : 0 < k.val := by
      have hlt := k.isLt
      omega
    have hmirror := spectrum_mirrored hann frame k (fftSize - k) hzero
      (Nat.sub_pos_of_lt k.isLt) (Nat.add_sub_cancel' k.isLt.le)
    rw [Nat.min_eq_right hk, ← hmirror, Complex.normSq_conj, Buffer.getD_of_lt _ _ k.isLt]

namespace NoiseSuppressor

/-! ## A call -/

section Call

variable (s : NoiseSuppressor) (frame : Buffer frameSize ℝ)

/-- The least gain that a bin can get: the call keeps the estimate, or blends it with the
power of the frame. -/
def lowerGain (k : ℕ) : ℝ :=
  gain ((framePower hann frame).getD 0 k)
    (max (s.noisePsd.getD 0 k) ((blended s.noisePsd (framePower hann frame)).getD 0 k))

def upperGain (k : ℕ) : ℝ :=
  gain ((framePower hann frame).getD 0 k)
    (min (s.noisePsd.getD 0 k) ((blended s.noisePsd (framePower hann frame)).getD 0 k))

/-- The most that the gains can take of what the window leaves. -/
def takenNorm : ℝ := Real.sqrt (filteredLoss (s.lowerGain frame) (kept frame))

/-- What the window cuts off, with what the gains can add to it, is no more than the smallest
gain takes in any case. -/
def Covered : Prop :=
  cutNorm frame + s.takenNorm frame ≤
    (1 - ⨅ k : Fin halfFft, s.upperGain frame k) * euclideanNorm frame

/-- What the window cuts off, less what the gains can give back, is no more than the smallest
gain can take. -/
def Coverable : Prop :=
  cutNorm frame - s.takenNorm frame ≤
    (1 - ⨅ k : Fin halfFft, s.lowerGain frame k) * euclideanNorm frame

end Call

variable {s s' : NoiseSuppressor} {frame out : Buffer frameSize ℝ}

theorem Processed.out_eq_filtered (h : s.Processed frame out s') (hwindow : s.hannWin = hann) :
    out = filtered (s'.binGain (framePower hann frame)) (kept frame) := by
  have hspectrum : s'.denoised frame = fun k : Fin fftSize =>
      dft (rootOf fftSize) (padded (kept frame)) k *
        s'.binGain (framePower hann frame) (min k (fftSize - k)) := by
    unfold denoised
    rw [h.hannWin, hwindow, spectrum_eq_padded]
  rw [h.out, hspectrum]
  rfl

theorem Processed.gain_bounds (h : s.Processed frame out s') (hwindow : s.hannWin = hann)
    (k : ℕ) : s.lowerGain frame k ≤ s'.binGain (framePower hann frame) k ∧
      s'.binGain (framePower hann frame) k ≤ s.upperGain frame k := by
  have hpower : 0 ≤ (framePower hann frame).getD 0 k :=
    getD_nonneg (fun _ => binPower_nonneg _ _ _) k
  have hpsd := h.noisePsd
  rw [hwindow] at hpsd
  rcases hpsd with hsame | hblend
  · unfold binGain
    rw [hsame]
    exact ⟨gain_anti hpower (le_max_left _ _), gain_anti hpower (min_le_left _ _)⟩
  · have hblend' : s'.noisePsd = blended s.noisePsd (framePower hann frame) := hblend
    unfold binGain
    rw [hblend']
    exact ⟨gain_anti hpower (le_max_right _ _), gain_anti hpower (min_le_right _ _)⟩

theorem Processed.kept_sub_out_le (h : s.Processed frame out s') (hwindow : s.hannWin = hann)
    (hpsd : ∀ k, 0 < s'.noisePsd k) :
    euclideanNorm (fun i => kept frame i - out i) ≤ s.takenNorm frame := by
  apply Real.sqrt_le_sqrt
  rw [h.out_eq_filtered hwindow]
  apply (sum_sub_filtered_sq_le frameSize_le_fftSize _ _).trans
  apply filteredLoss_anti
  intro k _
  exact ⟨(h.gain_bounds hwindow k).1, binGain_le_one hpsd hann frame k⟩

theorem iInf_gain_le_iInf_gain {g g' : ℕ → ℝ} (hg : ∀ k, 0 ≤ g k) (h : ∀ k, g k ≤ g' k) :
    ⨅ k : Fin halfFft, g k ≤ ⨅ k : Fin halfFft, g' k :=
  ciInf_mono ⟨0, by rintro _ ⟨k, rfl⟩; exact hg k⟩ fun k => h k

theorem takenNorm_sq_le {ν : ℝ}
    (hpos : ∀ k, 0 < s.noisePsd k) (hpsd : ∀ k, s.noisePsd k ≤ ν) (frame : Buffer frameSize ℝ) :
    s.takenNorm frame ^ 2 ≤ 1.5 * ν + 0.075 * ∑ i, kept frame i ^ 2 := by
  have hterm : ∀ k : Fin fftSize, (1 - s.lowerGain frame (min k (fftSize - k))) ^ 2 *
      Complex.normSq (dft (rootOf fftSize) (padded (kept frame)) k) ≤
        1.5 * ν + 0.075 * Complex.normSq (dft (rootOf fftSize) (padded (kept frame)) k) := by
    intro k
    have hk := min_lt_halfFft k
    rw [normSq_dft_kept]
    have hpower : 0 ≤ (framePower hann frame).getD 0 (min k (fftSize - k)) :=
      getD_nonneg (fun _ => binPower_nonneg _ _ _) _
    have hnoise := hpsd ⟨_, hk⟩
    have hnoise' := hpos ⟨_, hk⟩
    unfold lowerGain
    rw [Buffer.getD_of_lt s.noisePsd _ hk, Buffer.getD_of_lt (blended _ _) _ hk]
    unfold blended
    rw [Buffer.getD_of_lt _ _ hk] at hpower ⊢
    apply (one_sub_gain_sq_mul_le hpower (le_max_of_le_left hnoise'.le)).trans
    unfold overSubtract noiseAlpha
    rcases max_cases (s.noisePsd ⟨_, hk⟩) (0.95 * s.noisePsd ⟨_, hk⟩ + (1 - 0.95) *
      framePower hann frame ⟨_, hk⟩) with ⟨hmax, -⟩ | ⟨hmax, -⟩ <;>
    rw [hmax] <;>
    norm_num at * <;>
    linarith
  have hloss : filteredLoss (s.lowerGain frame) (kept frame) ≤
      1.5 * ν + 0.075 * ∑ i, kept frame i ^ 2 := by
    unfold filteredLoss
    rw [div_le_iff₀ fftSize_pos]
    apply (sum_le_sum fun k _ => hterm k).trans
    rw [sum_add_distrib, sum_const, card_univ, Fintype.card_fin, nsmul_eq_mul, ← mul_sum,
      sum_normSq_padded frameSize_le_fftSize]
    apply le_of_eq
    ring
  unfold takenNorm
  rw [Real.sq_sqrt]
  · exact hloss
  · exact div_nonneg (sum_nonneg fun k _ => mul_nonneg (sq_nonneg _) (Complex.normSq_nonneg _))
      fftSize_pos.le

end NoiseSuppressor

/-! ## Transparency -/

def Transparent (power psd : Buffer halfFft ℝ) (frame out : Buffer frameSize ℝ) : Prop :=
  Real.sqrt (∑ i, (out i - frame i) ^ 2) ≤
    (1 - ⨅ k, gain (power k) (psd k)) * Real.sqrt (∑ i, frame i ^ 2)

theorem transparent_iff {s s' : NoiseSuppressor} (hwindow : s.hannWin = hann)
    (frame out : Buffer frameSize ℝ) :
    Transparent (framePower s.hannWin frame) s'.noisePsd frame out ↔
      euclideanNorm (fun i => frame i - out i) ≤
        (1 - ⨅ k : Fin halfFft, s'.binGain (framePower hann frame) k) * euclideanNorm frame := by
  have hgain : ∀ k : Fin halfFft, gain (framePower hann frame k) (s'.noisePsd k) =
      s'.binGain (framePower hann frame) k := by
    intro k
    unfold NoiseSuppressor.binGain
    rw [Buffer.getD_of_lt _ _ k.isLt, Buffer.getD_of_lt _ _ k.isLt]
  rw [hwindow, euclideanNorm_sub_comm]
  unfold Transparent
  simp only [hgain]
  rfl

namespace NoiseSuppressor.Processed

variable {s s' : NoiseSuppressor} {frame out : Buffer frameSize ℝ}

/-- From the frame to what the window leaves, and on to what the gains make of it. -/
theorem transparent_of_covered (h : s.Processed frame out s') (hwindow : s.hannWin = hann)
    (hpsd : ∀ k, 0 < s'.noisePsd k) (hcovered : s.Covered frame) :
    Transparent (framePower s.hannWin frame) s'.noisePsd frame out := by
  have hleast : ⨅ k : Fin halfFft, s'.binGain (framePower hann frame) k ≤
      ⨅ k : Fin halfFft, s.upperGain frame k :=
    iInf_gain_le_iInf_gain (fun k => binGain_nonneg _ _ k) fun k => (h.gain_bounds hwindow k).2
  rw [transparent_iff hwindow]
  calc euclideanNorm (fun i => frame i - out i)
      ≤ cutNorm frame + euclideanNorm (fun i => kept frame i - out i) :=
        euclideanNorm_sub_le frame (kept frame) out
    _ ≤ cutNorm frame + s.takenNorm frame :=
        add_le_add_right (h.kept_sub_out_le hwindow hpsd) _
    _ ≤ (1 - ⨅ k : Fin halfFft, s.upperGain frame k) * euclideanNorm frame := hcovered
    _ ≤ (1 - ⨅ k : Fin halfFft, s'.binGain (framePower hann frame) k) * euclideanNorm frame :=
        mul_le_mul_of_nonneg_right (sub_le_sub_left hleast 1) (euclideanNorm_nonneg _)

theorem coverable_of_transparent (h : s.Processed frame out s') (hwindow : s.hannWin = hann)
    (hpsd : ∀ k, 0 < s'.noisePsd k)
    (htransparent : Transparent (framePower s.hannWin frame) s'.noisePsd frame out) :
    s.Coverable frame := by
  have hleast : ⨅ k : Fin halfFft, s.lowerGain frame k ≤
      ⨅ k : Fin halfFft, s'.binGain (framePower hann frame) k := by
    apply iInf_gain_le_iInf_gain _ fun k => (h.gain_bounds hwindow k).1
    intro k
    exact le_trans (by unfold specFloor; norm_num) (specFloor_le_gain _ _)
  have hcut := euclideanNorm_sub_le frame out (kept frame)
  rw [euclideanNorm_sub_comm out] at hcut
  have htaken := h.kept_sub_out_le hwindow hpsd
  rw [transparent_iff hwindow] at htransparent
  have hbound := mul_le_mul_of_nonneg_right (sub_le_sub_left hleast 1) (euclideanNorm_nonneg frame)
  unfold Coverable cutNorm
  linarith

end NoiseSuppressor.Processed

namespace NoiseSuppressor

variable {s s' : NoiseSuppressor} {frame out : Buffer frameSize ℝ}

theorem iInf_binGain_bounds (hpsd : ∀ k, 0 < s.noisePsd k) (frame : Buffer frameSize ℝ) :
    0 < ⨅ k : Fin halfFft, s.binGain (framePower hann frame) k ∧
      (⨅ k : Fin halfFft, s.binGain (framePower hann frame) k) ≤ 1 ∧
      ∀ k < halfFft, (⨅ k : Fin halfFft, s.binGain (framePower hann frame) k) ≤
        s.binGain (framePower hann frame) k := by
  have hhalf : 0 < halfFft := by
    rw [halfFft_eq]
    omega
  have : Nonempty (Fin halfFft) := ⟨⟨0, hhalf⟩⟩
  have hfloor : (0 : ℝ) < specFloor := by
    unfold specFloor
    norm_num
  have hleast : ∀ k < halfFft, (⨅ k : Fin halfFft, s.binGain (framePower hann frame) k) ≤
      s.binGain (framePower hann frame) k :=
    fun k hk => ciInf_le (Set.finite_range _).bddBelow (⟨k, hk⟩ : Fin halfFft)
  refine ⟨hfloor.trans_le (le_ciInf fun k => specFloor_le_gain _ _), ?_, hleast⟩
  exact (hleast 0 hhalf).trans (binGain_le_one hpsd hann frame 0)

theorem sub_filtered_le (hpsd : ∀ k, 0 < s.noisePsd k) (frame : Buffer frameSize ℝ) :
    euclideanNorm (fun i => frame i - filtered (s.binGain (framePower hann frame)) frame i) ≤
      (1 - ⨅ k : Fin halfFft, s.binGain (framePower hann frame) k) * euclideanNorm frame := by
  obtain ⟨-, hone, hleast⟩ := iInf_binGain_bounds hpsd frame
  generalize hγ : ⨅ k : Fin halfFft, s.binGain (framePower hann frame) k = γ at *
  unfold euclideanNorm
  rw [← Real.sqrt_sq (sub_nonneg.mpr hone), ← Real.sqrt_mul (sq_nonneg _)]
  apply Real.sqrt_le_sqrt
  apply (sum_sub_filtered_sq_le frameSize_le_fftSize _ _).trans
  apply filteredLoss_le frameSize_le_fftSize
  intro k hk
  exact ⟨hleast k hk, binGain_le_one hpsd hann frame k⟩

theorem weighted_sq_sum_nonpos_iff {weight x : Fin n → ℝ} (hweight : ∀ i, 0 < weight i) :
    ∑ i, weight i * x i ^ 2 ≤ 0 ↔ ∀ i, x i = 0 := by
  have hnonneg : ∀ i ∈ univ, 0 ≤ weight i * x i ^ 2 :=
    fun i _ => mul_nonneg (hweight i).le (sq_nonneg _)
  rw [(sum_nonneg hnonneg).ge_iff_eq', sum_eq_zero_iff_of_nonneg hnonneg]
  simp only [mem_univ, true_implies, mul_eq_zero, (hweight _).ne', false_or,
    pow_eq_zero_iff two_ne_zero]

theorem Processed.transparent_iff_of_uniform (h : s.Processed frame out s')
    (hwindow : s.hannWin = hann) (hpsd : ∀ k, 0 < s'.noisePsd k)
    (huniform : ∀ k l : Fin halfFft,
      s'.binGain (framePower hann frame) k = s'.binGain (framePower hann frame) l) :
    Transparent (framePower s.hannWin frame) s'.noisePsd frame out ↔ ∀ i, frame i = 0 := by
  obtain ⟨hpos, hone, hleast⟩ := iInf_binGain_bounds hpsd frame
  have hgain : ∀ k < halfFft, s'.binGain (framePower hann frame) k =
      ⨅ k : Fin halfFft, s'.binGain (framePower hann frame) k := by
    intro k hk
    have : Nonempty (Fin halfFft) := ⟨⟨k, hk⟩⟩
    apply le_antisymm _ (hleast k hk)
    exact le_ciInf fun l => (huniform ⟨k, hk⟩ l).le
  have hout : ∀ i, out i = (⨅ k : Fin halfFft, s'.binGain (framePower hann frame) k) *
      kept frame i := by
    intro i
    rw [h.out_eq_filtered hwindow]
    exact filtered_const frameSize_le_fftSize hgain (kept frame) i
  rw [transparent_iff hwindow]
  generalize (⨅ k : Fin halfFft, s'.binGain (framePower hann frame) k) = γ at *
  let weight (i : Fin frameSize) : ℝ :=
    γ * (1 - hann.getD 0 i) * (γ * (1 - hann.getD 0 i) + 2 * (1 - γ))
  have hweight : ∀ i, 0 < weight i := by
    intro i
    have hcut := mul_pos hpos (sub_pos.mpr (hann_getD_lt_one i))
    have hrest := sub_nonneg.mpr hone
    exact mul_pos hcut (by linarith)
  have hterm : ∀ i, (frame i - out i) ^ 2 =
      weight i * frame i ^ 2 + (1 - γ) ^ 2 * frame i ^ 2 := by
    intro i
    rw [hout, kept]
    ring
  have henergy : 0 ≤ (1 - γ) ^ 2 * ∑ i, frame i ^ 2 :=
    mul_nonneg (sq_nonneg _) (sum_nonneg fun i _ => sq_nonneg _)
  unfold euclideanNorm
  rw [← Real.sqrt_sq (sub_nonneg.mpr hone), ← Real.sqrt_mul (sq_nonneg _),
    Real.sqrt_le_sqrt_iff henergy, sum_congr rfl fun i _ => hterm i, sum_add_distrib, ← mul_sum,
    add_le_iff_nonpos_left]
  exact weighted_sq_sum_nonpos_iff hweight

end NoiseSuppressor

/-- In any state and on any next frame, the call is transparent if what the window cuts off is
covered, and only if it is coverable.  Without the window it would be in any case, and where
all gains are the same it is for a silent frame only. -/
theorem transparency_bounds (calls : List Call) (frame : Buffer frameSize ℝ) :
    ∃ r X energy power out s, Recorded.run calls = some r ∧
      r.suppressor.analyse frame = some (X, energy, power) ∧
      r.suppressor.process frame = some (out, s) ∧
      (r.suppressor.Covered frame → Transparent power s.noisePsd frame out) ∧
      (Transparent power s.noisePsd frame out → r.suppressor.Coverable frame) ∧
      Transparent power s.noisePsd frame (filtered (s.binGain power) frame) ∧
      ((∀ k l, gain (power k) (s.noisePsd k) = gain (power l) (s.noisePsd l)) →
        (Transparent power s.noisePsd frame out ↔ ∀ i, frame i = 0)) := by
  obtain ⟨r, hrun, hr⟩ :=
    foldlM_invariant (fun _ call hr => Recorded.Sound.step hr call) Recorded.Sound.new calls
  obtain ⟨out, s, hprocess, h⟩ := r.suppressor.process_spec frameSize_le_fftSize frame
  have hpsd := (hr.processed h).psd_pos
  refine ⟨r, _, _, _, out, s, hrun, r.suppressor.analyse_eq_some frame, hprocess,
    h.transparent_of_covered hr.hannWin hpsd, h.coverable_of_transparent hr.hannWin hpsd, ?_, ?_⟩
  · rw [transparent_iff hr.hannWin, hr.hannWin]
    exact NoiseSuppressor.sub_filtered_le hpsd frame
  · intro huniform
    apply h.transparent_iff_of_uniform hr.hannWin hpsd
    intro k l
    have hkl := huniform k l
    rw [hr.hannWin] at hkl
    unfold NoiseSuppressor.binGain
    rw [Buffer.getD_of_lt _ _ k.isLt, Buffer.getD_of_lt _ _ k.isLt, Buffer.getD_of_lt _ _ l.isLt,
      Buffer.getD_of_lt _ _ l.isLt]
    exact hkl

def edgeClick : Buffer frameSize ℝ := fun i => if i.val = 0 then 1 else 0

theorem kept_edgeClick : kept edgeClick = fun _ => 0 := by
  have hwindow : hann.getD 0 0 = 0 := by
    rw [Buffer.getD_of_lt _ _ (by omega)]
    unfold hann
    norm_num
  ext i
  unfold kept edgeClick
  by_cases hi : i.val = 0
  · rw [hi, hwindow, mul_zero]
  · rw [if_neg hi, zero_mul]

theorem euclideanNorm_edgeClick : euclideanNorm edgeClick = 1 := by
  have hterm : ∀ i : Fin frameSize, edgeClick i ^ 2 = if i = ⟨0, by decide⟩ then 1 else 0 := by
    intro i
    unfold edgeClick
    by_cases hi : i.val = 0
    · rw [if_pos hi, if_pos (Fin.ext hi), one_pow]
    · rw [if_neg hi, if_neg fun h => hi (congrArg Fin.val h), zero_pow two_ne_zero]
  unfold euclideanNorm
  rw [sum_congr rfl fun i _ => hterm i, sum_ite_eq', if_pos (mem_univ _), Real.sqrt_one]

/-- The window is zero there, so that nothing of the click is left. -/
theorem edge_click_not_transparent :
    ∃ X energy power out s,
      NoiseSuppressor.new.analyse edgeClick = some (X, energy, power) ∧
      NoiseSuppressor.new.process edgeClick = some (out, s) ∧
      ¬ Transparent power s.noisePsd edgeClick out := by
  obtain ⟨out, s, hprocess, h⟩ :=
    NoiseSuppressor.new.process_spec frameSize_le_fftSize edgeClick
  have hpsd := (Recorded.Sound.new.processed h).psd_pos
  refine ⟨_, _, _, out, s, NoiseSuppressor.analyse_eq_some _ _, hprocess, ?_⟩
  have hsilent : ∀ i, out i = 0 := by
    intro i
    rw [h.out_eq_filtered rfl, kept_edgeClick, filtered_zero]
  intro htransparent
  rw [transparent_iff rfl, euclideanNorm_edgeClick] at htransparent
  simp only [hsilent, sub_zero] at htransparent
  have hpos := (NoiseSuppressor.iInf_binGain_bounds hpsd edgeClick).1
  have hone := euclideanNorm_edgeClick
  unfold euclideanNorm at htransparent hone
  rw [hone] at htransparent
  linarith

def clickPair : Buffer frameSize ℝ := fun i =>
  if i.val = 79 then 1 else if i.val = 80 then -1 else 0

theorem sum_clickPair (f : Fin frameSize → ℝ → ℝ) (hf : ∀ i, f i 0 = 0) :
    ∑ i, f i (clickPair i) = f ⟨79, by decide⟩ 1 + f ⟨80, by decide⟩ (-1) := by
  rw [sum_eq_add_of_mem (⟨79, by decide⟩ : Fin frameSize) (⟨80, by decide⟩ : Fin frameSize)
    (mem_univ _) (mem_univ _) (by decide)]
  · rfl
  · intro i _ hi
    have h79 : i.val ≠ 79 := fun h => hi.1 (Fin.ext h)
    have h80 : i.val ≠ 80 := fun h => hi.2 (Fin.ext h)
    unfold clickPair
    rw [if_neg h79, if_neg h80, hf]

theorem hann_clickPair : hann ⟨79, by decide⟩ = hann ⟨80, by decide⟩ ∧
    1 / 2 ≤ hann ⟨80, by decide⟩ := by
  have hpi := Real.pi_pos
  unfold hann
  norm_num
  constructor
  · have hangle : 2 * Real.pi * 80 / 159 = 2 * Real.pi - 2 * Real.pi * 79 / 159 := by ring
    rw [hangle, Real.cos_two_pi_sub]
  · have hcos : Real.cos (2 * Real.pi * 80 / 159) ≤ 0 := by
      apply Real.cos_nonpos_of_pi_div_two_le_of_le
      · rw [div_le_div_iff₀ (by norm_num) (by norm_num)]
        linarith
      · rw [div_le_iff₀ (by norm_num)]
        linarith
    linarith

theorem padded_kept_clickPair (k : Fin fftSize) : padded (kept clickPair) k =
    if k.val = 79 then (hann ⟨80, by decide⟩ : ℂ)
    else if k.val = 80 then (-hann ⟨80, by decide⟩ : ℂ) else 0 := by
  unfold padded
  rcases Nat.lt_or_ge k.val frameSize with hk | hk
  · rw [Buffer.getD_of_lt _ _ hk]
    unfold kept clickPair
    dsimp only
    split
    · rename_i h79
      rw [h79, Buffer.getD_of_lt _ _ (by decide), hann_clickPair.1, one_mul]
    · split
      · rename_i h80
        rw [h80, Buffer.getD_of_lt _ _ (by decide)]
        push_cast
        ring
      · rw [zero_mul, Complex.ofReal_zero]
  · have hfar : 160 ≤ k.val := hk
    rw [Buffer.getD_of_le _ _ hk, if_neg (by omega), if_neg (by omega), Complex.ofReal_zero]

theorem lowest_bin_clickPair : (framePower hann clickPair).getD 0 0 = 0 := by
  have h := normSq_dft_kept clickPair ⟨0, by decide⟩
  dsimp only at h
  rw [Nat.min_eq_left (Nat.zero_le _)] at h
  rw [← h, Complex.normSq_eq_zero]
  unfold dft
  simp only [Nat.mul_zero, pow_zero, mul_one, padded_kept_clickPair]
  rw [sum_eq_add_of_mem (⟨79, by decide⟩ : Fin fftSize) (⟨80, by decide⟩ : Fin fftSize)
    (mem_univ _) (mem_univ _) (by decide)]
  · norm_num
  · intro k _ hk
    rw [if_neg fun h79 => hk.1 (Fin.ext h79), if_neg fun h80 => hk.2 (Fin.ext h80)]

/-- The lowest bin is empty, so its gain is the floor. -/
theorem clickPair_covered : NoiseSuppressor.new.Covered clickPair := by
  obtain ⟨hsame, hhalf⟩ := hann_clickPair
  have hone : hann ⟨80, by decide⟩ ≤ 1 := hann_le_one _
  have hnorm : euclideanNorm clickPair = Real.sqrt 2 := by
    unfold euclideanNorm
    rw [sum_clickPair (fun _ x => x ^ 2) fun _ => by norm_num]
    norm_num
  have hweights : hann.getD 0 79 = hann ⟨80, by decide⟩ ∧
      hann.getD 0 80 = hann ⟨80, by decide⟩ := by
    rw [Buffer.getD_of_lt _ _ (by decide), Buffer.getD_of_lt _ _ (by decide)]
    exact ⟨hsame, rfl⟩
  have hcut : cutNorm clickPair ≤ Real.sqrt 2 / 2 := by
    have hsum := sum_clickPair (fun i x => (x - x * hann.getD 0 i) ^ 2) fun _ => by norm_num
    dsimp only at hsum
    rw [hweights.1, hweights.2] at hsum
    have hsq : ∑ i, (clickPair i - kept clickPair i) ^ 2 ≤ 2 * (1 / 2) ^ 2 := by
      apply hsum.trans_le
      nlinarith
    have hle := Real.sqrt_le_sqrt hsq
    rw [Real.sqrt_mul zero_le_two, Real.sqrt_sq one_half_pos.le] at hle
    exact hle.trans (by linarith)
  have htaken : NoiseSuppressor.new.takenNorm clickPair ≤ 2 / 5 := by
    have hsum := sum_clickPair (fun i x => (x * hann.getD 0 i) ^ 2) fun _ => by norm_num
    dsimp only at hsum
    rw [hweights.1, hweights.2] at hsum
    have hkept : ∑ i, kept clickPair i ^ 2 ≤ 2 := by
      apply hsum.trans_le
      nlinarith
    have hpsd : ∀ k, NoiseSuppressor.new.noisePsd k ≤ 1e-6 := fun _ => le_rfl
    have hsq := NoiseSuppressor.takenNorm_sq_le Recorded.Sound.new.psd_pos hpsd clickPair
    apply (pow_le_pow_iff_left₀ (Real.sqrt_nonneg _) (by norm_num) two_ne_zero).mp
    apply hsq.trans
    norm_num
    linarith
  have hgain : ⨅ k : Fin halfFft, NoiseSuppressor.new.upperGain clickPair k ≤ 0.05 := by
    have hfirst : ⨅ k : Fin halfFft, NoiseSuppressor.new.upperGain clickPair k ≤
        NoiseSuppressor.new.upperGain clickPair 0 :=
      ciInf_le (Set.finite_range _).bddBelow (⟨0, by decide⟩ : Fin halfFft)
    apply hfirst.trans
    unfold NoiseSuppressor.upperGain
    rw [lowest_bin_clickPair, Buffer.getD_of_lt _ _ (by decide), Buffer.getD_of_lt _ _ (by decide)]
    have hpower : 0 ≤ framePower hann clickPair ⟨0, by decide⟩ := binPower_nonneg _ _ _
    have hmin : (0.95e-6 : ℝ) ≤ min (NoiseSuppressor.new.noisePsd ⟨0, by decide⟩)
        (NoiseSuppressor.blended NoiseSuppressor.new.noisePsd (framePower hann clickPair)
          ⟨0, by decide⟩) := by
      unfold NoiseSuppressor.blended NoiseSuppressor.new noiseAlpha
      apply le_min
      · norm_num
      · norm_num
        linarith
    refine (gain_of_masked le_rfl ?_).le
    have hover := mul_le_mul_of_nonneg_left hmin (show 0 ≤ overSubtract by
      unfold overSubtract
      norm_num)
    apply le_trans _ hover
    unfold overSubtract
    norm_num
  have hroot : (1.4 : ℝ) ≤ Real.sqrt 2 := by
    apply Real.le_sqrt_of_sq_le
    norm_num
  unfold NoiseSuppressor.Covered
  rw [hnorm]
  nlinarith

end

end Roomsync.Pipeline.Noise
