import Roomsync.Pipeline.Noise.Suppressor
import Mathlib.Algebra.BigOperators.Intervals
/-!
# What the steps of the noise suppressor compute

The spectrum of a frame is the transform of its windowed samples, and what the gains
leave of it scales each bin and its mirror image alike.
-/

namespace Roomsync.Pipeline.Noise

open Roomsync.Lib
open ComplexConjugate
open Finset

theorem fftSize_eq : fftSize = 512 := rfl

theorem halfFft_eq : halfFft = 257 := rfl

theorem frameSize_le_fftSize : frameSize ≤ fftSize := by
  unfold frameSize fftSize
  omega

theorem fftSize_eq_two_pow : fftSize = 2 ^ 9 := by
  rw [fftSize_eq]
  norm_num

noncomputable section

variable {n : ℕ}

/-! ## The spectrum of a frame -/

/-- Sample `i` of the windowed frame, zero from the end of the frame on. -/
def weighted (hannWin : Buffer 160 ℝ) (frame : Buffer n ℝ) (i : ℕ) : ℝ :=
  frame.getD 0 i * hannWin.getD 0 i

def spectrum (hannWin : Buffer 160 ℝ) (frame : Buffer n ℝ) : Buffer fftSize ℂ :=
  dft (rootOf fftSize) fun i => (weighted hannWin frame i : ℂ)

def binPower (hannWin : Buffer 160 ℝ) (frame : Buffer n ℝ) (k : ℕ) : ℝ :=
  Complex.normSq ((spectrum hannWin frame).getD 0 k)

def framePower (hannWin : Buffer 160 ℝ) (frame : Buffer n ℝ) : Buffer halfFft ℝ :=
  fun k => binPower hannWin frame k

def frameEnergy (hannWin : Buffer 160 ℝ) (frame : Buffer n ℝ) : ℝ :=
  ∑ k ∈ range halfFft, binPower hannWin frame k

theorem binPower_nonneg (hannWin : Buffer 160 ℝ) (frame : Buffer n ℝ) (k : ℕ) :
    0 ≤ binPower hannWin frame k :=
  Complex.normSq_nonneg _

theorem spectrum_symmetric (hannWin : Buffer 160 ℝ) (frame : Buffer n ℝ) :
    ConjSymmetric (spectrum hannWin frame) :=
  conjSymmetric_dft fun _ => Complex.conj_ofReal _

def Mirrored (X : Buffer fftSize ℂ) : Prop :=
  ∀ k l, 0 < k → 0 < l → k + l = fftSize → conj (X.getD 0 k) = X.getD 0 l

theorem spectrum_mirrored (hannWin : Buffer 160 ℝ) (frame : Buffer n ℝ) :
    Mirrored (spectrum hannWin frame) := by
  intro k l hk hl hkl
  rw [Buffer.getD_of_lt _ _ (show k < fftSize by omega),
    Buffer.getD_of_lt _ _ (show l < fftSize by omega)]
  exact spectrum_symmetric hannWin frame _ _ ⟨1, hkl.trans (Nat.mul_one _).symm⟩

namespace NoiseSuppressor

theorem windowed_eq_some (s : NoiseSuppressor) (frame : Buffer n ℝ) :
    s.windowed frame = some fun i : Fin fftSize => (weighted s.hannWin frame i : ℂ) := by
  have hsize : min n 160 ≤ fftSize := by
    rw [fftSize_eq]
    omega
  have hpass : ∀ i X, i < min n 160 → X.read i = some 0 →
      s.windowPass frame i X = X.write i (weighted s.hannWin frame i) := by
    intro i X hi _
    unfold windowPass
    rw [(frame.holds_getD 0).read (by omega), (s.hannWin.holds_getD 0).read (by omega)]
    rfl
  have hstart : Buffer.Holds (fun _ => 0 : Buffer fftSize ℂ) fun _ => 0 := fun _ _ => rfl
  obtain ⟨X, hloop, hX⟩ := Buffer.Holds.forLoop_write hsize hpass hstart
  unfold windowed
  rw [hloop, hX.eq]
  congr 1
  ext i
  split
  · rfl
  · rename_i hi
    rcases Nat.lt_or_ge i.val n with hin | hin
    · rw [weighted, Buffer.getD_of_le s.hannWin _ (by omega), mul_zero, Complex.ofReal_zero]
    · rw [weighted, Buffer.getD_of_le frame _ hin, zero_mul, Complex.ofReal_zero]

theorem powerSpectrum_eq_some (X : Buffer fftSize ℂ) :
    powerSpectrum X = some (∑ k ∈ range halfFft, Complex.normSq (X.getD 0 k),
      fun k : Fin halfFft => Complex.normSq (X.getD 0 k)) := by
  let I (k : ℕ) (acc : ℝ × Buffer halfFft ℝ) : Prop :=
    acc.1 = ∑ j ∈ range k, Complex.normSq (X.getD 0 j) ∧
      acc.2.Holds fun j => if j < k then Complex.normSq (X.getD 0 j) else 0
  have hpass : ∀ k acc, k < halfFft → I k acc →
      ∃ acc', powerPass X k acc = some acc' ∧ I (k + 1) acc' := by
    rintro k ⟨energy, power⟩ hk ⟨hsum, hpower⟩
    have hbin : k < fftSize := by
      rw [halfFft_eq] at hk
      rw [fftSize_eq]
      omega
    obtain ⟨power', hwrite, hpower'⟩ := hpower.write_below hk
    have hread := hpower'.read hk
    rw [if_pos (Nat.lt_succ_self k)] at hread
    refine ⟨(energy + Complex.normSq (X.getD 0 k), power'), ?_, ?_, hpower'⟩
    · unfold powerPass
      simp only [(X.holds_getD 0).read hbin, hwrite, hread, Option.bind_eq_bind,
        Option.bind_some, Option.pure_def]
    · rw [sum_range_succ, ← hsum]
  have hstart : I 0 (0, fun _ => 0) := ⟨(sum_range_zero _).symm, fun _ _ => rfl⟩
  obtain ⟨acc, hloop, hsum, hpower⟩ :=
    forLoop_succ_invariant hpass (Nat.zero_le halfFft) hstart
  unfold powerSpectrum
  rw [hloop]
  congr 1
  refine Prod.ext hsum ?_
  rw [hpower.eq]
  ext k
  exact if_pos k.isLt

theorem analyse_eq_some (s : NoiseSuppressor) (frame : Buffer n ℝ) :
    s.analyse frame = some (spectrum s.hannWin frame, frameEnergy s.hannWin frame,
      framePower s.hannWin frame) := by
  unfold analyse
  rw [windowed_eq_some, Option.bind_eq_bind, Option.bind_some,
    radix2Fft_twiddle fftSize_eq_two_pow (by omega), Option.bind_eq_bind, Option.bind_some]
  change (powerSpectrum (spectrum s.hannWin frame)).bind _ = _
  rw [powerSpectrum_eq_some]
  rfl

/-! ## The noise estimate -/

theorem noiseEnergy_eq_some (s : NoiseSuppressor) :
    s.noiseEnergy = some (∑ k ∈ range halfFft, s.noisePsd.getD 0 k) := by
  let I (k : ℕ) (energy : ℝ) : Prop := energy = ∑ j ∈ range k, s.noisePsd.getD 0 j
  have hpass : ∀ k energy, k < halfFft → I k energy →
      ∃ energy', s.noiseEnergyPass k energy = some energy' ∧ I (k + 1) energy' := by
    rintro k _ hk rfl
    refine ⟨_, ?_, (sum_range_succ _ k).symm⟩
    unfold noiseEnergyPass
    rw [(s.noisePsd.holds_getD 0).read hk]
    rfl
  obtain ⟨energy, hloop, hsum⟩ :=
    forLoop_succ_invariant hpass (Nat.zero_le halfFft) (sum_range_zero _).symm
  unfold noiseEnergy
  rw [hloop, hsum]

theorem detectNoise_spec (s : NoiseSuppressor) (frameEnergy : ℝ) :
    ∃ isNoise initCount,
      s.detectNoise frameEnergy = some (isNoise, { s with initCount }) := by
  unfold detectNoise
  split
  · exact ⟨true, s.initCount + 1, rfl⟩
  · rw [noiseEnergy_eq_some]
    exact ⟨_, s.initCount, rfl⟩

def blended (noisePsd power : Buffer halfFft ℝ) : Buffer halfFft ℝ := fun k =>
  noiseAlpha * noisePsd k + (1 - noiseAlpha) * power k

theorem updateNoise_eq_some {s t : NoiseSuppressor} {frameEnergy : ℝ} {isNoise : Bool}
    (hdetect : s.detectNoise frameEnergy = some (isNoise, t)) (power : Buffer halfFft ℝ) :
    s.updateNoise frameEnergy power =
      some (if isNoise then { t with noisePsd := blended t.noisePsd power } else t) := by
  unfold updateNoise
  rw [hdetect]
  cases isNoise with
  | false => rfl
  | true =>
      have hpass : ∀ k psd, k < halfFft → psd.read k = some (t.noisePsd.getD 0 k) →
          psdPass power k psd =
            psd.write k (noiseAlpha * t.noisePsd.getD 0 k + (1 - noiseAlpha) * power.getD 0 k) := by
        intro k psd hk hread
        unfold psdPass
        rw [hread, (power.holds_getD 0).read hk]
        rfl
      obtain ⟨psd, hloop, hpsd⟩ :=
        Buffer.Holds.forLoop_write le_rfl hpass (t.noisePsd.holds_getD 0)
      have hblend : psd = blended t.noisePsd power := by
        rw [hpsd.eq]
        ext k
        rw [if_pos k.isLt, Buffer.getD_of_lt _ _ k.isLt, Buffer.getD_of_lt _ _ k.isLt]
        rfl
      simp only [if_true, hloop, hblend, Option.bind_eq_bind, Option.bind_some, Option.pure_def]

theorem updateNoise_spec (s : NoiseSuppressor) (frameEnergy : ℝ) (power : Buffer halfFft ℝ) :
    ∃ t, s.updateNoise frameEnergy power = some t ∧
      t.hannWin = s.hannWin ∧ t.reductionDb = s.reductionDb ∧
      (t.noisePsd = s.noisePsd ∨
        t.noisePsd = fun k => noiseAlpha * s.noisePsd k + (1 - noiseAlpha) * power k) := by
  obtain ⟨isNoise, initCount, hdetect⟩ := s.detectNoise_spec frameEnergy
  refine ⟨_, updateNoise_eq_some hdetect power, ?_⟩
  cases isNoise with
  | false => exact ⟨rfl, rfl, Or.inl rfl⟩
  | true => exact ⟨rfl, rfl, Or.inr rfl⟩

/-! ## The gains -/

section Gains

variable {s : NoiseSuppressor} {power : Buffer halfFft ℝ} {X : Buffer fftSize ℂ}

def binGain (s : NoiseSuppressor) (power : Buffer halfFft ℝ) (k : ℕ) : ℝ :=
  gain (power.getD 0 k) (s.noisePsd.getD 0 k)

def outPower (s : NoiseSuppressor) (power : Buffer halfFft ℝ) (k : ℕ) : ℝ :=
  ∑ j ∈ range k, s.binGain power j * s.binGain power j * power.getD 0 j

/-- Bin `i` before the pass of `k`: scaled, if it or its mirror image is below `k`. -/
def scaledBelow (s : NoiseSuppressor) (power : Buffer halfFft ℝ) (X : Buffer fftSize ℂ)
    (k i : ℕ) : ℂ :=
  if min i (fftSize - i) < k then X.getD 0 i * s.binGain power (min i (fftSize - i))
  else X.getD 0 i

theorem scaledBelow_succ_of_ne {k i : ℕ} (hi : min i (fftSize - i) ≠ k) :
    s.scaledBelow power X (k + 1) i = s.scaledBelow power X k i := by
  unfold scaledBelow
  by_cases hlt : min i (fftSize - i) < k
  · rw [if_pos hlt, if_pos (by omega)]
  · rw [if_neg hlt, if_neg (by omega)]

theorem scaledBelow_succ_of_eq {k i : ℕ} (hi : min i (fftSize - i) = k) :
    s.scaledBelow power X (k + 1) i = X.getD 0 i * s.binGain power k := by
  unfold scaledBelow
  rw [if_pos (by omega), hi]

theorem update_scaledBelow {k i : ℕ} (hk : k < halfFft)
    (hi : i = k ∨ min i (fftSize - i) ≠ k) :
    Function.update (s.scaledBelow power X k) k (X.getD 0 k * s.binGain power k) i =
      s.scaledBelow power X (k + 1) i := by
  have hfft := fftSize_eq
  have hhalf := halfFft_eq
  by_cases hik : i = k
  · subst hik
    rw [Function.update_self, scaledBelow_succ_of_eq (by omega)]
  · rw [Function.update_of_ne hik, scaledBelow_succ_of_ne (by omega)]

theorem gainPass_spec (hX : Mirrored X) {k : ℕ} (hk : k < halfFft)
    {acc : ℝ × Buffer fftSize ℂ} (hsum : acc.1 = s.outPower power k)
    (hacc : acc.2.Holds (s.scaledBelow power X k)) :
    ∃ Y, s.gainPass power k acc = some (s.outPower power (k + 1), Y) ∧
      Y.Holds (s.scaledBelow power X (k + 1)) := by
  have hfft := fftSize_eq
  have hhalf := halfFft_eq
  have hold : s.scaledBelow power X k k = X.getD 0 k := by
    unfold scaledBelow
    rw [if_neg (by omega)]
  have hread := hacc.read (i := k) (by omega)
  rw [hold] at hread
  obtain ⟨Y, hwrite, hY⟩ := hacc.write (i := k) (by omega) (X.getD 0 k * s.binGain power k)
  have htotal : acc.1 + s.binGain power k * s.binGain power k * power.getD 0 k =
      s.outPower power (k + 1) := by
    unfold outPower
    rw [sum_range_succ, hsum]
    rfl
  unfold gainPass
  rw [(power.holds_getD 0).read hk, Option.bind_eq_bind, Option.bind_some,
    (s.noisePsd.holds_getD 0).read hk, Option.bind_eq_bind, Option.bind_some]
  change ∃ Y, (acc.2.read k).bind _ = _ ∧ _
  rw [hread, Option.bind_some]
  change ∃ Z, (acc.2.write k (X.getD 0 k * s.binGain power k)).bind _ = _ ∧ _
  rw [hwrite, Option.bind_some]
  by_cases hmirror : 0 < k ∧ k < fftSize / 2
  · have hreadY := hY.read (i := k) (by omega)
    have hconj : conj (X.getD 0 k * s.binGain power k) =
        X.getD 0 (fftSize - k) * s.binGain power k := by
      rw [map_mul, Complex.conj_ofReal, hX k (fftSize - k) hmirror.1 (by omega) (by omega)]
    obtain ⟨Z, hwriteZ, hZ⟩ := hY.write (i := fftSize - k) (by omega)
      (conj (X.getD 0 k * s.binGain power k))
    rw [Function.update_self] at hreadY
    refine ⟨Z, ?_, hZ.congr fun i hi => ?_⟩
    · rw [if_pos hmirror, hreadY, Option.bind_eq_bind, Option.bind_some, hwriteZ,
        ← htotal]
      rfl
    · by_cases himage : i = fftSize - k
      · subst himage
        rw [Function.update_self, hconj, scaledBelow_succ_of_eq (by omega)]
      · rw [Function.update_of_ne himage, update_scaledBelow hk (by omega)]
  · refine ⟨Y, ?_, hY.congr fun i hi => update_scaledBelow hk (by omega)⟩
    rw [if_neg hmirror, ← htotal]
    rfl

theorem gainLoop_eq_some (hX : Mirrored X) :
    forLoop (· + 1) halfFft (s.gainPass power) 0 (0, X) = some (s.outPower power halfFft,
      fun i : Fin fftSize => X i * s.binGain power (min i (fftSize - i))) := by
  have hfft := fftSize_eq
  have hhalf := halfFft_eq
  let I (k : ℕ) (acc : ℝ × Buffer fftSize ℂ) : Prop :=
    acc.1 = s.outPower power k ∧ acc.2.Holds (s.scaledBelow power X k)
  have hpass : ∀ k acc, k < halfFft → I k acc →
      ∃ acc', s.gainPass power k acc = some acc' ∧ I (k + 1) acc' := by
    rintro k acc hk ⟨hsum, hacc⟩
    obtain ⟨Y, hpass, hY⟩ := gainPass_spec hX hk hsum hacc
    exact ⟨_, hpass, rfl, hY⟩
  have hstart : I 0 (0, X) := ⟨(sum_range_zero _).symm, (X.holds_getD 0).congr fun _ _ => rfl⟩
  obtain ⟨⟨total, Y⟩, hloop, hsum, hY⟩ :=
    forLoop_succ_invariant hpass (Nat.zero_le halfFft) hstart
  dsimp only at hsum
  have hend : Y.Holds fun i => X.getD 0 i * s.binGain power (min i (fftSize - i)) :=
    hY.congr fun i _ => if_pos (by omega)
  rw [hloop, hsum, hend.eq]
  apply congrArg fun Y => some (s.outPower power halfFft, Y)
  ext i
  rw [Buffer.getD_of_lt _ _ i.isLt]

theorem nyquist_real (hX : Mirrored X) :
    ((X.read (fftSize / 2)).bind fun nyquist => X.write (fftSize / 2) ⟨nyquist.re, 0⟩) =
      some X := by
  have hfft := fftSize_eq
  have hread := (X.holds_getD 0).read (i := fftSize / 2) (by omega)
  have hself := hX (fftSize / 2) (fftSize / 2) (by omega) (by omega) (by omega)
  have hreal : (⟨(X.getD 0 (fftSize / 2)).re, 0⟩ : ℂ) = X.getD 0 (fftSize / 2) :=
    Complex.conj_eq_iff_re.mp hself
  rw [hread, Option.bind_some, hreal]
  exact Buffer.write_of_read hread

theorem mirrored_scaled (hX : Mirrored X) : Mirrored fun i : Fin fftSize =>
    X i * s.binGain power (min i (fftSize - i)) := by
  intro k l hk hl hkl
  have hconj := hX k l hk hl hkl
  have hplace : min k (fftSize - k) = min l (fftSize - l) := by omega
  rw [Buffer.getD_of_lt X _ (by omega), Buffer.getD_of_lt X _ (by omega)] at hconj
  rw [Buffer.getD_of_lt _ _ (by omega), Buffer.getD_of_lt _ _ (by omega), map_mul,
    Complex.conj_ofReal, hconj, hplace]

theorem applyGains_eq_some (hX : Mirrored X) :
    s.applyGains power X = some (s.outPower power halfFft,
      fun i : Fin fftSize => X i * s.binGain power (min i (fftSize - i))) := by
  have hmirrored : Mirrored fun i : Fin fftSize =>
      X i * s.binGain power (min i (fftSize - i)) := mirrored_scaled hX
  obtain ⟨nyquist, hread, hwrite⟩ := Option.bind_eq_some_iff.mp (nyquist_real hmirrored)
  unfold applyGains
  rw [gainLoop_eq_some hX, Option.bind_eq_bind, Option.bind_some]
  dsimp only
  rw [hread, Option.bind_eq_bind, Option.bind_some, hwrite]
  rfl

end Gains

/-! ## A whole call -/

def denoised (s : NoiseSuppressor) (frame : Buffer n ℝ) : Buffer fftSize ℂ := fun i =>
  spectrum s.hannWin frame i * s.binGain (framePower s.hannWin frame) (min i (fftSize - i))

/-- The real parts of the entries that the bins stand for. -/
def samples (X : Buffer fftSize ℂ) (i : ℕ) : ℝ := (Buffer.getD (idft X) 0 i).re

theorem denoised_silent {frame : Buffer n ℝ} (hframe : ∀ i, frame i = 0) (s : NoiseSuppressor) :
    s.denoised frame = fun _ => 0 := by
  have hweighted : ∀ i, weighted s.hannWin frame i = 0 := by
    intro i
    unfold weighted
    rw [Buffer.getD_of_const hframe, zero_mul]
  ext i
  unfold denoised spectrum
  simp only [hweighted, Complex.ofReal_zero, dft_zero, zero_mul]

theorem samples_zero (i : ℕ) : samples (fun _ => 0) i = 0 := by
  unfold samples
  rw [Buffer.getD_of_const (fun j : Fin fftSize => idft_zero j), Complex.zero_re]

theorem synthesise_eq_some (hn : n ≤ fftSize) (frame : Buffer n ℝ) (X : Buffer fftSize ℂ) :
    synthesise frame X = some fun i : Fin n => samples X i := by
  have hpass : ∀ i (out : Buffer n ℝ), i < n → out.read i = some (frame.getD 0 i) →
      outPass (idft X) i out = out.write i (samples X i) := by
    intro i out hi _
    unfold outPass
    rw [(Buffer.holds_getD (idft X) 0).read (by omega)]
    rfl
  obtain ⟨out, hloop, hout⟩ :=
    Buffer.Holds.forLoop_write le_rfl hpass (frame.holds_getD 0)
  unfold synthesise
  rw [radix2Ifft_eq_some fftSize_eq_two_pow (by omega), Option.bind_eq_bind, Option.bind_some,
    hloop, hout.eq]
  congr 1
  ext i
  exact if_pos i.isLt

theorem outPower_congr {s t : NoiseSuppressor} (hpsd : s.noisePsd = t.noisePsd) :
    s.outPower = t.outPower := by
  unfold outPower binGain
  rw [hpsd]

theorem denoised_congr {s t : NoiseSuppressor} (hwindow : s.hannWin = t.hannWin)
    (hpsd : s.noisePsd = t.noisePsd) (frame : Buffer n ℝ) :
    s.denoised frame = t.denoised frame := by
  unfold denoised binGain
  rw [hwindow, hpsd]

/-- What a call returns and leaves, by the spectrum of its frame. -/
structure Processed (s : NoiseSuppressor) (frame out : Buffer n ℝ) (s' : NoiseSuppressor) :
    Prop where
  hannWin : s'.hannWin = s.hannWin
  noisePsd : s'.noisePsd = s.noisePsd ∨ s'.noisePsd = fun k =>
    noiseAlpha * s.noisePsd k + (1 - noiseAlpha) * framePower s.hannWin frame k
  out : out = fun i : Fin n => samples (s'.denoised frame) i
  reductionDb : s'.reductionDb = s.reductionDb ∨ s'.reductionDb =
    10 * Real.logb 10 ((frameEnergy s.hannWin frame + 1e-12) /
      (s'.outPower (framePower s.hannWin frame) halfFft + 1e-12))

theorem process_eq_some {s t : NoiseSuppressor} (hn : n ≤ fftSize) {frame : Buffer n ℝ}
    (hupdate : s.updateNoise (frameEnergy s.hannWin frame) (framePower s.hannWin frame) = some t)
    (hwindow : t.hannWin = s.hannWin) :
    s.process frame = some (fun i : Fin n => samples (t.denoised frame) i,
      if frameEnergy s.hannWin frame > 1e-12 then
        { t with reductionDb := 10 * Real.logb 10 ((frameEnergy s.hannWin frame + 1e-12) /
          (t.outPower (framePower s.hannWin frame) halfFft + 1e-12)) }
      else t) := by
  have hgains : t.applyGains (framePower s.hannWin frame) (spectrum s.hannWin frame) =
      some (t.outPower (framePower s.hannWin frame) halfFft, t.denoised frame) := by
    rw [applyGains_eq_some (spectrum_mirrored s.hannWin frame)]
    unfold denoised
    rw [hwindow]
  have hout := synthesise_eq_some hn frame (t.denoised frame)
  unfold process
  rw [analyse_eq_some, Option.bind_eq_bind, Option.bind_some]
  dsimp only
  rw [hupdate, Option.bind_eq_bind, Option.bind_some, hgains, Option.bind_eq_bind,
    Option.bind_some]
  dsimp only
  rw [hout, Option.bind_eq_bind, Option.bind_some]
  split <;> rfl

theorem process_spec (s : NoiseSuppressor) (hn : n ≤ fftSize) (frame : Buffer n ℝ) :
    ∃ out s', s.process frame = some (out, s') ∧ Processed s frame out s' := by
  obtain ⟨t, hupdate, hwindow, hreduction, hpsd⟩ :=
    s.updateNoise_spec (frameEnergy s.hannWin frame) (framePower s.hannWin frame)
  refine ⟨_, _, process_eq_some hn hupdate hwindow, ?_⟩
  split
  · generalize hvalue : 10 * Real.logb 10 (_ / _) = value
    refine ⟨hwindow, hpsd, ?_, Or.inr ?_⟩
    · rw [denoised_congr (s := { t with reductionDb := value }) (t := t) rfl rfl]
    · rw [outPower_congr (s := { t with reductionDb := value }) (t := t) rfl]
      exact hvalue.symm
  · exact ⟨hwindow, hpsd, rfl, Or.inl hreduction⟩

/-- What a call does to the estimate is what it takes the frame for. -/
theorem process_of_detectNoise {s t : NoiseSuppressor} (hn : n ≤ fftSize) {frame : Buffer n ℝ}
    {isNoise : Bool}
    (hdetect : s.detectNoise (frameEnergy s.hannWin frame) = some (isNoise, t)) :
    ∃ out s', s.process frame = some (out, s') ∧ s'.hannWin = s.hannWin ∧
      s'.initCount = t.initCount ∧
      s'.noisePsd =
        if isNoise then blended s.noisePsd (framePower s.hannWin frame) else s.noisePsd := by
  obtain ⟨b, initCount, hspec⟩ := s.detectNoise_spec (frameEnergy s.hannWin frame)
  rw [hspec] at hdetect
  obtain ⟨rfl, rfl⟩ := Prod.mk.inj (Option.some.inj hdetect)
  have hupdate := updateNoise_eq_some hspec (framePower s.hannWin frame)
  cases b with
  | false =>
      refine ⟨_, _, process_eq_some hn hupdate rfl, ?_⟩
      split <;> exact ⟨rfl, rfl, rfl⟩
  | true =>
      refine ⟨_, _, process_eq_some hn hupdate rfl, ?_⟩
      split <;> exact ⟨rfl, rfl, rfl⟩

end NoiseSuppressor

end

end Roomsync.Pipeline.Noise
