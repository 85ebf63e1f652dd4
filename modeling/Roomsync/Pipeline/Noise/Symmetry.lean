import Roomsync.Pipeline.Noise.Spectrum
/-!
# What the imaginary parts hold

The gains scale a bin and its mirror image alike, so that the spectrum stays that of real
samples, and taking real parts after the inverse transform drops nothing.
-/

namespace Roomsync.Pipeline.Noise

open Roomsync.Lib
open ComplexConjugate

noncomputable section

variable {n : ℕ}

namespace NoiseSuppressor

theorem scaled_symmetric (s : NoiseSuppressor) (power : Buffer halfFft ℝ)
    {X : Buffer fftSize ℂ} (hX : ConjSymmetric X) :
    ConjSymmetric fun i : Fin fftSize => X i * s.binGain power (min i (fftSize - i)) := by
  intro k l hkl
  have hplace : min k.val (fftSize - k) = min l.val (fftSize - l) := by
    obtain ⟨c, hc⟩ := hkl
    have hfft := fftSize_eq
    have hk := k.isLt
    have hl := l.isLt
    have hc' : k.val + l.val = 512 * c := hc
    omega
  rw [map_mul, Complex.conj_ofReal, hX k l hkl, hplace]

/-- `Y` is the spectrum of the frame under the gains of the powers, and of real samples. -/
structure RealScaled (s : NoiseSuppressor) (hannWin : Buffer 160 ℝ) (frame : Buffer n ℝ)
    (power : Buffer halfFft ℝ) (Y : Buffer fftSize ℂ) : Prop where
  bins : ∀ k : Fin fftSize, Y k =
    gain (power.getD 0 (min k (fftSize - k))) (s.noisePsd.getD 0 (min k (fftSize - k))) *
      dft (rootOf fftSize) (fun i => (weighted hannWin frame i : ℂ)) k
  symmetric : ConjSymmetric Y
  nyquist : ((Y.read (fftSize / 2)).bind fun nyquist =>
    Y.write (fftSize / 2) ⟨nyquist.re, 0⟩) = some Y
  inverse : ∃ x, radix2Ifft Y = some x ∧ ∀ i, (x i).im = 0

/-- Whatever the estimate `t` that the gain loop meets, it leaves the scaled spectrum of the
frame, symmetric, and nothing imaginary is lost from there on. -/
theorem gainLoop_real (s : NoiseSuppressor) (frame : Buffer n ℝ) :
    ∃ X frameEnergy power, s.analyse frame = some (X, frameEnergy, power) ∧
      (∃ t, s.updateNoise frameEnergy power = some t) ∧
      ∀ t : NoiseSuppressor, ∃ outPwrTotal Y,
        forLoop (· + 1) halfFft (t.gainPass power) 0 (0, X) = some (outPwrTotal, Y) ∧
          t.RealScaled s.hannWin frame power Y := by
  obtain ⟨t₀, hupdate, -⟩ :=
    s.updateNoise_spec (frameEnergy s.hannWin frame) (framePower s.hannWin frame)
  refine ⟨_, _, _, s.analyse_eq_some frame, ⟨t₀, hupdate⟩, ?_⟩
  intro t
  have hmirrored := spectrum_mirrored s.hannWin frame
  have hsymmetric := t.scaled_symmetric (framePower s.hannWin frame)
    (spectrum_symmetric s.hannWin frame)
  refine ⟨_, _, gainLoop_eq_some hmirrored, ?_, hsymmetric, ?_, ?_⟩
  · intro k
    exact mul_comm _ _
  · exact nyquist_real (mirrored_scaled hmirrored)
  · refine ⟨_, radix2Ifft_eq_some fftSize_eq_two_pow (by omega) _, ?_⟩
    intro i
    exact Complex.conj_eq_iff_im.mp (conj_idft_of_symmetric hsymmetric i)

end NoiseSuppressor

end

end Roomsync.Pipeline.Noise
