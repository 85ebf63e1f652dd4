import Roomsync.Pipeline.Noise.Fft
import Mathlib.Analysis.SpecialFunctions.Log.Base
import Mathlib.Analysis.SpecialFunctions.Sqrt
/-!
# The noise suppressor

`NoiseSuppressor` of `noise_suppressor.cpp`, on the path without an ONNX model: spectral
subtraction against a noise estimate that follows the frames found to be noise.
-/

namespace Roomsync.Pipeline.Noise

open Roomsync.Lib
open ComplexConjugate

def frameSize : ℕ := 160

def fftSize : ℕ := 512
def halfFft : ℕ := fftSize / 2 + 1
def initFrames : ℕ := 5

noncomputable section

def overSubtract : ℝ := 1.5
def specFloor : ℝ := 0.05
def noiseAlpha : ℝ := 0.95
def vadSnrThresh : ℝ := 3

/-- `reduction_db_` next to the fields of `Impl`. -/
structure NoiseSuppressor where
  noisePsd : Buffer halfFft ℝ
  hannWin : Buffer 160 ℝ
  initCount : ℕ
  reductionDb : ℝ

/-- The analysis window that the constructor fills in. -/
def hann : Buffer 160 ℝ := fun i => 0.5 * (1 - Real.cos (2.0 * Real.pi * i / (160 - 1)))

def gain (power noise : ℝ) : ℝ :=
  let pwr := power + 1e-12
  max specFloor (Real.sqrt (max 0 (1 - overSubtract * noise / pwr)))

namespace NoiseSuppressor

def new : NoiseSuppressor where
  noisePsd := fun _ => 1e-6
  hannWin := hann
  initCount := 0
  reductionDb := 0

def reset (s : NoiseSuppressor) : NoiseSuppressor :=
  { s with noisePsd := fun _ => 1e-6, initCount := 0, reductionDb := 0 }

variable {n : ℕ}

/-! ## The steps of `process` -/

def windowPass (s : NoiseSuppressor) (frame : Buffer n ℝ) (i : ℕ) (X : Buffer fftSize ℂ) :
    Option (Buffer fftSize ℂ) := do
  let sample ← frame.read i
  let weight ← s.hannWin.read i
  X.write i ⟨sample * weight, 0⟩

def windowed (s : NoiseSuppressor) (frame : Buffer n ℝ) : Option (Buffer fftSize ℂ) :=
  let winLen := min n 160
  forLoop (· + 1) winLen (s.windowPass frame) 0 fun _ => 0

def powerPass (X : Buffer fftSize ℂ) (k : ℕ) (acc : ℝ × Buffer halfFft ℝ) :
    Option (ℝ × Buffer halfFft ℝ) := do
  let bin ← X.read k
  let power ← acc.2.write k (Complex.normSq bin)
  let p ← power.read k
  return (acc.1 + p, power)

def powerSpectrum (X : Buffer fftSize ℂ) : Option (ℝ × Buffer halfFft ℝ) :=
  forLoop (· + 1) halfFft (powerPass X) 0 (0, fun _ => 0)

/-- Steps 1 to 3: the spectrum of a frame, with its energy and its powers. -/
def analyse (s : NoiseSuppressor) (frame : Buffer n ℝ) :
    Option (Buffer fftSize ℂ × ℝ × Buffer halfFft ℝ) := do
  let X ← s.windowed frame
  let X ← radix2Fft twiddle X
  let power ← powerSpectrum X
  return (X, power)

def noiseEnergyPass (s : NoiseSuppressor) (k : ℕ) (noiseEnergy : ℝ) : Option ℝ := do
  let psd ← s.noisePsd.read k
  return noiseEnergy + psd

def noiseEnergy (s : NoiseSuppressor) : Option ℝ :=
  forLoop (· + 1) halfFft s.noiseEnergyPass 0 0

/-- `is_noise`: the first frames, then those of a low ratio to the estimate. -/
def detectNoise (s : NoiseSuppressor) (frameEnergy : ℝ) : Option (Bool × NoiseSuppressor) :=
  if s.initCount < initFrames then some (true, { s with initCount := s.initCount + 1 })
  else do
    let noiseEnergy ← s.noiseEnergy
    let snrDb := 10 * Real.logb 10 ((frameEnergy + 1e-12) / (noiseEnergy + 1e-12))
    return (decide (snrDb < vadSnrThresh), s)

def psdPass (power : Buffer halfFft ℝ) (k : ℕ) (noisePsd : Buffer halfFft ℝ) :
    Option (Buffer halfFft ℝ) := do
  let psd ← noisePsd.read k
  let p ← power.read k
  noisePsd.write k (noiseAlpha * psd + (1 - noiseAlpha) * p)

/-- Step 4. -/
def updateNoise (s : NoiseSuppressor) (frameEnergy : ℝ) (power : Buffer halfFft ℝ) :
    Option NoiseSuppressor := do
  let (isNoise, s) ← s.detectNoise frameEnergy
  if isNoise then
    let noisePsd ← forLoop (· + 1) halfFft (psdPass power) 0 s.noisePsd
    return { s with noisePsd }
  else return s

/-- One pass of the gain loop, on `out_pwr_total` and the bins. -/
def gainPass (s : NoiseSuppressor) (power : Buffer halfFft ℝ) (k : ℕ)
    (acc : ℝ × Buffer fftSize ℂ) : Option (ℝ × Buffer fftSize ℂ) := do
  let p ← power.read k
  let noise ← s.noisePsd.read k
  let g := gain p noise
  let bin ← acc.2.read k
  let X ← acc.2.write k (bin * g)
  let outPwrTotal := acc.1 + g * g * p
  if 0 < k ∧ k < fftSize / 2 then
    let bin ← X.read k
    let X ← X.write (fftSize - k) (conj bin)
    return (outPwrTotal, X)
  else return (outPwrTotal, X)

/-- Step 5, with the Nyquist bin made real. -/
def applyGains (s : NoiseSuppressor) (power : Buffer halfFft ℝ) (X : Buffer fftSize ℂ) :
    Option (ℝ × Buffer fftSize ℂ) := do
  let (outPwrTotal, X) ← forLoop (· + 1) halfFft (s.gainPass power) 0 (0, X)
  let nyquist ← X.read (fftSize / 2)
  let X ← X.write (fftSize / 2) ⟨nyquist.re, 0⟩
  return (outPwrTotal, X)

def outPass (X : Buffer fftSize ℂ) (i : ℕ) (out : Buffer n ℝ) : Option (Buffer n ℝ) := do
  let bin ← X.read i
  out.write i bin.re

/-- Step 6, into the copy of the frame that is returned. -/
def synthesise (frame : Buffer n ℝ) (X : Buffer fftSize ℂ) : Option (Buffer n ℝ) := do
  let X ← radix2Ifft X
  forLoop (· + 1) n (outPass X) 0 frame

def process (s : NoiseSuppressor) (frame : Buffer n ℝ) :
    Option (Buffer n ℝ × NoiseSuppressor) := do
  let (X, frameEnergy, power) ← s.analyse frame
  let s ← s.updateNoise frameEnergy power
  let (outPwrTotal, X) ← s.applyGains power X
  let out ← synthesise frame X
  if frameEnergy > 1e-12 then
    let reductionDb :=
      10 * Real.logb 10 ((frameEnergy + 1e-12) / (outPwrTotal + 1e-12))
    return (out, { s with reductionDb })
  else return (out, s)

end NoiseSuppressor

/-! ## Calls -/

inductive Call where
  | reset
  | process (frame : Buffer frameSize ℝ)

structure Recorded where
  suppressor : NoiseSuppressor
  powers : List (Buffer halfFft ℝ)

namespace Recorded

def new : Recorded := ⟨.new, []⟩

def step (r : Recorded) : Call → Option Recorded
  | .reset => some ⟨r.suppressor.reset, []⟩
  | .process frame => do
      let (_, _, power) ← r.suppressor.analyse frame
      let (_, s) ← r.suppressor.process frame
      return ⟨s, power :: r.powers⟩

def run (calls : List Call) : Option Recorded := calls.foldlM step new

end Recorded

end

end Roomsync.Pipeline.Noise
