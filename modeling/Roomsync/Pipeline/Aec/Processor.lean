import Roomsync.Lib.Memory
import Roomsync.Lib.Run
import Roomsync.Pipeline.Noise.Suppressor
/-!
# The echo canceller

`AECProcessor` of `aec_processor.cpp`, on the path without an ONNX model: an adaptive
filter on the last samples of the reference.
-/

namespace Roomsync.Pipeline.Aec

open Roomsync.Lib
open Noise (frameSize)

def sampleRate : ℕ := 16000
def aecFilterLengthMs : ℕ := 150
def nlmsLen : ℕ := 512

/-- `buf_size` of `init`. -/
def bufSize : ℕ := max (aecFilterLengthMs * sampleRate / 1000) (nlmsLen + frameSize)

noncomputable section

def nlmsMu : ℝ := 0.04
def nlmsDelta : ℝ := 1e-5

/-- `erle_db_` next to the fields of `Impl`. -/
structure AecProcessor where
  refBuf : List ℝ
  w : List ℝ
  echoPower : ℝ
  errorPower : ℝ
  erleDb : ℝ

namespace AecProcessor

def new : AecProcessor where
  refBuf := []
  w := []
  echoPower := 1e-10
  errorPower := 1e-10
  erleDb := 0

def init (s : AecProcessor) (_onnxModelPath : String) : Bool × AecProcessor :=
  (true, { s with refBuf := List.replicate bufSize 0, w := List.replicate nlmsLen 0 })

def reset (s : AecProcessor) : AecProcessor where
  refBuf := s.refBuf.map fun _ => 0
  w := s.w.map fun _ => 0
  echoPower := 1e-10
  errorPower := 1e-10
  erleDb := 0

def powerPass (refFrame : Pointer ℝ) (i : ℕ) (pwr : ℝ) : Option ℝ := do
  let sample ← refFrame.read i
  return pwr + sample * sample

def pushReference (s : AecProcessor) (refFrame : Pointer ℝ) (nSamples : ℕ) :
    Option AecProcessor :=
  if nSamples = frameSize then do
    let buf ← memmove s.refBuf 0 nSamples (s.refBuf.length - nSamples)
    let source ← refFrame
    let buf ← memcpy buf (buf.length - nSamples) source nSamples
    let pwr ← forLoop (· + 1) nSamples (powerPass refFrame) 0 0
    return { s with
      refBuf := buf
      echoPower := 0.95 * s.echoPower + 0.05 * (pwr / nSamples) }
  else none

/-! ## The steps of `process` -/

variable {taps nSamples : ℕ}

def energyPass (x : List ℝ) (nSamples n : ℕ) (xEnergy : ℝ) : Option ℝ := do
  let xi ← readAt x (x.length - nSamples + n)
  return xEnergy + xi * xi

def echoPass (x : List ℝ) (nSamples n : ℕ) (w : Buffer taps ℝ) (k : ℕ) (echoEst : ℝ) :
    Option ℝ := do
  let wk ← w.read k
  let xk ← readAt x (x.length - nSamples + n - k)
  return echoEst + wk * xk

def weightPass (x : List ℝ) (nSamples n : ℕ) (muN e : ℝ) (k : ℕ) (w : Buffer taps ℝ) :
    Option (Buffer taps ℝ) := do
  let wk ← w.read k
  let xk ← readAt x (x.length - nSamples + n - k)
  w.write k (wk + muN * e * xk)

/-- One sample, on the weights, the output and the sum of the squared errors. -/
def samplePass (x : List ℝ) (micFrame : Pointer ℝ) (muN : ℝ) (n : ℕ)
    (acc : Buffer taps ℝ × Buffer nSamples ℝ × ℝ) :
    Option (Buffer taps ℝ × Buffer nSamples ℝ × ℝ) := do
  let echoEst ← forLoop (· + 1) nlmsLen (echoPass x nSamples n acc.1) 0 0
  let sample ← micFrame.read n
  let e := sample - echoEst
  let out ← acc.2.1.write n e
  let w ← forLoop (· + 1) nlmsLen (weightPass x nSamples n muN e) 0 acc.1
  return (w, out, acc.2.2 + e * e)

def process (s : AecProcessor) (micFrame : Pointer ℝ) (nSamples : ℕ) :
    Option (List ℝ × AecProcessor) :=
  if nSamples = frameSize then
    if s.refBuf.length < nSamples then do
      let out ← micFrame.copy nSamples
      return (out, s)
    else do
      let frameEnergy ← forLoop (· + 1) nSamples (energyPass s.refBuf nSamples) 0 0
      let xEnergy := frameEnergy / nSamples * nlmsLen
      let muN := nlmsMu / (xEnergy + nlmsDelta)
      let start : Buffer s.w.length ℝ × Buffer nSamples ℝ × ℝ := (s.w.get, fun _ => 0, 0)
      let (w, out, errorPwrSum) ←
        forLoop (· + 1) nSamples (samplePass s.refBuf micFrame muN) 0 start
      let errorPower := 0.95 * s.errorPower + 0.05 * (errorPwrSum / nSamples)
      let erleDb :=
        if s.echoPower > 1e-10 then
          10.0 * Real.logb 10.0 (s.echoPower / (errorPower + 1e-10))
        else s.erleDb
      return (List.ofFn out, { s with w := List.ofFn w, errorPower, erleDb })
  else none

end AecProcessor

/-! ## Calls -/

inductive Call where
  | pushReference (refFrame : Buffer frameSize ℝ)
  | process (micFrame : Buffer frameSize ℝ)

def step (s : AecProcessor) : Call → Option (Option (List ℝ) × AecProcessor)
  | .pushReference refFrame => do
      let s ← s.pushReference (some (List.ofFn refFrame)) frameSize
      return (none, s)
  | .process micFrame => do
      let (out, s) ← s.process (some (List.ofFn micFrame)) frameSize
      return (some out, s)

def run (calls : List Call) : Option (List (Option (List ℝ)) × AecProcessor) :=
  runM step (AecProcessor.new.init "").2 calls

end

end Roomsync.Pipeline.Aec
