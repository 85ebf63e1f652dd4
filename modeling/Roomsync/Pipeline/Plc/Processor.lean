import Roomsync.Lib.Memory
import Roomsync.Pipeline.Noise.Suppressor
/-!
# Packet loss concealment

`PLCProcessor` of `plc_processor.cpp`, on the path without an ONNX model: a lost frame is
what linear prediction makes of the last good ones, faded out.
-/

namespace Roomsync.Pipeline.Plc

open Roomsync.Lib
open Noise (frameSize)

def frameSizeMs : ℕ := 10
def plcAiMaxMs : ℕ := 100
def historyFrames : ℕ := 200 / frameSizeMs
def lpcOrder : ℕ := 12
def lpcHistory : ℕ := 320

noncomputable section

/-! ## Linear prediction -/

variable {m p nSamples : ℕ}

def reflectionPass (R : Buffer m ℝ) (a : Buffer p ℝ) (i j : ℕ) (ki : ℝ) : Option ℝ := do
  let aj ← a.read j
  let r ← R.read (i - j)
  return ki + aj * r

def combinePass (prev : Buffer p ℝ) (ki : ℝ) (i j : ℕ) (a : Buffer p ℝ) :
    Option (Buffer p ℝ) := do
  let forward ← prev.read j
  let backward ← prev.read (i - 1 - j)
  a.write j (forward + ki * backward)

/-- One order more, on the error and the coefficients; it goes on while the error lasts. -/
def durbinPass (R : Buffer m ℝ) (i : ℕ) (acc : ℝ × Buffer p ℝ) :
    Option ((ℝ × Buffer p ℝ) × Bool) := do
  let r ← R.read (i + 1)
  let ki ← forLoop (· + 1) i (reflectionPass R acc.2 i) 0 r
  let ki := -ki / acc.1
  let ki := max (-0.999) (min 0.999 ki)
  let a ← acc.2.write i ki
  let a ← forLoop (· + 1) i (combinePass acc.2 ki i) 0 a
  let err := acc.1 * (1 - ki * ki)
  return ((err, a), !decide (err ≤ 1e-12))

def levinsonDurbin (p : ℕ) (R : Buffer m ℝ) : Option (ℝ × Buffer p ℝ) := do
  let err ← R.read 0
  if err < 1e-12 then return (err, fun _ => 0)
  else forLoopBreak p (durbinPass R) 0 (err, fun _ => 0)

def predictPass (a : Buffer p ℝ) (buf : Buffer m ℝ) (n k : ℕ) (s : ℝ) : Option ℝ := do
  let ak ← a.read k
  let sample ← buf.read (lpcOrder + n - 1 - k)
  return s - ak * sample

def synthesisePass (a : Buffer p ℝ) (n : ℕ)
    (acc : Buffer (lpcOrder + nSamples) ℝ × Buffer nSamples ℝ) :
    Option (Buffer (lpcOrder + nSamples) ℝ × Buffer nSamples ℝ) := do
  let s ← forLoop (· + 1) lpcOrder (predictPass a acc.1 n) 0 0
  let buf ← acc.1.write (lpcOrder + n) s
  let out ← acc.2.write n s
  return (buf, out)

def lpcSynthesise (hist : List ℝ) (a : Buffer p ℝ) (nSamples : ℕ) : Option (Buffer nSamples ℝ) :=
  if hist.length < lpcOrder then none
  else do
    let last := hist.drop (hist.length - lpcOrder)
    let buf : Buffer (lpcOrder + nSamples) ℝ := fun i => last.getD i 0
    let (_, out) ← forLoop (· + 1) nSamples (synthesisePass a) 0 (buf, fun _ => 0)
    return out

/-! ## The processor -/

structure PlcProcessor where
  history : List (List ℝ)

namespace PlcProcessor

def new : PlcProcessor := ⟨[]⟩

def init (s : PlcProcessor) (_lpcnetOnnxPath : String) : Bool × PlcProcessor := (true, s)

def reset (_ : PlcProcessor) : PlcProcessor := ⟨[]⟩

def pushGoodFrame (s : PlcProcessor) (frame : Pointer ℝ) (nSamples : ℕ) :
    Option PlcProcessor := do
  let samples ← frame.copy nSamples
  let history := s.history ++ [samples]
  if history.length > historyFrames then return ⟨history.drop 1⟩
  else return ⟨history⟩

/-- The samples of a frame, the last first, while there is room. -/
def flattenFrame : List ℝ → List ℝ → List ℝ
  | [], flat => flat
  | sample :: samples, flat =>
      if flat.length < lpcHistory then flattenFrame samples (flat ++ [sample]) else flat

def flattenFrames : List (List ℝ) → List ℝ → List ℝ
  | [], flat => flat
  | frame :: frames, flat =>
      if flat.length < lpcHistory then flattenFrames frames (flattenFrame frame.reverse flat)
      else flat

/-- `flat`: the last samples of the history, the oldest first. -/
def flat (s : PlcProcessor) : List ℝ := (flattenFrames s.history.reverse []).reverse

def correlatePass (flat : List ℝ) (lag n : ℕ) (R : Buffer (lpcOrder + 1) ℝ) :
    Option (Buffer (lpcOrder + 1) ℝ) := do
  let x ← flat[n]?
  let y ← flat[n + lag]?
  let r ← R.read lag
  R.write lag (r + x * y)

def lagPass (flat : List ℝ) (lag : ℕ) (R : Buffer (lpcOrder + 1) ℝ) :
    Option (Buffer (lpcOrder + 1) ℝ) :=
  forLoop (· + 1) (flat.length - lag) (correlatePass flat lag) 0 R

/-- The biased autocorrelation of `flat`. -/
def autocorrelation (flat : List ℝ) : Option (Buffer (lpcOrder + 1) ℝ) := do
  let R ← forLoop (· + 1) (lpcOrder + 1) (lagPass flat) 0 fun _ => 0
  if 0 < flat.length then return fun lag => R lag / flat.length
  else return R

def conceal (s : PlcProcessor) (lossMs : ℤ) : Option (List ℝ) :=
  if s.history.isEmpty then some (List.replicate frameSize 0)
  else do
    let R ← autocorrelation s.flat
    let (_, a) ← levinsonDurbin lpcOrder R
    let out ← lpcSynthesise s.flat a frameSize
    let fade := max 0 (1 - (lossMs : ℝ) / plcAiMaxMs)
    return List.ofFn fun n => out n * fade

end PlcProcessor

end

end Roomsync.Pipeline.Plc
