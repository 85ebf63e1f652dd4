import Roomsync.Pipeline.Aec.Processor
import Roomsync.Pipeline.Plc.Processor
/-!
# The pipeline

`Pipeline` of `pipeline.cpp`, with the pass-through `SourceSeparator`, in the build without
Maxine and ONNX: the four stages of a received frame, and concealment of a lost one.
-/

namespace Roomsync.Orchestrator

open Roomsync.Lib
open Pipeline.Noise (NoiseSuppressor frameSize)
open Pipeline.Aec (AecProcessor)
open Pipeline.Plc (PlcProcessor frameSizeMs)

noncomputable section

/-! ## Source separation -/

structure SourceSeparator where
  nSpeakers : ℕ

namespace SourceSeparator

def maxSpeakers : ℕ := 4

def new : SourceSeparator := ⟨4⟩

def init (_ : SourceSeparator) (_onnxPath : String) (nSpeakers : ℕ) : Bool × SourceSeparator :=
  (true, ⟨nSpeakers⟩)

/-- Without a model there is no separation. -/
def process (_ : SourceSeparator) (frame : Pointer ℝ) (nSamples : ℕ) : Option (List ℝ) :=
  frame.copy nSamples

def reset (s : SourceSeparator) : SourceSeparator := s

end SourceSeparator

/-! ## The pipeline -/

structure PipelineConfig where
  aecNresOnnx : String := ""
  noiseOnnx : String := ""
  separatorOnnx : String := ""
  lpcnetOnnx : String := ""

structure FrameStats where
  erleDb : ℝ := 0
  noiseReduction : ℝ := 0
  pipelineMs : ℝ := 0
  plcLossMs : ℤ := 0

structure Pipeline where
  aec : AecProcessor
  noise : NoiseSuppressor
  sep : SourceSeparator
  plc : PlcProcessor
  lastStats : FrameStats
  plcLossMs : ℤ
  gpuActive : Bool

namespace Pipeline

def new : Pipeline where
  aec := .new
  noise := .new
  sep := .new
  plc := .new
  lastStats := {}
  plcLossMs := 0
  gpuActive := false

def initNoise (s : NoiseSuppressor) (_onnxPath : String) : Bool × NoiseSuppressor := (true, s)

def init (p : Pipeline) (cfg : PipelineConfig) : Bool × Pipeline :=
  if p.gpuActive then (true, p)
  else
    let (ok, aec) := p.aec.init cfg.aecNresOnnx
    let p := { p with aec }
    if !ok then (false, p)
    else
      let (ok, noise) := initNoise p.noise cfg.noiseOnnx
      let p := { p with noise }
      if !ok then (false, p)
      else
        let (ok, sep) := p.sep.init cfg.separatorOnnx SourceSeparator.maxSpeakers
        let p := { p with sep }
        if !ok then (false, p)
        else
          let (ok, plc) := p.plc.init cfg.lpcnetOnnx
          let p := { p with plc }
          (ok, p)

def pushReference (p : Pipeline) (frame : Pointer ℝ) (nSamples : ℕ) : Option Pipeline :=
  if nSamples = frameSize then do
    let aec ← p.aec.pushReference frame nSamples
    return { p with aec }
  else none

/-- The branch of a lost frame; the counter is an `int` of 32 bits. -/
def processLost (p : Pipeline) : Option (List ℝ × Pipeline) := do
  let plcLossMs := (p.plcLossMs + frameSizeMs).bmod (2 ^ 32)
  let out ← p.plc.conceal plcLossMs
  return (out, { p with plcLossMs })

/-- The branch of a received frame, stages 1 to 4. -/
def processReceived (p : Pipeline) (frame : Pointer ℝ) (nSamples : ℕ) :
    Option (List ℝ × Pipeline) := do
  let (out, aec) ← p.aec.process frame nSamples
  let (denoised, noise) ← p.noise.process out.get
  let out := List.ofFn denoised
  let out ← p.sep.process (some out) out.length
  let plc ← p.plc.pushGoodFrame (some out) out.length
  return (out, { p with aec, noise, plc, plcLossMs := 0 })

/-- `ms` is what the clock measures of the call. -/
def process (p : Pipeline) (frame : Pointer ℝ) (nSamples : ℕ) (packetLost : Bool) (ms : ℝ) :
    Option (List ℝ × Pipeline) :=
  if nSamples = frameSize then do
    let (out, p) ← if packetLost then p.processLost else p.processReceived frame nSamples
    let lastStats : FrameStats :=
      { erleDb := p.aec.erleDb
        noiseReduction := p.noise.reductionDb
        pipelineMs := ms
        plcLossMs := p.plcLossMs }
    return (out, { p with lastStats })
  else none

def stats (p : Pipeline) : FrameStats := p.lastStats

def reset (p : Pipeline) : Pipeline :=
  { p with
    aec := p.aec.reset
    noise := p.noise.reset
    sep := p.sep.reset
    plc := p.plc.reset
    plcLossMs := 0
    lastStats := {} }

end Pipeline

/-! ## Calls -/

/-- The calls with frames of `FRAME_SIZE` samples; that of a lost one may be null. -/
inductive Call where
  | pushReference (frame : Buffer frameSize ℝ)
  | process (frame : Buffer frameSize ℝ) (ms : ℝ)
  | processLost (frame : Option (Buffer frameSize ℝ)) (ms : ℝ)
  | reset

structure Answer where
  out : Option (List ℝ)
  stats : FrameStats

def step (p : Pipeline) : Call → Option (Answer × Pipeline)
  | .pushReference frame => do
      let p ← p.pushReference (some (List.ofFn frame)) frameSize
      return (⟨none, p.stats⟩, p)
  | .process frame ms => do
      let (out, p) ← p.process (some (List.ofFn frame)) frameSize false ms
      return (⟨some out, p.stats⟩, p)
  | .processLost frame ms => do
      let (out, p) ← p.process (frame.map List.ofFn) frameSize true ms
      return (⟨some out, p.stats⟩, p)
  | .reset => some (⟨none, p.reset.stats⟩, p.reset)

def run (cfg : PipelineConfig) (calls : List Call) : Option (List Answer × Pipeline) :=
  runM step (Pipeline.new.init cfg).2 calls

end

end Roomsync.Orchestrator
