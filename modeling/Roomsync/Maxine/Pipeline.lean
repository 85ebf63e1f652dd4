import Roomsync.Lib.Memory
import Roomsync.Pipeline.Noise.Suppressor
/-!
# The GPU pipeline

`MaxinePipeline` of `maxine_pipeline.cpp`, in the build with Maxine.  The audio effects come
from the NvAFX library: what it answers to the calls of an attempt is an argument, what it
writes is a parameter of the model, and the calls that matter for its handles are recorded.
-/

namespace Roomsync.Maxine

open Roomsync.Lib
open Pipeline.Noise (frameSize)

def gpuRecheckIntervalS : ℤ := 30

/-- What NvAFX writes: the handle of the effect that it creates as number `n`, and what a
run of an effect on two inputs makes of the output buffer. -/
structure NvAFX (Handle : Type) where
  handle : ℕ → Handle
  run : Option Handle → Pointer ℝ → Pointer ℝ → List ℝ → ℕ → List ℝ

/-- Which calls of an attempt answer `NVAFX_STATUS_SUCCESS`. -/
structure Outcomes where
  createAec : Bool
  createDenoiser : Bool
  createSuperres : Bool
  loadAec : Bool
  loadDenoiser : Bool
  loadSuperres : Bool

/-- The fields of `Impl` and `gpu_active_`, then what NvAFX created, loaded, ran and
destroyed so far.  Times are in nanoseconds. -/
structure MaxinePipeline (Handle : Type) where
  sdkPath : String
  lastGpuRetry : ℤ
  aecH : Option Handle
  denoiserH : Option Handle
  superresH : Option Handle
  refBuf : List ℝ
  aecOut : List ℝ
  denoisedOut : List ℝ
  finalOut : List ℝ
  gpuActive : Bool
  created : List Handle
  loaded : List (Option Handle)
  ran : List (Option Handle)
  destroyed : List Handle

namespace MaxinePipeline

variable {Handle : Type}

noncomputable def new (now : ℤ) : MaxinePipeline Handle where
  sdkPath := ""
  lastGpuRetry := now
  aecH := none
  denoiserH := none
  superresH := none
  refBuf := List.replicate frameSize 0
  aecOut := List.replicate frameSize 0
  denoisedOut := List.replicate frameSize 0
  finalOut := List.replicate frameSize 0
  gpuActive := false
  created := []
  loaded := []
  ran := []
  destroyed := []

def destroy (p : MaxinePipeline Handle) : MaxinePipeline Handle :=
  { p with
    destroyed := p.destroyed ++ p.aecH.toList ++ p.denoiserH.toList ++ p.superresH.toList }

/-- `NvAFX_Load`. -/
def load (p : MaxinePipeline Handle) (ok : Bool) (h : Option Handle) : MaxinePipeline Handle :=
  if ok then { p with loaded := p.loaded ++ [h] } else p

def fallback (p : MaxinePipeline Handle) : Bool × MaxinePipeline Handle :=
  (false, { p with gpuActive := false })

variable (nvafx : NvAFX Handle)

/-- The handle that the next successful `NvAFX_CreateEffect` writes. -/
def nextHandle (p : MaxinePipeline Handle) : Handle := nvafx.handle p.created.length

/-- The parameters that it sets on the effects between the calls are left out. -/
def init (p : MaxinePipeline Handle) (sdkPath : String) (o : Outcomes) :
    Bool × MaxinePipeline Handle :=
  let p := { p with sdkPath }
  if !o.createAec then p.fallback
  else
    let h := p.nextHandle nvafx
    let p := { p with aecH := some h, created := p.created ++ [h] }
    if !o.createDenoiser then p.fallback
    else
      let h := p.nextHandle nvafx
      let p := { p with denoiserH := some h, created := p.created ++ [h] }
      if !o.createSuperres then p.fallback
      else
        let h := p.nextHandle nvafx
        let p := { p with superresH := some h, created := p.created ++ [h] }
        let p := p.load o.loadAec p.aecH
        if !o.loadAec then p.fallback
        else
          let p := p.load o.loadDenoiser p.denoiserH
          let p := p.load o.loadSuperres p.superresH
          (true, { p with gpuActive := true })

/-- At most `FRAME_SIZE` samples are copied; `none` if there are not as many. -/
def pushReference (p : MaxinePipeline Handle) (frame : Pointer ℝ) (nSamples : ℕ) :
    Option (MaxinePipeline Handle) := do
  let source ← frame
  let refBuf ← memcpy p.refBuf 0 source (if nSamples > frameSize then frameSize else nSamples)
  return { p with refBuf }

/-- Whole seconds since the last attempt, at time `now`. -/
def elapsed (p : MaxinePipeline Handle) (now : ℤ) : ℤ := (now - p.lastGpuRetry).tdiv (10 ^ 9)

def recheck (p : MaxinePipeline Handle) (now : ℤ) (o : Outcomes) : MaxinePipeline Handle :=
  if p.gpuActive then p
  else if p.elapsed now ≥ gpuRecheckIntervalS then
    (init nvafx { p with lastGpuRetry := now } p.sdkPath o).2
  else p

/-- `NvAFX_Run` of the three effects, each on the output of the one before. -/
def runEffects (p : MaxinePipeline Handle) (frame : Pointer ℝ) (nSamples : ℕ) :
    MaxinePipeline Handle :=
  let aecOut := nvafx.run p.aecH frame (some p.refBuf) p.aecOut nSamples
  let denoisedOut := nvafx.run p.denoiserH (some aecOut) none p.denoisedOut nSamples
  let finalOut := nvafx.run p.superresH (some denoisedOut) none p.finalOut nSamples
  { p with
    aecOut, denoisedOut, finalOut
    ran := p.ran ++ [p.aecH, p.denoiserH, p.superresH] }

/-- The returned samples are `none` where there are not as many to copy. -/
def process (p : MaxinePipeline Handle) (frame : Pointer ℝ) (nSamples : ℕ) (now : ℤ)
    (o : Outcomes) : Option (List ℝ) × MaxinePipeline Handle :=
  let p := p.recheck nvafx now o
  if p.gpuActive then
    let p := p.runEffects nvafx frame nSamples
    (Pointer.copy (some p.finalOut) nSamples, p)
  else (frame.copy nSamples, p)

def tryReloadGpu (p : MaxinePipeline Handle) (o : Outcomes) : MaxinePipeline Handle :=
  if p.gpuActive then p else (init nvafx p p.sdkPath o).2

end MaxinePipeline

/-! ## Calls -/

inductive Call where
  | init (sdkPath : String) (o : Outcomes)
  | pushReference (frame : Pointer ℝ) (nSamples : ℕ)
  | process (frame : Pointer ℝ) (nSamples : ℕ) (now : ℤ) (o : Outcomes)
  | tryReloadGpu (o : Outcomes)

namespace MaxinePipeline

variable {Handle : Type}

/-- A push that would read out of range changes no more than the samples. -/
def step (nvafx : NvAFX Handle) (p : MaxinePipeline Handle) : Call → MaxinePipeline Handle
  | .init sdkPath o => (p.init nvafx sdkPath o).2
  | .pushReference frame nSamples => (p.pushReference frame nSamples).getD p
  | .process frame nSamples now o => (p.process nvafx frame nSamples now o).2
  | .tryReloadGpu o => p.tryReloadGpu nvafx o

end MaxinePipeline

end Roomsync.Maxine
