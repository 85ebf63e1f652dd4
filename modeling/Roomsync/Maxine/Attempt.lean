import Roomsync.Lib.Run
import Roomsync.Maxine.Pipeline
/-!
# What an attempt does

Whichever call makes it, an attempt goes through the same fallible calls in the same order,
and leaves what they wrote up to the one that failed.
-/

namespace Roomsync.Maxine.MaxinePipeline

open Roomsync.Lib

variable {Handle : Type} {nvafx : NvAFX Handle} {p q : MaxinePipeline Handle} {o : Outcomes}

structure SameHandles (p q : MaxinePipeline Handle) : Prop where
  aecH : q.aecH = p.aecH
  denoiserH : q.denoiserH = p.denoiserH
  superresH : q.superresH = p.superresH
  gpuActive : q.gpuActive = p.gpuActive
  created : q.created = p.created
  loaded : q.loaded = p.loaded
  ran : q.ran = p.ran
  destroyed : q.destroyed = p.destroyed

theorem SameHandles.refl (p : MaxinePipeline Handle) : SameHandles p p :=
  ⟨rfl, rfl, rfl, rfl, rfl, rfl, rfl, rfl⟩

/-- What the answers `o` make of the handles of `p`. -/
structure Attempted (nvafx : NvAFX Handle) (p : MaxinePipeline Handle) (o : Outcomes)
    (q : MaxinePipeline Handle) : Prop where
  aecH : q.aecH = if o.createAec then some (nvafx.handle p.created.length) else p.aecH
  denoiserH : q.denoiserH = if o.createAec && o.createDenoiser then
    some (nvafx.handle (p.created.length + 1)) else p.denoiserH
  superresH : q.superresH = if o.createAec && o.createDenoiser && o.createSuperres then
    some (nvafx.handle (p.created.length + 2)) else p.superresH
  gpuActive : q.gpuActive =
    (o.createAec && o.createDenoiser && o.createSuperres && o.loadAec)
  created : q.created = p.created ++
    (if o.createAec then [nvafx.handle p.created.length] else []) ++
    (if o.createAec && o.createDenoiser then [nvafx.handle (p.created.length + 1)] else []) ++
    (if o.createAec && o.createDenoiser && o.createSuperres then
      [nvafx.handle (p.created.length + 2)] else [])
  loaded : q.loaded = if q.gpuActive then p.loaded ++ [q.aecH] ++
    (if o.loadDenoiser then [q.denoiserH] else []) ++
    (if o.loadSuperres then [q.superresH] else []) else p.loaded
  ran : q.ran = p.ran
  destroyed : q.destroyed = p.destroyed

theorem init_attempted (p : MaxinePipeline Handle) (sdkPath : String) (o : Outcomes) :
    Attempted nvafx p o (p.init nvafx sdkPath o).2 := by
  obtain ⟨createAec, createDenoiser, createSuperres, loadAec, loadDenoiser, loadSuperres⟩ := o
  unfold init fallback load nextHandle
  cases createAec with
  | false => exact ⟨rfl, rfl, rfl, rfl, by simp, rfl, rfl, rfl⟩
  | true =>
      cases createDenoiser with
      | false => exact ⟨rfl, rfl, rfl, rfl, by simp, rfl, rfl, rfl⟩
      | true =>
          cases createSuperres with
          | false => constructor <;> simp
          | true =>
              cases loadAec with
              | false => constructor <;> simp
              | true =>
                  cases loadDenoiser <;> cases loadSuperres <;> constructor <;> simp

def attempt (p : MaxinePipeline Handle) : Call → Option Outcomes
  | .init _ o => some o
  | .pushReference _ _ => none
  | .process _ _ now o =>
      if p.gpuActive then none
      else if p.elapsed now ≥ gpuRecheckIntervalS then some o else none
  | .tryReloadGpu o => if p.gpuActive then none else some o

/-- What a call has done before it runs the effects. -/
def rechecked (nvafx : NvAFX Handle) (p : MaxinePipeline Handle) : Call → MaxinePipeline Handle
  | .process _ _ now o => p.recheck nvafx now o
  | call => p.step nvafx call

theorem sameHandles_pushReference (p : MaxinePipeline Handle) (frame : Pointer ℝ)
    (nSamples : ℕ) : SameHandles p ((p.pushReference frame nSamples).getD p) := by
  unfold pushReference
  cases frame with
  | none => exact .refl p
  | some source =>
      rw [Option.bind_eq_bind, Option.bind_some]
      cases memcpy p.refBuf 0 source
        (if nSamples > Pipeline.Noise.frameSize then Pipeline.Noise.frameSize
          else nSamples) with
      | none => exact .refl p
      | some refBuf => exact ⟨rfl, rfl, rfl, rfl, rfl, rfl, rfl, rfl⟩

theorem rechecked_cases (nvafx : NvAFX Handle) (p : MaxinePipeline Handle) (call : Call) :
    (p.attempt call = none ∧ SameHandles p (p.rechecked nvafx call)) ∨
    ∃ o, p.attempt call = some o ∧ Attempted nvafx p o (p.rechecked nvafx call) := by
  cases call with
  | init sdkPath o => exact Or.inr ⟨o, rfl, init_attempted p sdkPath o⟩
  | pushReference frame nSamples =>
      exact Or.inl ⟨rfl, sameHandles_pushReference p frame nSamples⟩
  | process frame nSamples now o =>
      unfold attempt rechecked recheck
      dsimp only
      by_cases hactive : p.gpuActive = true
      · rw [if_pos hactive, if_pos hactive]
        exact Or.inl ⟨rfl, .refl p⟩
      · rw [if_neg hactive, if_neg hactive]
        by_cases helapsed : p.elapsed now ≥ gpuRecheckIntervalS
        · rw [if_pos helapsed, if_pos helapsed]
          have h : Attempted nvafx { p with lastGpuRetry := now } o _ :=
            init_attempted { p with lastGpuRetry := now } p.sdkPath o
          exact Or.inr ⟨o, rfl, h.aecH, h.denoiserH, h.superresH, h.gpuActive, h.created,
            h.loaded, h.ran, h.destroyed⟩
        · rw [if_neg helapsed, if_neg helapsed]
          exact Or.inl ⟨rfl, .refl p⟩
  | tryReloadGpu o =>
      unfold attempt rechecked step tryReloadGpu
      dsimp only
      by_cases hactive : p.gpuActive = true
      · rw [if_pos hactive, if_pos hactive]
        exact Or.inl ⟨rfl, .refl p⟩
      · rw [if_neg hactive, if_neg hactive]
        exact Or.inr ⟨o, rfl, init_attempted p p.sdkPath o⟩

theorem step_cases (nvafx : NvAFX Handle) (p : MaxinePipeline Handle) (call : Call) :
    p.step nvafx call = p.rechecked nvafx call ∨
    ∃ frame nSamples, (p.rechecked nvafx call).gpuActive = true ∧
      p.step nvafx call = (p.rechecked nvafx call).runEffects nvafx frame nSamples := by
  cases call with
  | init sdkPath o => exact Or.inl rfl
  | pushReference frame nSamples => exact Or.inl rfl
  | process frame nSamples now o =>
      unfold step rechecked process
      dsimp only
      by_cases hactive : (p.recheck nvafx now o).gpuActive = true
      · rw [if_pos hactive]
        exact Or.inr ⟨frame, nSamples, hactive, rfl⟩
      · rw [if_neg hactive]
        exact Or.inl rfl
  | tryReloadGpu o => exact Or.inl rfl

end Roomsync.Maxine.MaxinePipeline
