import Roomsync.Pipeline.Aec.Nlms
import Roomsync.Pipeline.Noise.Attenuation
import Roomsync.Pipeline.Orchestrator
import Roomsync.Pipeline.Plc.Conceal
/-!
# Every index stays in range

The sizes that the stages keep make each call succeed, whatever the order of calls: the
reference buffer and the weights have theirs from `init` on, the history consists of whole
frames.
-/

namespace Roomsync.Orchestrator

open Roomsync.Lib
open Pipeline.Noise (NoiseSuppressor frameSize hann frameSize_le_fftSize)
open Pipeline.Aec (AecProcessor Follows Nlms)
open Pipeline.Plc (PlcProcessor frameSizeMs historyFrames)

noncomputable section

/-! ## The stages of a received frame -/

theorem noise_process_ofFn {n m : ℕ} {s s' : NoiseSuppressor} {x out : Buffer n ℝ}
    (h : s.process x = some (out, s')) (hm : m = n) {y : Buffer m ℝ}
    (hy : ∀ i : Fin m, y i = x (i.cast hm)) :
    ∃ out' : Buffer m ℝ, s.process y = some (out', s') ∧ List.ofFn out' = List.ofFn out := by
  subst hm
  obtain rfl : y = x := funext hy
  exact ⟨out, h, rfl⟩

namespace Pipeline

variable {p : Pipeline}

theorem processReceived_eq_some {t : Nlms} (haec : Follows p.aec t)
    (frame : Buffer frameSize ℝ) {denoised : Buffer frameSize ℝ} {noise : NoiseSuppressor}
    (hnoise : p.noise.process (fun n : Fin frameSize => t.errorAt frame n) = some (denoised, noise))
    {plc : PlcProcessor}
    (hplc : p.plc.pushGoodFrame (some (List.ofFn denoised)) (List.ofFn denoised).length =
      some plc) :
    p.processReceived (some (List.ofFn frame)) frameSize =
      some (List.ofFn denoised,
        { p with aec := p.aec.adapted t frame, noise, plc, plcLossMs := 0 }) := by
  have hlength : (List.ofFn fun n : Fin frameSize => t.errorAt frame n).length = frameSize :=
    List.length_ofFn
  obtain ⟨out, hout, houtList⟩ := noise_process_ofFn hnoise hlength
    (y := (List.ofFn fun n : Fin frameSize => t.errorAt frame n).get) (by
      intro i
      rw [List.get_eq_getElem, List.getElem_ofFn]
      rfl)
  unfold processReceived
  rw [AecProcessor.process_eq_some haec.refBuf haec.w, Option.bind_eq_bind, Option.bind_some]
  dsimp only
  rw [hout, Option.bind_eq_bind, Option.bind_some]
  dsimp only
  rw [houtList]
  unfold SourceSeparator.process
  rw [Pointer.copy_some, Option.bind_eq_bind, Option.bind_some, hplc]
  rfl

def nextLossMs (p : Pipeline) : ℤ := (p.plcLossMs + frameSizeMs).bmod (2 ^ 32)

theorem processLost_eq_some {out : List ℝ} (h : p.plc.conceal p.nextLossMs = some out) :
    p.processLost = some (out, { p with plcLossMs := p.nextLossMs }) := by
  unfold processLost
  change (p.plc.conceal p.nextLossMs).bind _ = _
  rw [h]
  rfl

def reported (p : Pipeline) (ms : ℝ) : Pipeline :=
  { p with
    lastStats :=
      { erleDb := p.aec.erleDb
        noiseReduction := p.noise.reductionDb
        pipelineMs := ms
        plcLossMs := p.plcLossMs } }

theorem process_received {frame : Pointer ℝ} {out : List ℝ} {p' : Pipeline}
    (h : p.processReceived frame frameSize = some (out, p')) (ms : ℝ) :
    p.process frame frameSize false ms = some (out, p'.reported ms) := by
  unfold process
  rw [if_pos rfl, if_neg Bool.false_ne_true, h]
  rfl

theorem process_lost {out : List ℝ} {p' : Pipeline} (h : p.processLost = some (out, p'))
    (frame : Pointer ℝ) (ms : ℝ) :
    p.process frame frameSize true ms = some (out, p'.reported ms) := by
  unfold process
  rw [if_pos rfl, if_pos rfl, h]
  rfl

def heard (p : Pipeline) (frame : Buffer frameSize ℝ) : Pipeline :=
  { p with aec := p.aec.heard frame }

theorem pushReference_eq_some {t : Nlms} (haec : Follows p.aec t) (frame : Buffer frameSize ℝ) :
    p.pushReference (some (List.ofFn frame)) frameSize = some (p.heard frame) := by
  unfold pushReference
  rw [if_pos rfl, haec.pushReference]
  rfl

structure Sound (p : Pipeline) : Prop where
  aec : ∃ t, Follows p.aec t
  hannWin : p.noise.hannWin = hann
  whole : p.plc.Whole
  history : p.plc.history.length ≤ historyFrames
  sep : p.sep = .new
  gpuActive : p.gpuActive = false

namespace Sound

theorem init (cfg : PipelineConfig) : Sound (Pipeline.new.init cfg).2 where
  aec := ⟨.new, Follows.init .new cfg.aecNresOnnx⟩
  hannWin := rfl
  whole := fun _ hframe => absurd hframe List.not_mem_nil
  history := Nat.zero_le _
  sep := rfl
  gpuActive := rfl

theorem heard (hp : Sound p) (frame : Buffer frameSize ℝ) : Sound (p.heard frame) := by
  obtain ⟨t, ht⟩ := hp.aec
  exact ⟨⟨_, ht.heard frame⟩, hp.hannWin, hp.whole, hp.history, hp.sep, hp.gpuActive⟩

theorem reported (hp : Sound p) (ms : ℝ) : Sound (p.reported ms) :=
  ⟨hp.aec, hp.hannWin, hp.whole, hp.history, hp.sep, hp.gpuActive⟩

theorem processReceived (hp : Sound p) (frame : Buffer frameSize ℝ) :
    ∃ out p', p.processReceived (some (List.ofFn frame)) frameSize = some (out, p') ∧
      out.length = frameSize ∧ Sound p' := by
  obtain ⟨t, ht⟩ := hp.aec
  obtain ⟨denoised, noise, hnoise, hprocessed⟩ :=
    p.noise.process_spec frameSize_le_fftSize fun n : Fin frameSize => t.errorAt frame n
  have hlength : (List.ofFn denoised).length = frameSize := List.length_ofFn
  have hplc := p.plc.pushGoodFrame_eq_some (List.ofFn denoised)
  refine ⟨_, _, processReceived_eq_some ht frame hnoise hplc, hlength, ?_⟩
  exact ⟨⟨_, ht.adapted frame⟩, hprocessed.hannWin.trans hp.hannWin,
    PlcProcessor.forall_mem_pushGoodFrame hp.whole hlength hplc,
    PlcProcessor.length_pushGoodFrame_le hp.history hplc, hp.sep, hp.gpuActive⟩

theorem lossCounted (hp : Sound p) : Sound { p with plcLossMs := p.nextLossMs } :=
  ⟨hp.aec, hp.hannWin, hp.whole, hp.history, hp.sep, hp.gpuActive⟩

theorem processLost (hp : Sound p) :
    ∃ out p', p.processLost = some (out, p') ∧ out.length = frameSize ∧ Sound p' := by
  obtain ⟨base, hconceal, -⟩ := PlcProcessor.conceal_eq_some hp.whole
  exact ⟨_, _, processLost_eq_some (hconceal _), List.length_ofFn, hp.lossCounted⟩

theorem reset (hp : Sound p) : Sound p.reset := by
  obtain ⟨t, ht⟩ := hp.aec
  exact ⟨⟨_, ht.reset⟩, hp.hannWin, fun _ hframe => absurd hframe List.not_mem_nil,
    Nat.zero_le _, hp.sep, hp.gpuActive⟩

end Sound

end Pipeline

/-! ## Runs -/

def Returns : Call → Answer → Prop
  | .process _ _, answer => ∃ out, answer.out = some out ∧ out.length = frameSize
  | .processLost _ _, answer => ∃ out, answer.out = some out ∧ out.length = frameSize
  | _, _ => True

section Steps

variable {p p' : Pipeline} {out : List ℝ}

theorem step_pushReference {t : Nlms} (haec : Follows p.aec t) (frame : Buffer frameSize ℝ) :
    step p (.pushReference frame) = some (⟨none, p.lastStats⟩, p.heard frame) := by
  unfold step
  dsimp only
  rw [Pipeline.pushReference_eq_some haec]
  rfl

theorem step_process {frame : Buffer frameSize ℝ}
    (h : p.processReceived (some (List.ofFn frame)) frameSize = some (out, p')) (ms : ℝ) :
    step p (.process frame ms) = some (⟨some out, (p'.reported ms).stats⟩, p'.reported ms) := by
  unfold step
  dsimp only
  rw [Pipeline.process_received h ms]
  rfl

theorem step_processLost (h : p.processLost = some (out, p'))
    (frame : Option (Buffer frameSize ℝ)) (ms : ℝ) :
    step p (.processLost frame ms) =
      some (⟨some out, (p'.reported ms).stats⟩, p'.reported ms) := by
  unfold step
  dsimp only
  rw [Pipeline.process_lost h _ ms]
  rfl

end Steps

theorem Pipeline.Sound.step {p : Pipeline} (hp : p.Sound) (call : Call) :
    ∃ answer p', Orchestrator.step p call = some (answer, p') ∧ Returns call answer ∧
      p'.Sound := by
  cases call with
  | pushReference frame =>
      obtain ⟨t, ht⟩ := hp.aec
      exact ⟨_, _, step_pushReference ht frame, trivial, hp.heard frame⟩
  | process frame ms =>
      obtain ⟨out, p', hreceived, hlength, hp'⟩ := hp.processReceived frame
      exact ⟨_, _, step_process hreceived ms, ⟨out, rfl, hlength⟩, hp'.reported ms⟩
  | processLost frame ms =>
      obtain ⟨out, p', hlost, hlength, hp'⟩ := hp.processLost
      exact ⟨_, _, step_processLost hlost frame ms, ⟨out, rfl, hlength⟩, hp'.reported ms⟩
  | reset => exact ⟨_, p.reset, rfl, trivial, hp.reset⟩

theorem run_sound (cfg : PipelineConfig) (calls : List Call) :
    ∃ answers p, run cfg calls = some (answers, p) ∧ List.Forall₂ Returns calls answers ∧
      p.Sound :=
  runM_invariant (fun _ call _ hp => hp.step call) (Pipeline.Sound.init cfg)

/-- No call reads or writes out of range, each call of `process` returns a frame, and the
buffers keep their sizes. -/
theorem run_in_range (cfg : PipelineConfig) (calls : List Call) :
    ∃ answers p, run cfg calls = some (answers, p) ∧ List.Forall₂ Returns calls answers ∧
      p.aec.refBuf.length = 2400 ∧ p.aec.w.length = 512 ∧ p.plc.history.length ≤ 20 ∧
      ∀ frame ∈ p.plc.history, frame.length = frameSize := by
  obtain ⟨answers, p, hrun, hreturns, hp⟩ := run_sound cfg calls
  obtain ⟨t, ht⟩ := hp.aec
  exact ⟨answers, p, hrun, hreturns, ht.length_refBuf.trans Pipeline.Aec.bufSize_eq,
    ht.length_w, hp.history, hp.whole⟩

/-! ## Null frames -/

theorem aec_process_null (s : AecProcessor) : s.process none frameSize = none := by
  have hpass : ∀ (x : List ℝ) (muN : ℝ) (acc : Buffer s.w.length ℝ × Buffer frameSize ℝ × ℝ),
      AecProcessor.samplePass x none muN 0 acc = none := by
    intro x muN acc
    unfold AecProcessor.samplePass
    cases forLoop (· + 1) Pipeline.Aec.nlmsLen (AecProcessor.echoPass x frameSize 0 acc.1) 0 0 with
    | none => rfl
    | some echoEst => rfl
  have hloop : ∀ (x : List ℝ) (muN : ℝ) (acc : Buffer s.w.length ℝ × Buffer frameSize ℝ × ℝ),
      forLoop (· + 1) frameSize (AecProcessor.samplePass x none muN) 0 acc = none := by
    intro x muN acc
    rw [forLoop, if_pos (by decide), if_pos (by omega), hpass, Option.bind_none]
  unfold AecProcessor.process
  rw [if_pos rfl]
  split
  · rfl
  · cases forLoop (· + 1) frameSize (AecProcessor.energyPass s.refBuf frameSize) 0 0 with
    | none => rfl
    | some frameEnergy =>
        rw [Option.bind_eq_bind, Option.bind_some]
        dsimp only
        rw [hloop]
        rfl

theorem process_null (p : Pipeline) (ms : ℝ) : p.process none frameSize false ms = none := by
  unfold Pipeline.process Pipeline.processReceived
  rw [if_pos rfl, if_neg Bool.false_ne_true, aec_process_null]
  rfl

/-- A null frame is concealed exactly if the caller says that it was lost. -/
theorem null_frame_concealed_iff (cfg : PipelineConfig) (calls : List Call) (packetLost : Bool)
    (ms : ℝ) :
    ∃ answers p, run cfg calls = some (answers, p) ∧
      ((∃ out p', p.process none frameSize packetLost ms = some (out, p') ∧
          p.process none frameSize true ms = some (out, p')) ↔
        packetLost = true) := by
  obtain ⟨answers, p, hrun, -, hp⟩ := run_sound cfg calls
  refine ⟨answers, p, hrun, ?_⟩
  constructor
  · rintro ⟨out, p', hprocess, -⟩
    cases packetLost with
    | false =>
        rw [process_null] at hprocess
        exact absurd hprocess (Option.some_ne_none _).symm
    | true => rfl
  · intro hlost
    subst hlost
    obtain ⟨out, p', hconceal, -, -⟩ := hp.processLost
    exact ⟨out, _, Pipeline.process_lost hconceal none ms, Pipeline.process_lost hconceal none ms⟩

/-- On a new pipeline, a null frame that is not said to be lost is read. -/
theorem null_frame_read : (Pipeline.new.init {}).2.process none frameSize false 0 = none ∧
    ∃ out p', (Pipeline.new.init {}).2.process none frameSize true 0 = some (out, p') := by
  obtain ⟨out, p', hconceal, -, -⟩ := (Pipeline.Sound.init {}).processLost
  exact ⟨process_null _ 0, out, _, Pipeline.process_lost hconceal none 0⟩

end

end Roomsync.Orchestrator
