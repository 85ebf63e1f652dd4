import Roomsync.Pipeline.Noise.Attenuation
import Roomsync.Pipeline.Range
/-!
# Pauses of the far end

Five silent reference frames are more than the taps of a frame look back on.  From then on the
canceller leaves the microphone alone and keeps what it has learnt, until the far end talks
again.
-/

namespace Roomsync.Orchestrator

open Roomsync.Lib
open Pipeline.Noise (NoiseSuppressor frameSize frameSize_le_fftSize hann)
open Pipeline.Aec (Follows Nlms nlmsLen frameSize_eq stepSize tap)
open Pipeline.Plc (PlcProcessor energy energy_ofFn)

noncomputable section

/-- The last `frames` frames of the stream are silent, or there were none. -/
def EndsSilent (frames : ℕ) (stream : List ℝ) : Prop :=
  ∀ t < (stream.length : ℤ), stream.length - frames * frameSize ≤ t → streamAt 0 stream t = 0

theorem endsSilent_zero (stream : List ℝ) : EndsSilent 0 stream := by
  intro t ht hfrom
  omega

theorem EndsSilent.mono {frames more : ℕ} {stream : List ℝ} (h : EndsSilent more stream)
    (hle : frames ≤ more) : EndsSilent frames stream := by
  intro t ht hfrom
  apply h t ht
  rw [frameSize_eq] at *
  omega

theorem EndsSilent.push {frames : ℕ} {stream : List ℝ} (h : EndsSilent frames stream)
    {refFrame : Buffer frameSize ℝ} (hframe : ∀ i, refFrame i = 0) :
    EndsSilent (frames + 1) (stream ++ List.ofFn refFrame) := by
  have hzeros : List.ofFn refFrame = List.replicate frameSize 0 := by
    rw [← List.ofFn_const]
    exact congrArg List.ofFn (funext hframe)
  rw [hzeros]
  intro t ht hfrom
  rw [List.length_append, List.length_replicate] at ht hfrom
  push_cast at ht hfrom
  unfold streamAt
  split
  · rfl
  · rename_i hneg
    obtain ⟨i, rfl⟩ := Int.eq_ofNat_of_zero_le (not_lt.mp hneg)
    rw [Int.toNat_natCast, List.getD_eq_getElem?_getD]
    by_cases hold : i < stream.length
    · have hsilent := h i (by omega) (by rw [frameSize_eq] at *; omega)
      unfold streamAt at hsilent
      rw [if_neg hneg, Int.toNat_natCast, List.getD_eq_getElem?_getD] at hsilent
      rw [List.getElem?_append_left hold]
      exact hsilent
    · rw [List.getElem?_append_right (not_lt.mp hold), List.getElem?_replicate]
      split <;> rfl

theorem EndsSilent.tap {stream : List ℝ} (h : EndsSilent 5 stream) {n : ℕ} (hn : n < frameSize)
    (k : Fin nlmsLen) : tap stream n k = 0 := by
  have hk : (k : ℕ) < 512 := k.isLt
  apply h
  · rw [frameSize_eq] at *
    omega
  · rw [frameSize_eq] at *
    omega

/-- The canceller has nothing to subtract and nothing to learn from. -/
theorem EndsSilent.process {t : Nlms} (h : EndsSilent 5 t.stream)
    (micFrame : Buffer frameSize ℝ) :
    t.weightsAt micFrame frameSize = t.w ∧
      ∀ n : Fin frameSize, t.errorAt micFrame n = micFrame n := by
  obtain ⟨hweights, herrors⟩ :=
    lms_unheard (stepSize t.stream) (micFrame.getD 0) t.w fun n hn => h.tap (n := n) hn
  refine ⟨hweights, fun n => ?_⟩
  exact (herrors n n.isLt).trans (Buffer.getD_of_lt _ _ n.isLt)

/-! ## The pipeline -/

/-- No reset, and nothing to hear from the far end. -/
def Call.FarEndPauses : Call → Prop
  | .pushReference frame => ∀ i, frame i = 0
  | .reset => False
  | _ => True

def referenceFrames : List Call → ℕ
  | [] => 0
  | .pushReference _ :: calls => referenceFrames calls + 1
  | _ :: calls => referenceFrames calls

def NotAmplified : Call → Answer → Prop
  | .process frame _, answer =>
      ∃ out, answer.out = some out ∧ energy out ≤ energy (List.ofFn frame)
  | _, _ => True

namespace Pipeline

/-- The far end was silent for so many frames at least, and the noise estimate is usable. -/
structure Paused (frames : ℕ) (p : Pipeline) : Prop where
  sound : p.Sound
  noisePsd : ∀ k, 0 < p.noise.noisePsd k
  aec : ∃ t, Follows p.aec t ∧ EndsSilent frames t.stream

namespace Paused

variable {frames : ℕ} {p : Pipeline}

theorem init (cfg : PipelineConfig) : Paused 0 (Pipeline.new.init cfg).2 where
  sound := .init cfg
  noisePsd := by
    intro k
    show (0 : ℝ) < 1e-6
    norm_num
  aec := ⟨_, Follows.init .new cfg.aecNresOnnx, endsSilent_zero _⟩

theorem mono {more : ℕ} (h : Paused more p) (hle : frames ≤ more) : Paused frames p := by
  obtain ⟨t, ht, hsilent⟩ := h.aec
  exact ⟨h.sound, h.noisePsd, t, ht, hsilent.mono hle⟩

theorem heard (h : Paused frames p) {frame : Buffer frameSize ℝ} (hframe : ∀ i, frame i = 0) :
    Paused (frames + 1) (p.heard frame) := by
  obtain ⟨t, ht, hsilent⟩ := h.aec
  exact ⟨h.sound.heard frame, h.noisePsd, _, ht.heard frame, hsilent.push hframe⟩

theorem reported (h : Paused frames p) (ms : ℝ) : Paused frames (p.reported ms) :=
  ⟨h.sound.reported ms, h.noisePsd, h.aec⟩

theorem processLost (h : Paused frames p) :
    ∃ out p', p.processLost = some (out, p') ∧ p'.aec = p.aec ∧ Paused frames p' := by
  obtain ⟨base, hconceal, -⟩ := PlcProcessor.conceal_eq_some h.sound.whole
  exact ⟨_, _, processLost_eq_some (hconceal _), rfl, h.sound.lossCounted, h.noisePsd, h.aec⟩

theorem processReceived (h : Paused frames p) (frame : Buffer frameSize ℝ) :
    ∃ out p', p.processReceived (some (List.ofFn frame)) frameSize = some (out, p') ∧
      Paused frames p' ∧
      (5 ≤ frames → p'.aec.w = p.aec.w ∧ energy out ≤ energy (List.ofFn frame)) := by
  obtain ⟨t, ht, hsilent⟩ := h.aec
  obtain ⟨denoised, noise, hnoise, hprocessed⟩ :=
    p.noise.process_spec frameSize_le_fftSize fun n : Fin frameSize => t.errorAt frame n
  have hpsd : ∀ k, 0 < noise.noisePsd k := by
    intro k
    rcases hprocessed.noisePsd with hsame | hblend
    · rw [hsame]
      exact h.noisePsd k
    · rw [hblend]
      exact Pipeline.Noise.blend_pos (h.noisePsd k) (Pipeline.Noise.binPower_nonneg _ _ _)
  have hplc := p.plc.pushGoodFrame_eq_some (List.ofFn denoised)
  have hreceived := processReceived_eq_some ht frame hnoise hplc
  obtain ⟨_, _, hp, -, hp'⟩ := h.sound.processReceived frame
  rw [hreceived] at hp
  obtain ⟨rfl, rfl⟩ := Prod.mk.inj (Option.some.inj hp)
  refine ⟨_, _, hreceived, ⟨hp', hpsd, _, ht.adapted frame, hsilent⟩, fun hframes => ?_⟩
  obtain ⟨hweights, herrors⟩ := (hsilent.mono hframes).process frame
  refine ⟨?_, ?_⟩
  · rw [ht.w, Pipeline.Aec.AecProcessor.adapted_w, hweights]
  · have hle := hprocessed.energy_le frameSize_le_fftSize h.sound.hannWin hpsd
    simp only [herrors] at hle
    rw [energy_ofFn, energy_ofFn]
    exact hle

end Paused

end Pipeline

section Runs

variable {frames : ℕ} {p : Pipeline}

theorem Pipeline.Paused.step (h : p.Paused frames) {call : Call} (hcall : call.FarEndPauses) :
    ∃ answer p', step p call = some (answer, p') ∧
      p'.Paused (frames + referenceFrames [call]) ∧
      (5 ≤ frames → p'.aec.w = p.aec.w ∧ NotAmplified call answer) := by
  cases call with
  | pushReference frame =>
      obtain ⟨t, ht, -⟩ := h.aec
      exact ⟨_, _, step_pushReference ht frame, h.heard hcall, fun _ => ⟨rfl, trivial⟩⟩
  | process frame ms =>
      obtain ⟨out, p', hreceived, hp', hkept⟩ := h.processReceived frame
      refine ⟨_, _, step_process hreceived ms, hp'.reported ms, fun hframes => ?_⟩
      obtain ⟨hweights, henergy⟩ := hkept hframes
      exact ⟨hweights, out, rfl, henergy⟩
  | processLost frame ms =>
      obtain ⟨out, p', hlost, haec, hp'⟩ := h.processLost
      refine ⟨_, _, step_processLost hlost frame ms, hp'.reported ms, fun _ => ⟨?_, trivial⟩⟩
      show p'.aec.w = p.aec.w
      rw [haec]
  | reset => exact hcall.elim

theorem Pipeline.Paused.step_any (h : p.Paused 0) (call : Call) :
    ∃ answer p', Orchestrator.step p call = some (answer, p') ∧ p'.Paused 0 := by
  cases call with
  | pushReference frame =>
      obtain ⟨t, ht, -⟩ := h.aec
      exact ⟨_, _, step_pushReference ht frame, h.sound.heard frame, h.noisePsd, _,
        ht.heard frame, endsSilent_zero _⟩
  | process frame ms =>
      have hpauses : (Call.process frame ms).FarEndPauses := trivial
      obtain ⟨answer, p', hstep, hp', -⟩ := h.step hpauses
      exact ⟨answer, p', hstep, hp'⟩
  | processLost frame ms =>
      have hpauses : (Call.processLost frame ms).FarEndPauses := trivial
      obtain ⟨answer, p', hstep, hp', -⟩ := h.step hpauses
      exact ⟨answer, p', hstep, hp'⟩
  | reset =>
      obtain ⟨t, ht, -⟩ := h.aec
      refine ⟨_, _, rfl, h.sound.reset, fun k => ?_, _, ht.reset, endsSilent_zero _⟩
      show (0 : ℝ) < 1e-6
      norm_num

theorem Pipeline.Paused.run (h : p.Paused frames) {calls : List Call}
    (hcalls : ∀ call ∈ calls, call.FarEndPauses) :
    ∃ answers p', runM Orchestrator.step p calls = some (answers, p') ∧
      p'.Paused (frames + referenceFrames calls) := by
  induction calls generalizing frames p with
  | nil => exact ⟨[], p, rfl, h⟩
  | cons call calls ih =>
      obtain ⟨answer, p', hstep, hp', -⟩ := h.step (hcalls call List.mem_cons_self)
      obtain ⟨answers, p'', hrun, hp''⟩ := ih hp' fun c hc => hcalls c (List.mem_cons_of_mem _ hc)
      refine ⟨answer :: answers, p'', runM_cons hstep hrun, ?_⟩
      have hcount : frames + referenceFrames [call] + referenceFrames calls =
          frames + referenceFrames (call :: calls) := by
        cases call <;> simp only [referenceFrames] <;> omega
      rw [← hcount]
      exact hp''

end Runs

/-- After five silent reference frames, and until the far end talks again, the weights stay as
they are and no received frame is amplified. -/
theorem pause_keeps_weights (cfg : PipelineConfig) (before : List Call)
    {fading quiet : List Call} (hfading : ∀ call ∈ fading, call.FarEndPauses)
    (hframes : 5 ≤ referenceFrames fading) (hquiet : ∀ call ∈ quiet, call.FarEndPauses) :
    ∃ answers p answers' p', run cfg (before ++ fading) = some (answers, p) ∧
      runM step p quiet = some (answers', p') ∧ p'.aec.w = p.aec.w ∧
      List.Forall₂ NotAmplified quiet answers' := by
  have hany : ∀ (q : Pipeline), ∀ call ∈ before, q.Paused 0 →
      ∃ answer q', step q call = some (answer, q') ∧ True ∧ q'.Paused 0 := by
    intro q call _ hq
    obtain ⟨answer, q', hstep, hq'⟩ := Pipeline.Paused.step_any hq call
    exact ⟨answer, q', hstep, trivial, hq'⟩
  obtain ⟨as, q, hbefore, -, hq⟩ :=
    runM_invariant (A := fun _ _ => True) hany (Pipeline.Paused.init cfg)
  obtain ⟨bs, p, hfade, hp⟩ := hq.run hfading
  have hpaused : p.Paused 5 := hp.mono (by omega)
  have hstep : ∀ (p' : Pipeline), ∀ call ∈ quiet, p'.Paused 5 ∧ p'.aec.w = p.aec.w →
      ∃ answer p'', step p' call = some (answer, p'') ∧ NotAmplified call answer ∧
        p''.Paused 5 ∧ p''.aec.w = p.aec.w := by
    rintro p' call hcall ⟨hp', hweights⟩
    obtain ⟨answer, p'', hstep, hp'', hkept⟩ := hp'.step (hquiet call hcall)
    obtain ⟨hweights', hout⟩ := hkept le_rfl
    exact ⟨answer, p'', hstep, hout, hp''.mono (Nat.le_add_right _ _),
      hweights'.trans hweights⟩
  obtain ⟨answers', p', hrun, hout, -, hweights⟩ := runM_invariant hstep ⟨hpaused, rfl⟩
  exact ⟨as ++ bs, p, answers', p', runM_append hbefore hfade, hrun, hweights, hout⟩

theorem pause_keeps_weights_once :
    ∃ answers p answers' p', run {} ([.pushReference fun _ => 1, .process (fun _ => 1) 0] ++
        List.replicate 5 (.pushReference fun _ => 0)) = some (answers, p) ∧
      runM step p [.process (fun _ => 1) 0] = some (answers', p') ∧ p'.aec.w = p.aec.w ∧
      List.Forall₂ NotAmplified [.process (fun _ => 1) 0] answers' := by
  apply pause_keeps_weights
  · intro call hcall
    rw [List.eq_of_mem_replicate hcall]
    exact fun _ => rfl
  · exact le_rfl
  · intro call hcall
    rw [List.mem_singleton.mp hcall]
    trivial

end

end Roomsync.Orchestrator
