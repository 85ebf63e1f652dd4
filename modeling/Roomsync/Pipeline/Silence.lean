import Roomsync.Pipeline.Range
/-!
# Silence in, silence out

As long as the microphone is silent, the canceller has nothing to adapt to, and no stage
adds anything of its own: not even the reference frames come through.
-/

namespace Roomsync.Orchestrator

open Roomsync.Lib
open Pipeline.Noise (NoiseSuppressor frameSize frameSize_le_fftSize)
open Pipeline.Aec (AecProcessor Follows Nlms nlmsLen stepSize tap)
open Pipeline.Plc (PlcProcessor)

noncomputable section

/-- The canceller without weights, after the reference frames of `stream`. -/
def unadapted (stream : List ℝ) : Nlms := ⟨stream, fun _ => 0⟩

theorem unadapted_process (stream : List ℝ) {micFrame : Buffer frameSize ℝ}
    (hmic : ∀ i, micFrame i = 0) :
    ((unadapted stream).step (.process micFrame)).2 = unadapted stream ∧
      ∀ n : Fin frameSize, (unadapted stream).errorAt micFrame n = 0 := by
  have hsignal : ∀ n < frameSize, micFrame.getD 0 n = 0 := fun n _ => Buffer.getD_of_const hmic n
  obtain ⟨hweights, herrors⟩ := lms_silent (stepSize stream) (tap stream) hsignal
  exact ⟨congrArg (Nlms.mk stream) hweights, fun n => herrors n n.isLt⟩

namespace Pipeline

structure Quiet (p : Pipeline) : Prop where
  sound : p.Sound
  aec : ∃ stream, Follows p.aec (unadapted stream)
  history : ∀ frame ∈ p.plc.history, ∀ x ∈ frame, x = 0

namespace Quiet

variable {p : Pipeline}

theorem init (cfg : PipelineConfig) : Quiet (Pipeline.new.init cfg).2 where
  sound := Sound.init cfg
  aec := ⟨[], Follows.init .new cfg.aecNresOnnx⟩
  history := fun _ hframe => absurd hframe List.not_mem_nil

theorem heard (hp : Quiet p) (frame : Buffer frameSize ℝ) : Quiet (p.heard frame) := by
  obtain ⟨stream, hstream⟩ := hp.aec
  exact ⟨hp.sound.heard frame, ⟨_, hstream.heard frame⟩, hp.history⟩

theorem reported (hp : Quiet p) (ms : ℝ) : Quiet (p.reported ms) :=
  ⟨hp.sound.reported ms, hp.aec, hp.history⟩

theorem reset (hp : Quiet p) : Quiet p.reset := by
  obtain ⟨stream, hstream⟩ := hp.aec
  exact ⟨hp.sound.reset, ⟨[], hstream.reset⟩, fun _ hframe => absurd hframe List.not_mem_nil⟩

theorem processReceived (hp : Quiet p) {frame : Buffer frameSize ℝ} (hframe : ∀ i, frame i = 0) :
    ∃ p', p.processReceived (some (List.ofFn frame)) frameSize =
      some (List.replicate frameSize 0, p') ∧ Quiet p' := by
  obtain ⟨stream, hstream⟩ := hp.aec
  obtain ⟨hunadapted, herrors⟩ := unadapted_process stream hframe
  obtain ⟨denoised, noise, hnoise, hprocessed⟩ :=
    p.noise.process_spec frameSize_le_fftSize
      fun n : Fin frameSize => (unadapted stream).errorAt frame n
  have hdenoised : List.ofFn denoised = List.replicate frameSize 0 := by
    rw [hprocessed.out, NoiseSuppressor.denoised_silent herrors, ← List.ofFn_const]
    apply congrArg List.ofFn
    ext i
    exact NoiseSuppressor.samples_zero i
  have hplc := p.plc.pushGoodFrame_eq_some (List.ofFn denoised)
  have hreceived := processReceived_eq_some hstream frame hnoise hplc
  obtain ⟨out, p', hsound, -, hp'⟩ := hp.sound.processReceived frame
  rw [hreceived] at hsound
  obtain ⟨rfl, rfl⟩ := Prod.mk.inj (Option.some.inj hsound)
  have hadapted := hstream.adapted frame
  rw [hunadapted] at hadapted
  refine ⟨_, ?_, hp', ⟨stream, hadapted⟩, ?_⟩
  · rw [hdenoised] at hreceived ⊢
    exact hreceived
  · apply PlcProcessor.forall_mem_pushGoodFrame hp.history _ hplc
    intro x hx
    rw [hdenoised] at hx
    exact List.eq_of_mem_replicate hx

theorem processLost (hp : Quiet p) :
    ∃ p', p.processLost = some (List.replicate frameSize 0, p') ∧ Quiet p' := by
  obtain ⟨base, hconceal, hsilent⟩ := PlcProcessor.conceal_eq_some hp.sound.whole
  have hout : p.plc.conceal p.nextLossMs = some (List.replicate frameSize 0) := by
    rw [hconceal, ← List.ofFn_const]
    apply congrArg some
    apply congrArg List.ofFn
    ext n
    rw [hsilent hp.history n, zero_mul]
  have hlost := processLost_eq_some hout
  obtain ⟨out, p', hsound, -, hp'⟩ := hp.sound.processLost
  rw [hlost] at hsound
  obtain ⟨rfl, rfl⟩ := Prod.mk.inj (Option.some.inj hsound)
  exact ⟨_, hlost, hp', hp.aec, hp.history⟩

end Quiet

end Pipeline

def Call.Silent : Call → Prop
  | .process micFrame _ => ∀ i, micFrame i = 0
  | _ => True

def ReturnsSilence : Call → Answer → Prop
  | .process _ _, answer => answer.out = some (List.replicate frameSize 0)
  | .processLost _ _, answer => answer.out = some (List.replicate frameSize 0)
  | _, _ => True

theorem Pipeline.Quiet.step {p : Pipeline} (hp : p.Quiet) {call : Call} (hcall : call.Silent) :
    ∃ answer p', Orchestrator.step p call = some (answer, p') ∧ ReturnsSilence call answer ∧
      p'.Quiet := by
  cases call with
  | pushReference frame =>
      obtain ⟨stream, hstream⟩ := hp.aec
      exact ⟨_, _, step_pushReference hstream frame, trivial, hp.heard frame⟩
  | process micFrame ms =>
      obtain ⟨p', hreceived, hp'⟩ := hp.processReceived hcall
      exact ⟨_, _, step_process hreceived ms, rfl, hp'.reported ms⟩
  | processLost frame ms =>
      obtain ⟨p', hlost, hp'⟩ := hp.processLost
      exact ⟨_, _, step_processLost hlost frame ms, rfl, hp'.reported ms⟩
  | reset => exact ⟨_, p.reset, rfl, trivial, hp.reset⟩

/-- While the microphone is silent, every frame returned is, and the filter has no weights. -/
theorem silence_in_silence_out (cfg : PipelineConfig) {calls : List Call}
    (hsilent : ∀ call ∈ calls, call.Silent) :
    ∃ answers p, run cfg calls = some (answers, p) ∧
      List.Forall₂ ReturnsSilence calls answers ∧ p.aec.w = List.replicate nlmsLen 0 := by
  have hstep : ∀ (p : Pipeline), ∀ call ∈ calls, p.Quiet →
      ∃ answer p', step p call = some (answer, p') ∧ ReturnsSilence call answer ∧ p'.Quiet :=
    fun p call hcall hp => hp.step (hsilent call hcall)
  obtain ⟨answers, p, hrun, hreturns, hp⟩ := runM_invariant hstep (Pipeline.Quiet.init cfg)
  obtain ⟨stream, hstream⟩ := hp.aec
  exact ⟨answers, p, hrun, hreturns, hstream.w.trans (List.ofFn_const nlmsLen 0)⟩

/-- The far end talks, a frame gets lost, and the microphone stays silent. -/
theorem silence_under_far_end :
    ∃ answers p, run {} [.pushReference fun _ => 1, .process (fun _ => 0) 0,
        .processLost none 0] = some (answers, p) ∧
      List.Forall₂ ReturnsSilence [.pushReference fun _ => 1, .process (fun _ => 0) 0,
        .processLost none 0] answers ∧ p.aec.w = List.replicate nlmsLen 0 := by
  apply silence_in_silence_out
  intro call hcall
  rcases List.mem_cons.mp hcall with rfl | hcall
  · trivial
  · rcases List.mem_cons.mp hcall with rfl | hcall
    · exact fun _ => rfl
    · obtain rfl := List.mem_singleton.mp hcall
      trivial

end

end Roomsync.Orchestrator
