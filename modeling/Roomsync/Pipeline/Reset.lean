import Roomsync.Pipeline.Range
/-!
# What calls depend on

A received frame goes through the stages; the loss counter and the last readings are a
ledger that no stage reads.  So lost frames leave no trace in what comes later, and after a
reset nothing is left of the calls before it.
-/

namespace Roomsync.Orchestrator

open Roomsync.Lib
open Pipeline.Noise (NoiseSuppressor frameSize hann)
open Pipeline.Aec (AecProcessor)

noncomputable section

structure SameStages (p q : Pipeline) : Prop where
  aec : p.aec = q.aec
  noise : p.noise = q.noise
  sep : p.sep = q.sep
  plc : p.plc = q.plc
  gpuActive : p.gpuActive = q.gpuActive

structure Current (p : Pipeline) : Prop where
  erleDb : p.lastStats.erleDb = p.aec.erleDb
  noiseReduction : p.lastStats.noiseReduction = p.noise.reductionDb
  plcLossMs : p.lastStats.plcLossMs = p.plcLossMs

namespace SameStages

variable {p q p' : Pipeline} {frame : Pointer ℝ} {nSamples : ℕ} {out : List ℝ}

theorem refl (p : Pipeline) : SameStages p p := ⟨rfl, rfl, rfl, rfl, rfl⟩

theorem eq_of_ledger (h : SameStages p q) :
    q = { p with lastStats := q.lastStats, plcLossMs := q.plcLossMs } := by
  obtain ⟨aec, noise, sep, plc, stats, lossMs, gpuActive⟩ := p
  obtain ⟨rfl, rfl, rfl, rfl, rfl⟩ := h
  rfl

theorem processReceived (h : SameStages p q)
    (hp : p.processReceived frame nSamples = some (out, p')) :
    ∃ q', q.processReceived frame nSamples = some (out, q') ∧ SameStages p' q' ∧
      q'.plcLossMs = p'.plcLossMs := by
  have hq : q.processReceived frame nSamples =
      (p.processReceived frame nSamples).map fun r =>
        (r.1, { r.2 with lastStats := q.lastStats }) := by
    rw [h.eq_of_ledger]
    unfold Pipeline.processReceived
    dsimp only
    cases p.aec.process frame nSamples with
    | none => rfl
    | some aecResult =>
        obtain ⟨samples, aec⟩ := aecResult
        simp only [Option.bind_eq_bind, Option.bind_some]
        cases p.noise.process samples.get with
        | none => rfl
        | some noiseResult =>
            obtain ⟨denoised, noise⟩ := noiseResult
            simp only [Option.bind_some]
            cases p.sep.process (some (List.ofFn denoised)) (List.ofFn denoised).length with
            | none => rfl
            | some separated =>
                simp only [Option.bind_some]
                cases p.plc.pushGoodFrame (some separated) separated.length with
                | none => rfl
                | some plc => rfl
  rw [hp] at hq
  exact ⟨_, hq, ⟨rfl, rfl, rfl, rfl, rfl⟩, rfl⟩

theorem processLost (h : SameStages p q) (hloss : q.plcLossMs = p.plcLossMs)
    (hp : p.processLost = some (out, p')) :
    ∃ q', q.processLost = some (out, q') ∧ SameStages p' q' ∧ q'.plcLossMs = p'.plcLossMs := by
  have hq : q.processLost =
      p.processLost.map fun r => (r.1, { r.2 with lastStats := q.lastStats }) := by
    rw [h.eq_of_ledger, hloss]
    unfold Pipeline.processLost
    dsimp only
    cases p.plc.conceal ((p.plcLossMs + Pipeline.Plc.frameSizeMs).bmod (2 ^ 32)) with
    | none => rfl
    | some samples => rfl
  rw [hp] at hq
  exact ⟨_, hq, ⟨rfl, rfl, rfl, rfl, rfl⟩, rfl⟩

end SameStages

/-! ## Linked pipelines -/

namespace Call

def kept : Call → Bool
  | .processLost _ _ => false
  | _ => true

def withMs (ms : ℝ) : Call → Call
  | .process frame _ => .process frame ms
  | .processLost frame _ => .processLost frame ms
  | call => call

theorem exists_withMs (call : Call) : ∃ ms, call.withMs ms = call := by
  cases call with
  | pushReference frame => exact ⟨0, rfl⟩
  | process frame ms => exact ⟨ms, rfl⟩
  | processLost frame ms => exact ⟨ms, rfl⟩
  | reset => exact ⟨0, rfl⟩

end Call

/-- The readings that a call leaves, except for the clock's. -/
structure SameStats (s t : FrameStats) : Prop where
  erleDb : s.erleDb = t.erleDb
  noiseReduction : s.noiseReduction = t.noiseReduction
  plcLossMs : s.plcLossMs = t.plcLossMs

structure Linked (p q : Pipeline) : Prop where
  sound : p.Sound
  stages : SameStages p q
  current : Current p
  current' : Current q

namespace Linked

variable {p q : Pipeline}

theorem init (cfg : PipelineConfig) :
    Linked (Pipeline.new.init cfg).2 (Pipeline.new.init cfg).2 where
  sound := Pipeline.Sound.init cfg
  stages := SameStages.refl _
  current := ⟨rfl, rfl, rfl⟩
  current' := ⟨rfl, rfl, rfl⟩

theorem reported (hp : p.Sound) (h : SameStages p q) (ms ms' : ℝ) :
    Linked (p.reported ms) (q.reported ms') where
  sound := ⟨hp.aec, hp.hannWin, hp.whole, hp.history, hp.sep, hp.gpuActive⟩
  stages := ⟨h.aec, h.noise, h.sep, h.plc, h.gpuActive⟩
  current := ⟨rfl, rfl, rfl⟩
  current' := ⟨rfl, rfl, rfl⟩

theorem erleDb_eq (h : Linked p q) : p.lastStats.erleDb = q.lastStats.erleDb := by
  rw [h.current.erleDb, h.current'.erleDb, h.stages.aec]

theorem noiseReduction_eq (h : Linked p q) :
    p.lastStats.noiseReduction = q.lastStats.noiseReduction := by
  rw [h.current.noiseReduction, h.current'.noiseReduction, h.stages.noise]

theorem step (h : Linked p q) {call : Call} (hkept : call.kept = true) (ms : ℝ) :
    ∃ a p' b q', Orchestrator.step p call = some (a, p') ∧
      Orchestrator.step q (call.withMs ms) = some (b, q') ∧
      (a.out = b.out ∧ a.stats = p'.lastStats ∧ b.stats = q'.lastStats) ∧ Linked p' q' ∧
      (q.plcLossMs = p.plcLossMs → q'.plcLossMs = p'.plcLossMs) := by
  cases call with
  | pushReference frame =>
      obtain ⟨t, ht⟩ := h.sound.aec
      have ht' : Pipeline.Aec.Follows q.aec t := h.stages.aec ▸ ht
      have hstages : SameStages (p.heard frame) (q.heard frame) := by
        refine ⟨?_, h.stages.noise, h.stages.sep, h.stages.plc, h.stages.gpuActive⟩
        show p.aec.heard frame = q.aec.heard frame
        rw [h.stages.aec]
      exact ⟨_, _, _, _, step_pushReference ht frame, step_pushReference ht' frame,
        ⟨rfl, rfl, rfl⟩, ⟨h.sound.heard frame, hstages,
          ⟨h.current.erleDb, h.current.noiseReduction, h.current.plcLossMs⟩,
          ⟨h.current'.erleDb, h.current'.noiseReduction, h.current'.plcLossMs⟩⟩, id⟩
  | process frame msCall =>
      obtain ⟨out, p', hp, -, hsound⟩ := h.sound.processReceived frame
      obtain ⟨q', hq, hstages, hloss⟩ := h.stages.processReceived hp
      exact ⟨_, _, _, _, step_process hp msCall, step_process hq ms, ⟨rfl, rfl, rfl⟩,
        reported hsound hstages msCall ms, fun _ => hloss⟩
  | processLost frame msCall => exact absurd hkept Bool.false_ne_true
  | reset =>
      have hstages : SameStages p.reset q.reset := by
        obtain ⟨haec, hnoise, hsep, hplc, hgpu⟩ := h.stages
        refine ⟨?_, ?_, ?_, rfl, hgpu⟩
        · show p.aec.reset = q.aec.reset
          rw [haec]
        · show p.noise.reset = q.noise.reset
          rw [hnoise]
        · show p.sep.reset = q.sep.reset
          rw [hsep]
      exact ⟨_, _, _, _, rfl, rfl, ⟨rfl, rfl, rfl⟩,
        ⟨h.sound.reset, hstages, ⟨rfl, rfl, rfl⟩, ⟨rfl, rfl, rfl⟩⟩, fun _ => rfl⟩

theorem step_lost (h : Linked p q) (frame : Option (Buffer frameSize ℝ)) (ms : ℝ) :
    ∃ a p', Orchestrator.step p (.processLost frame ms) = some (a, p') ∧ Linked p' q := by
  obtain ⟨base, hconceal, -⟩ := Pipeline.Plc.PlcProcessor.conceal_eq_some h.sound.whole
  have hp := Pipeline.processLost_eq_some (hconceal p.nextLossMs)
  refine ⟨_, _, step_processLost hp frame ms, ?_⟩
  exact {
    sound := ⟨h.sound.aec, h.sound.hannWin, h.sound.whole, h.sound.history, h.sound.sep,
      h.sound.gpuActive⟩
    stages := ⟨h.stages.aec, h.stages.noise, h.stages.sep, h.stages.plc, h.stages.gpuActive⟩
    current := ⟨rfl, rfl, rfl⟩
    current' := h.current' }

theorem step_lost_both (h : Linked p q) (hloss : q.plcLossMs = p.plcLossMs)
    (frame : Option (Buffer frameSize ℝ)) (ms ms' : ℝ) :
    ∃ a p' b q', Orchestrator.step p (.processLost frame ms) = some (a, p') ∧
      Orchestrator.step q (.processLost frame ms') = some (b, q') ∧
      (a.out = b.out ∧ a.stats = p'.lastStats ∧ b.stats = q'.lastStats) ∧ Linked p' q' ∧
      q'.plcLossMs = p'.plcLossMs := by
  obtain ⟨out, p', hp, -, hsound⟩ := h.sound.processLost
  obtain ⟨q', hq, hstages, hloss'⟩ := h.stages.processLost hloss hp
  exact ⟨_, _, _, _, step_processLost hp frame ms, step_processLost hq frame ms',
    ⟨rfl, rfl, rfl⟩, reported hsound hstages ms ms', hloss'⟩

end Linked

/-! ## Deleting lost frames -/

/-- The same frame, and the same readings of the first two stages. -/
def SameReadings (a b : Answer) : Prop :=
  a.out = b.out ∧ a.stats.erleDb = b.stats.erleDb ∧
    a.stats.noiseReduction = b.stats.noiseReduction

/-- Without the calls for lost frames, all others answer as before and leave the same
stages. -/
theorem losses_leave_no_trace (cfg : PipelineConfig) (calls : List Call) :
    ∃ answers p answers' p', run cfg calls = some (answers, p) ∧
      run cfg (calls.filter Call.kept) = some (answers', p') ∧
      List.Forall₂ SameReadings (answersTo Call.kept calls answers) answers' ∧
      p.aec = p'.aec ∧ p.noise = p'.noise ∧ p.plc = p'.plc := by
  have hdrop : ∀ p q call, call.kept = false → Linked p q →
      ∃ a p', step p call = some (a, p') ∧ Linked p' q := by
    intro p q call hkept h
    cases call with
    | processLost frame ms => exact h.step_lost frame ms
    | _ => exact absurd hkept.symm Bool.false_ne_true
  have hkeep : ∀ p q call, call.kept = true → Linked p q →
      ∃ a p' b q', step p call = some (a, p') ∧ step q call = some (b, q') ∧
        SameReadings a b ∧ Linked p' q' := by
    intro p q call hkept h
    obtain ⟨ms, hms⟩ := call.exists_withMs
    obtain ⟨a, p', b, q', hp, hq, ⟨hout, ha, hb⟩, hlinked, -⟩ := h.step hkept ms
    rw [hms] at hq
    refine ⟨a, p', b, q', hp, hq, ⟨hout, ?_, ?_⟩, hlinked⟩
    · rw [ha, hb, hlinked.erleDb_eq]
    · rw [ha, hb, hlinked.noiseReduction_eq]
  obtain ⟨answers, p, answers', p', hrun, hrun', hsame, hlinked⟩ :=
    runM_filter hdrop hkeep (Linked.init cfg) calls
  exact ⟨answers, p, answers', p', hrun, hrun', hsame, hlinked.stages.aec, hlinked.stages.noise,
    hlinked.stages.plc⟩

/-! ## Starting again -/

theorem reset_eq_init {p : Pipeline} (hp : p.Sound) (cfg : PipelineConfig) :
    p.reset = (Pipeline.new.init cfg).2 := by
  obtain ⟨t, ht⟩ := hp.aec
  have haec : p.aec.reset = (AecProcessor.new.init cfg.aecNresOnnx).2 := by
    show AecProcessor.mk _ _ _ _ _ = AecProcessor.mk _ _ _ _ _
    rw [List.map_const', List.map_const', ht.length_refBuf, ht.length_w]
    rfl
  have hnoise : p.noise.reset = .new := by
    unfold NoiseSuppressor.reset
    rw [hp.hannWin]
    rfl
  unfold Pipeline.reset
  rw [haec, hnoise, hp.sep, hp.gpuActive]
  rfl

def SameAnswer (a b : Answer) : Prop := a.out = b.out ∧ SameStats a.stats b.stats

def retimed (clock : ℕ → ℝ) (calls : List Call) : List Call :=
  calls.mapIdx fun i call => call.withMs (clock i)

theorem forall₂_retimed (clock : ℕ → ℝ) (calls : List Call) :
    List.Forall₂ (fun e f => ∃ ms, f = Call.withMs ms e) calls (retimed clock calls) := by
  induction calls generalizing clock with
  | nil => exact List.Forall₂.nil
  | cons call calls ih =>
      unfold retimed
      rw [List.mapIdx_cons]
      exact List.Forall₂.cons ⟨clock 0, rfl⟩ (ih fun i => clock (i + 1))

/-- After any history and a reset, calls answer as on a newly initialised pipeline. -/
theorem reset_as_fresh (cfg : PipelineConfig) (history later : List Call) (clock : ℕ → ℝ) :
    ∃ before after fresh p q,
      run cfg (history ++ .reset :: later) = some (before ++ after, p) ∧
      before.length = history.length + 1 ∧
      run cfg (retimed clock later) = some (fresh, q) ∧
      List.Forall₂ SameAnswer after fresh := by
  obtain ⟨past, r, hpast, hreturns, hr⟩ := run_sound cfg history
  have hreset : step r .reset = some (⟨none, r.reset.stats⟩, (Pipeline.new.init cfg).2) := by
    rw [← reset_eq_init hr cfg]
    rfl
  have hstep : ∀ p q call call', Linked p q ∧ q.plcLossMs = p.plcLossMs →
      (∃ ms, call' = Call.withMs ms call) →
      ∃ a p' b q', step p call = some (a, p') ∧ step q call' = some (b, q') ∧
        SameAnswer a b ∧ Linked p' q' ∧ q'.plcLossMs = p'.plcLossMs := by
    intro p q call call' h hcall
    obtain ⟨ms, rfl⟩ := hcall
    have hboth : ∃ a p' b q', step p call = some (a, p') ∧ step q (call.withMs ms) = some (b, q') ∧
        (a.out = b.out ∧ a.stats = p'.lastStats ∧ b.stats = q'.lastStats) ∧ Linked p' q' ∧
        q'.plcLossMs = p'.plcLossMs := by
      cases hkept : call.kept with
      | true =>
          obtain ⟨a, p', b, q', hp, hq, hanswers, hlinked, hloss⟩ := h.1.step hkept ms
          exact ⟨a, p', b, q', hp, hq, hanswers, hlinked, hloss h.2⟩
      | false =>
          cases call with
          | processLost frame msCall => exact h.1.step_lost_both h.2 frame msCall ms
          | _ => exact absurd hkept.symm Bool.false_ne_true
    obtain ⟨a, p', b, q', hp, hq, ⟨hout, ha, hb⟩, hlinked, hloss⟩ := hboth
    refine ⟨a, p', b, q', hp, hq, ⟨hout, ?_⟩, hlinked, hloss⟩
    rw [ha, hb]
    refine ⟨hlinked.erleDb_eq, hlinked.noiseReduction_eq, ?_⟩
    rw [hlinked.current.plcLossMs, hlinked.current'.plcLossMs, hloss]
  obtain ⟨after, p, fresh, q, hlater, hfresh, hsame, -⟩ :=
    runM_related (A := SameAnswer) hstep ⟨Linked.init cfg, rfl⟩ (forall₂_retimed clock later)
  refine ⟨past ++ [⟨none, r.reset.stats⟩], after, fresh, p, q, ?_, ?_, hfresh, hsame⟩
  · rw [List.append_assoc]
    exact runM_append hpast (runM_cons hreset hlater)
  · rw [List.length_append, List.length_singleton, hreturns.length_eq]

end

end Roomsync.Orchestrator
