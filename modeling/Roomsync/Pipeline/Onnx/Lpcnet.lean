import Roomsync.Pipeline.Onnx.Build
/-!
# A burst of lost frames with LPCNet

The model takes over when 40 ms are lost, and nothing fades what it returns.
-/

namespace Roomsync.Orchestrator

open Roomsync.Lib
open Pipeline.Noise (frameSize)
open Pipeline.Plc (PlcProcessor historyFrames plcAiMaxMs)

noncomputable section

/-- The `i`-th frame of a burst, `b` being what linear prediction makes of the history. -/
def lostFrame (session : Session) (s : PlcProcessor) (b : List ℝ) (i : ℕ) : List ℝ :=
  if 4 ≤ i ∧ s.history ≠ [] then
    ((session (plcRequest (lpcnetInput s))).getD []).take frameSize
  else faded b i

theorem conceal_lpcnet {s : PlcProcessor} (hs : s.Whole)
    (hhistory : s.history.length ≤ historyFrames) {session : Session}
    (hanswer : session.Answers plcRequest (historyFrames * frameSize)) {b : List ℝ}
    (hconceal : ∀ lossMs : ℤ, s.conceal lossMs =
      some (b.map fun x => x * max 0 (1 - (lossMs : ℝ) / plcAiMaxMs))) (i : ℕ) :
    conceal s (some session) ((10 * i : ℕ) : ℤ) = some (lostFrame session s b i) := by
  unfold conceal lostFrame
  dsimp only
  by_cases hai : 4 ≤ i ∧ s.history ≠ []
  · obtain ⟨hi, hne⟩ := hai
    have hempty : ¬ s.history.isEmpty = true := fun h => hne (List.isEmpty_iff.mp h)
    have hlate : ((10 * i : ℕ) : ℤ) ≥ plcFecMaxMs := by
      unfold plcFecMaxMs
      omega
    obtain ⟨tensor, hrun, hlong⟩ := hanswer _ (length_lpcnetInput hs hhistory)
    rw [if_pos ⟨hlate, hempty⟩, if_pos ⟨hi, hne⟩, context_eq_some hs hhistory,
      Option.bind_eq_bind, Option.bind_some]
    unfold Session.copyOut Pointer.copy
    rw [hrun, Option.bind_eq_bind, Option.bind_some, Option.bind_some, if_pos hlong,
      Option.getD_some]
  · have hearly : ¬ (((10 * i : ℕ) : ℤ) ≥ plcFecMaxMs ∧ ¬ s.history.isEmpty = true) := by
      rintro ⟨hlate, hempty⟩
      unfold plcFecMaxMs at hlate
      exact hai ⟨by omega, fun h => hempty (List.isEmpty_iff.mpr h)⟩
    rw [if_neg hearly, if_neg hai, hconceal, fade_eq]
    rfl

theorem lpcnet_burst_run {f : ℕ → List ℝ} {p : OnnxPipeline} (hp : p.plain.Sound)
    (hconceal : ∀ i : ℕ, conceal p.plain.plc p.sessions.lpcnet ((10 * i : ℕ) : ℤ) =
      some (f i))
    {j : ℕ} (hloss : p.plain.plcLossMs = (10 * j : ℕ)) {calls : List Call}
    (hburst : ∀ call ∈ calls, call.lost = true ∨ call.reference = true)
    (hcount : 10 * (j + lostCount calls) < 2 ^ 31) :
    ∃ answers p', runM OnnxPipeline.step p calls = some (answers, p') ∧
      p'.plain.plc = p.plain.plc ∧
      (answersTo Call.lost calls answers).map (fun a => (a.out, a.stats.plcLossMs)) =
        (List.range' (j + 1) (lostCount calls)).map fun i =>
          (some (f i), ((10 * i : ℕ) : ℤ)) := by
  induction calls generalizing p j with
  | nil => exact ⟨[], p, rfl, rfl, rfl⟩
  | cons call calls ih =>
      have hrest : ∀ call ∈ calls, call.lost = true ∨ call.reference = true :=
        fun c hc => hburst c (List.mem_cons_of_mem _ hc)
      rcases Call.burst_cases (hburst call List.mem_cons_self) with
        ⟨frame, rfl⟩ | ⟨frame, ms, rfl⟩
      · obtain ⟨t, ht⟩ := hp.aec
        obtain ⟨answers, p', hrun, hplc, hanswers⟩ :=
          ih (p := { p with plain := p.plain.heard frame }) (hp.heard frame) hconceal hloss hrest
            hcount
        exact ⟨_, p', runM_cons (OnnxPipeline.step_pushReference ht frame) hrun, hplc, hanswers⟩
      · rw [lostCount_cons_lost] at hcount ⊢
        have hnext := nextLossMs_of_count hloss (by omega)
        have hout := hconceal (j + 1)
        rw [← hnext] at hout
        have hlost := OnnxPipeline.processLost_eq_some hout
        let counted : Pipeline := { p.plain with plcLossMs := p.plain.nextLossMs }
        obtain ⟨answers, p', hrun, hplc, hanswers⟩ :=
          ih (p := { p with plain := counted.reported ms }) (hp.lossCounted.reported ms) hconceal
            hnext hrest (by omega)
        refine ⟨_, p', runM_cons (OnnxPipeline.step_processLost hlost frame ms) hrun, hplc, ?_⟩
        rw [List.range'_succ, List.map_cons, ← hanswers, ← hnext]
        rfl

/-- With LPCNet the first three frames of a burst are predicted and fade; from the fourth on
each is the same output of the model on the same context, unfaded, if there is a history, as
long as the counter does not overflow. -/
theorem lpcnet_burst {load : String → Option Session} {cfg : PipelineConfig} {ok : Bool}
    {p : OnnxPipeline} (hinit : OnnxPipeline.new.init load cfg = some (ok, p))
    (hanswer : p.sessions.Answer) {session : Session} (hlpcnet : p.sessions.lpcnet = some session)
    (before burst : List Call) (hbefore : Settled before)
    (hburst : ∀ call ∈ burst, call.lost = true ∨ call.reference = true)
    (hcount : 10 * lostCount burst < 2 ^ 31) :
    ∃ answers q b answers' q', runM OnnxPipeline.step p before = some (answers, q) ∧
      q.plain.plc.conceal 0 = some b ∧
      runM OnnxPipeline.step q burst = some (answers', q') ∧ q'.plain.plc = q.plain.plc ∧
      (answersTo Call.lost burst answers').map (fun a => (a.out, a.stats.plcLossMs)) =
        (List.range' 1 (lostCount burst)).map fun i =>
          (some (lostFrame session q.plain.plc b i), ((10 * i : ℕ) : ℤ)) := by
  obtain ⟨answers, q, plainAnswers, plain, hrun, hplainRun, -, halike⟩ :=
    run_with_models hinit hanswer before
  obtain ⟨plainAnswers', plain', hplainRun', -, hloss⟩ := run_settled cfg hbefore
  obtain ⟨rfl, rfl⟩ := Prod.mk.inj (Option.some.inj (hplainRun'.symm.trans hplainRun))
  obtain ⟨b, hb, -, hconceal⟩ := PlcProcessor.conceal_eq_map halike.sound.whole
  have hsession := hanswer.lpcnet session hlpcnet
  have hmodel : q.sessions.lpcnet = some session := by
    rw [halike.sessions]
    exact hlpcnet
  obtain ⟨answers', q', hburstRun, hplc, hanswers⟩ :=
    lpcnet_burst_run (f := lostFrame session q.plain.plc b) halike.sound
      (fun i => by
        rw [hmodel]
        exact conceal_lpcnet halike.sound.whole halike.sound.history hsession hconceal i)
      (j := 0) (halike.plcLossMs.trans hloss) hburst (by omega)
  exact ⟨answers, q, b, answers', q', hrun, hb, hburstRun, hplc, hanswers⟩

def fourLost : List Call := List.replicate 4 (.processLost none 0)

theorem lpcnet_burst_doubling :
    ∃ answers q b answers' q',
      runM OnnxPipeline.step ⟨(Pipeline.new.init doublingConfig).2, doublingSessions⟩
        [.process (fun _ => 1) 0] = some (answers, q) ∧
      q.plain.plc.conceal 0 = some b ∧
      runM OnnxPipeline.step q fourLost = some (answers', q') ∧ q'.plain.plc = q.plain.plc ∧
      (answersTo Call.lost fourLost answers').map (fun a => (a.out, a.stats.plcLossMs)) =
        (List.range' 1 (lostCount fourLost)).map fun i =>
          (some (lostFrame (doubling "context" "concealed") q.plain.plc b i),
            ((10 * i : ℕ) : ℤ)) := by
  apply lpcnet_burst init_doubling doublingSessions_answer rfl
  · intro call hcall
    obtain rfl := Option.some.inj hcall
    rfl
  · intro call hcall
    rw [List.eq_of_mem_replicate hcall]
    exact Or.inl rfl
  · show 10 * 4 < 2 ^ 31
    norm_num

end

end Roomsync.Orchestrator
