import Roomsync.Pipeline.Range
/-!
# Polarity

A microphone of the other sign is answered with the same frames of the other sign, and so is a
lost frame.  The sign of the reference is never heard at all, and no reading tells of either.
-/

namespace Roomsync

open Lib Finset

noncomputable section

variable {c d : ℝ}

/-! ## The echo canceller -/

namespace Pipeline.Aec

open Noise (frameSize)

namespace Nlms

/-- The canceller for a microphone that is `c` times and a reference that is `d` times as
loud. -/
def turned (c d : ℝ) (t : Nlms) : Nlms where
  stream := t.stream.map (d * ·)
  w k := d * (c * t.w k)

theorem turned_new : Nlms.new.turned c d = .new := by
  unfold turned new
  simp only [mul_zero, List.map_nil]

end Nlms

theorem streamAt_turned (stream : List ℝ) (n : ℤ) :
    streamAt 0 (stream.map (d * ·)) n = d * streamAt 0 stream n := by
  have h := streamAt_map (d * ·) 0 stream n
  rwa [mul_zero] at h

theorem tap_turned (stream : List ℝ) :
    tap (stream.map (d * ·)) = fun n k => d * tap stream n k := by
  funext n k
  unfold tap
  rw [streamAt_turned, List.length_map]

theorem stepSize_turned (hd : d * d = 1) (stream : List ℝ) :
    stepSize (stream.map (d * ·)) = stepSize stream := by
  unfold stepSize meanSquare
  simp only [streamAt_turned, List.length_map, mul_pow, sq d, hd, one_mul]

namespace Nlms

theorem lms_turned (hd : d * d = 1) (t : Nlms) (micFrame : Buffer frameSize ℝ) (n : ℕ) :
    (t.turned c d).weightsAt (fun i => c * micFrame i) n =
        (fun k => d * (c * t.weightsAt micFrame n k)) ∧
      (t.turned c d).errorAt (fun i => c * micFrame i) n = c * t.errorAt micFrame n := by
  have hmic : Buffer.getD (fun i => c * micFrame i) 0 = fun i => c * micFrame.getD 0 i := by
    ext i
    have h := Buffer.getD_map (c * ·) micFrame 0 i
    rwa [mul_zero] at h
  have hstart := lmsWeights_combination (stepSize t.stream) c 0 (tap t.stream)
    (micFrame.getD 0) (micFrame.getD 0) t.w t.w n
  have herror := lmsErrors_combination (stepSize t.stream) c 0 (tap t.stream)
    (micFrame.getD 0) (micFrame.getD 0) t.w t.w n
  simp only [zero_mul, add_zero] at hstart herror
  obtain ⟨hweights, herrors⟩ := lmsWeights_turned (stepSize t.stream) hd (tap t.stream)
    (fun i => c * micFrame.getD 0 i) (fun k => c * t.w k) n
  unfold weightsAt errorAt
  dsimp only [turned]
  rw [stepSize_turned hd, tap_turned, hmic, hweights, herrors, hstart, herror]
  exact ⟨rfl, rfl⟩

end Nlms

end Pipeline.Aec

/-! ## The noise suppressor -/

namespace Pipeline.Noise

variable {n : ℕ}

theorem weighted_turned (hannWin : Buffer 160 ℝ) (frame : Buffer n ℝ) (i : ℕ) :
    weighted hannWin (fun j => c * frame j) i = c * weighted hannWin frame i := by
  have h := Buffer.getD_map (c * ·) frame 0 i
  rw [mul_zero] at h
  unfold weighted
  rw [h, mul_assoc]

theorem spectrum_turned (hannWin : Buffer 160 ℝ) (frame : Buffer n ℝ) :
    spectrum hannWin (fun j => c * frame j) = fun i => (c : ℂ) * spectrum hannWin frame i := by
  ext i
  unfold spectrum
  simp only [weighted_turned, Complex.ofReal_mul, dft_mul_left]

theorem binPower_turned (hc : c * c = 1) (hannWin : Buffer 160 ℝ) (frame : Buffer n ℝ) :
    binPower hannWin (fun j => c * frame j) = binPower hannWin frame := by
  ext k
  have h := Buffer.getD_map ((c : ℂ) * ·) (spectrum hannWin frame) 0 k
  rw [mul_zero] at h
  unfold binPower
  rw [spectrum_turned, h, Complex.normSq_mul, Complex.normSq_ofReal, hc, one_mul]

namespace NoiseSuppressor

theorem samples_turned (X : Buffer fftSize ℂ) (i : ℕ) :
    samples (fun j => (c : ℂ) * X j) i = c * samples X i := by
  have hidft : idft (fun j => (c : ℂ) * X j) = fun j => (c : ℂ) * idft X j := by
    ext j
    rw [idft_mul_left]
  have h := Buffer.getD_map ((c : ℂ) * ·) (idft X) 0 i
  rw [mul_zero] at h
  unfold samples
  rw [hidft, h, Complex.re_ofReal_mul]

theorem denoised_turned (hc : c * c = 1) (s : NoiseSuppressor) (frame : Buffer n ℝ) :
    s.denoised (fun j => c * frame j) = fun i => (c : ℂ) * s.denoised frame i := by
  ext i
  unfold denoised framePower
  rw [spectrum_turned, binPower_turned hc, mul_assoc]

theorem process_turned (hc : c * c = 1) (hn : n ≤ fftSize) {s s' : NoiseSuppressor}
    {frame out : Buffer n ℝ} (h : s.process frame = some (out, s')) :
    s.process (fun i => c * frame i) = some (fun i => c * out i, s') := by
  obtain ⟨t, hupdate, hwindow, -, -⟩ :=
    s.updateNoise_spec (frameEnergy s.hannWin frame) (framePower s.hannWin frame)
  have henergy : frameEnergy s.hannWin (fun i => c * frame i) = frameEnergy s.hannWin frame := by
    unfold frameEnergy
    rw [binPower_turned hc]
  have hpower : framePower s.hannWin (fun i => c * frame i) = framePower s.hannWin frame := by
    unfold framePower
    rw [binPower_turned hc]
  have hturned := hupdate
  rw [← henergy, ← hpower] at hturned
  rw [process_eq_some hn hupdate hwindow] at h
  obtain ⟨rfl, rfl⟩ := Prod.mk.inj (Option.some.inj h)
  rw [process_eq_some hn hturned hwindow, henergy, hpower, denoised_turned hc]
  simp only [samples_turned]

end NoiseSuppressor

end Pipeline.Noise

/-! ## Concealment -/

namespace Pipeline.Plc

theorem getD_turned (flat : List ℝ) (i : ℕ) :
    (flat.map (c * ·)).getD i 0 = c * flat.getD i 0 := by
  rw [List.getD_eq_getElem?_getD, List.getElem?_map, List.getD_eq_getElem?_getD]
  cases flat[i]? with
  | none => exact (mul_zero c).symm
  | some x => rfl

theorem correlations_turned (hc : c * c = 1) (flat : List ℝ) :
    correlations (flat.map (c * ·)) = correlations flat := by
  ext lag
  unfold correlations correlation
  rw [List.length_map]
  congr 1
  apply sum_congr rfl
  intro i _
  rw [getD_turned, getD_turned, mul_mul_mul_comm, hc, one_mul]

namespace PlcProcessor

def turned (c : ℝ) (s : PlcProcessor) : PlcProcessor := ⟨s.history.map (List.map (c * ·))⟩

theorem flat_turned (s : PlcProcessor) : (s.turned c).flat = s.flat.map (c * ·) := by
  rw [flat_eq, flat_eq, turned, ← List.map_flatten, List.length_map, List.map_drop]

theorem Whole.turned {s : PlcProcessor} (h : s.Whole) : (s.turned c).Whole := by
  intro frame hframe
  obtain ⟨old, hold, rfl⟩ := List.mem_map.mp hframe
  rw [List.length_map]
  exact h old hold

theorem conceal_turned (hc : c * c = 1) {s : PlcProcessor} (hs : s.Whole) {lossMs : ℤ}
    {out : List ℝ} (h : s.conceal lossMs = some out) :
    (s.turned c).conceal lossMs = some (out.map (c * ·)) := by
  by_cases hne : s.history = []
  · have hne' : (s.turned c).history = [] := List.map_eq_nil_iff.mpr hne
    unfold conceal at h ⊢
    rw [hne, List.isEmpty_nil, if_pos rfl] at h
    rw [hne', List.isEmpty_nil, if_pos rfl, ← Option.some.inj h, List.map_replicate, mul_zero]
  · have hne' : (s.turned c).history ≠ [] := List.map_eq_nil_iff.not.mpr hne
    obtain ⟨x, hpredicts, hseed, hconceal⟩ := conceal_spec hs hne
    obtain ⟨y, hpredicts', hseed', hconceal'⟩ := conceal_spec (hs.turned (c := c)) hne'
    have hcoeff : (s.turned c).coefficients = s.coefficients := by
      unfold coefficients
      rw [flat_turned, correlations_turned hc]
    rw [hcoeff] at hpredicts'
    rw [hconceal] at h
    rw [hconceal', ← Option.some.inj h, List.map_ofFn]
    congr 2
    ext n
    have hscaled := hpredicts.eq_mul hpredicts' (c := c) (by
      intro i hi
      rw [hseed _ hi, hseed' _ hi, flat_turned, List.length_map, getD_turned]) n.isLt
    dsimp only [Function.comp_apply]
    rw [hscaled, mul_assoc]

theorem pushGoodFrame_turned {s s' : PlcProcessor} {frame : List ℝ}
    (h : s.pushGoodFrame (some frame) frame.length = some s') :
    (s.turned c).pushGoodFrame (some (frame.map (c * ·))) (frame.map (c * ·)).length =
      some (s'.turned c) := by
  rw [pushGoodFrame_eq_some] at h ⊢
  obtain rfl := Option.some.inj h
  have hhistory : s.history.map (List.map (c * ·)) ++ [frame.map (c * ·)] =
      (s.history ++ [frame]).map (List.map (c * ·)) := by
    rw [List.map_append, List.map_singleton]
  unfold turned
  dsimp only
  rw [hhistory, List.length_map]
  split
  · rw [List.map_drop]
  · rfl

end PlcProcessor

end Pipeline.Plc

/-! ## The whole pipeline -/

namespace Orchestrator

open Pipeline.Aec (Nlms Follows AecProcessor)
open Pipeline.Noise (NoiseSuppressor frameSize frameSize_le_fftSize)
open Pipeline.Plc (PlcProcessor)

def Call.turned (c d : ℝ) : Call → Call
  | .pushReference frame => .pushReference fun i => d * frame i
  | .process frame ms => .process (fun i => c * frame i) ms
  | .processLost frame ms => .processLost (frame.map fun x i => c * x i) ms
  | .reset => .reset

def Answer.turned (c : ℝ) (a : Answer) : Answer := ⟨a.out.map (List.map (c * ·)), a.stats⟩

structure Turned (c d : ℝ) (p q : Pipeline) : Prop where
  sound : p.Sound
  soundTurned : q.Sound
  aec : ∃ t, Follows p.aec t ∧ Follows q.aec (t.turned c d)
  echoPower : q.aec.echoPower = p.aec.echoPower
  errorPower : q.aec.errorPower = p.aec.errorPower
  erleDb : q.aec.erleDb = p.aec.erleDb
  noise : q.noise = p.noise
  plc : q.plc = p.plc.turned c
  lastStats : q.lastStats = p.lastStats
  plcLossMs : q.plcLossMs = p.plcLossMs

namespace Turned

variable {p q : Pipeline}

theorem init (cfg : PipelineConfig) :
    Turned c d (Pipeline.new.init cfg).2 (Pipeline.new.init cfg).2 where
  sound := .init cfg
  soundTurned := .init cfg
  aec := by
    refine ⟨.new, Follows.init .new cfg.aecNresOnnx, ?_⟩
    rw [Nlms.turned_new]
    exact Follows.init .new cfg.aecNresOnnx
  echoPower := rfl
  errorPower := rfl
  erleDb := rfl
  noise := rfl
  plc := rfl
  lastStats := rfl
  plcLossMs := rfl

theorem reset (h : Turned c d p q) : Turned c d p.reset q.reset where
  sound := h.sound.reset
  soundTurned := h.soundTurned.reset
  aec := by
    obtain ⟨t, ht, ht'⟩ := h.aec
    refine ⟨.new, ht.reset, ?_⟩
    rw [Nlms.turned_new]
    exact ht'.reset
  echoPower := rfl
  errorPower := rfl
  erleDb := rfl
  noise := congrArg NoiseSuppressor.reset h.noise
  plc := rfl
  lastStats := rfl
  plcLossMs := rfl

theorem heard (hd : d * d = 1) (h : Turned c d p q) (frame : Buffer frameSize ℝ) :
    Turned c d (p.heard frame) (q.heard fun i => d * frame i) where
  sound := h.sound.heard frame
  soundTurned := h.soundTurned.heard _
  aec := by
    obtain ⟨t, ht, ht'⟩ := h.aec
    refine ⟨_, ht.heard frame, ?_⟩
    have hstep : ((t.turned c d).step (.pushReference fun i => d * frame i)).2 =
        ((t.step (.pushReference frame)).2).turned c d := by
      unfold Nlms.turned Nlms.step
      rw [List.map_append, List.map_ofFn]
      rfl
    rw [← hstep]
    exact ht'.heard _
  echoPower := by
    have hpower : ∑ n, (d * frame n) ^ 2 = ∑ n, frame n ^ 2 := by
      simp only [mul_pow, sq d, hd, one_mul]
    show 0.95 * q.aec.echoPower + _ = 0.95 * p.aec.echoPower + _
    rw [h.echoPower, hpower]
  errorPower := h.errorPower
  erleDb := h.erleDb
  noise := h.noise
  plc := h.plc
  lastStats := h.lastStats
  plcLossMs := h.plcLossMs

theorem reported (h : Turned c d p q) (ms : ℝ) : Turned c d (p.reported ms) (q.reported ms) where
  sound := h.sound.reported ms
  soundTurned := h.soundTurned.reported ms
  aec := h.aec
  echoPower := h.echoPower
  errorPower := h.errorPower
  erleDb := h.erleDb
  noise := h.noise
  plc := h.plc
  lastStats := by
    unfold Pipeline.reported
    dsimp only
    rw [h.erleDb, h.noise, h.plcLossMs]
  plcLossMs := h.plcLossMs

theorem processLost (hc : c * c = 1) (h : Turned c d p q) :
    ∃ out p' q', p.processLost = some (out, p') ∧
      q.processLost = some (out.map (c * ·), q') ∧ Turned c d p' q' := by
  obtain ⟨out, hconceal⟩ : ∃ out, p.plc.conceal p.nextLossMs = some out := by
    obtain ⟨base, hconceal, -⟩ := PlcProcessor.conceal_eq_some h.sound.whole
    exact ⟨_, hconceal p.nextLossMs⟩
  have hturned := PlcProcessor.conceal_turned hc h.sound.whole hconceal
  have hnext : q.nextLossMs = p.nextLossMs := by
    unfold Pipeline.nextLossMs
    rw [h.plcLossMs]
  rw [← h.plc, ← hnext] at hturned
  refine ⟨_, _, _, Pipeline.processLost_eq_some hconceal,
    Pipeline.processLost_eq_some hturned, ?_⟩
  exact ⟨h.sound.lossCounted, h.soundTurned.lossCounted, h.aec, h.echoPower, h.errorPower,
    h.erleDb, h.noise, h.plc, h.lastStats, hnext⟩

theorem adapted (h : Turned c d p q) (hc : c * c = 1) {t : Nlms} {frame : Buffer frameSize ℝ}
    (herrors : ∀ n, (t.turned c d).errorAt (fun i => c * frame i) n = c * t.errorAt frame n) :
    (q.aec.adapted (t.turned c d) fun i => c * frame i).echoPower =
        (p.aec.adapted t frame).echoPower ∧
      (q.aec.adapted (t.turned c d) fun i => c * frame i).errorPower =
        (p.aec.adapted t frame).errorPower ∧
      (q.aec.adapted (t.turned c d) fun i => c * frame i).erleDb =
        (p.aec.adapted t frame).erleDb := by
  unfold AecProcessor.adapted
  simp only [herrors, mul_pow, sq c, hc, one_mul, h.echoPower, h.errorPower, h.erleDb, and_self]

theorem processReceived (hc : c * c = 1) (hd : d * d = 1) (h : Turned c d p q)
    (frame : Buffer frameSize ℝ) :
    ∃ out p' q', p.processReceived (some (List.ofFn frame)) frameSize = some (out, p') ∧
      q.processReceived (some (List.ofFn fun i => c * frame i)) frameSize =
        some (out.map (c * ·), q') ∧ Turned c d p' q' := by
  obtain ⟨t, ht, ht'⟩ := h.aec
  have hlms := t.lms_turned (c := c) hd frame
  obtain ⟨denoised, noise, hnoise, hprocessed⟩ :=
    p.noise.process_spec frameSize_le_fftSize fun n : Fin frameSize => t.errorAt frame n
  have hnoise' := NoiseSuppressor.process_turned hc frameSize_le_fftSize hnoise
  have herrors : (fun n : Fin frameSize => c * t.errorAt frame n) =
      fun n : Fin frameSize => (t.turned c d).errorAt (fun i => c * frame i) n := by
    ext n
    exact ((hlms n).2).symm
  rw [herrors, ← h.noise] at hnoise'
  have hplc := p.plc.pushGoodFrame_eq_some (List.ofFn denoised)
  have hplc' := PlcProcessor.pushGoodFrame_turned (c := c) hplc
  have hout : (List.ofFn denoised).map (c * ·) = List.ofFn fun n => c * denoised n := by
    rw [List.map_ofFn]
    rfl
  rw [hout, ← h.plc] at hplc'
  have hreceived := Pipeline.processReceived_eq_some ht frame hnoise hplc
  have hreceived' := Pipeline.processReceived_eq_some ht' _ hnoise' hplc'
  obtain ⟨echoPower, errorPower, erleDb⟩ := h.adapted hc fun n => (hlms n).2
  obtain ⟨_, _, hp, -, hp'⟩ := h.sound.processReceived frame
  obtain ⟨_, _, hq, -, hq'⟩ := h.soundTurned.processReceived fun i => c * frame i
  rw [hreceived] at hp
  rw [hreceived'] at hq
  obtain ⟨rfl, rfl⟩ := Prod.mk.inj (Option.some.inj hp)
  obtain ⟨rfl, rfl⟩ := Prod.mk.inj (Option.some.inj hq)
  refine ⟨_, _, _, hreceived, by rw [hout]; exact hreceived', ?_⟩
  refine ⟨hp', hq', ⟨_, ht.adapted frame, ?_⟩, echoPower, errorPower, erleDb, rfl, rfl,
    h.lastStats, rfl⟩
  have hstep : ((t.turned c d).step (.process fun i => c * frame i)).2 =
      ((t.step (.process frame)).2).turned c d := by
    unfold Nlms.step
    dsimp only
    rw [(hlms frameSize).1]
    rfl
  rw [← hstep]
  exact ht'.adapted _

theorem step (hc : c * c = 1) (hd : d * d = 1) (h : Turned c d p q) (call : Call) :
    ∃ a p' q', Orchestrator.step p call = some (a, p') ∧
      Orchestrator.step q (call.turned c d) = some (a.turned c, q') ∧ Turned c d p' q' := by
  cases call with
  | pushReference frame =>
      obtain ⟨t, ht, ht'⟩ := h.aec
      have hstep' := step_pushReference ht' fun i => d * frame i
      rw [h.lastStats] at hstep'
      exact ⟨_, _, _, step_pushReference ht frame, hstep', h.heard hd frame⟩
  | process frame ms =>
      obtain ⟨out, p', q', hp, hq, h'⟩ := h.processReceived hc hd frame
      have hreported := h'.reported ms
      have hstep' := step_process hq ms
      unfold Pipeline.stats at hstep'
      rw [hreported.lastStats] at hstep'
      exact ⟨_, _, _, step_process hp ms, hstep', hreported⟩
  | processLost frame ms =>
      obtain ⟨out, p', q', hp, hq, h'⟩ := h.processLost hc
      have hreported := h'.reported ms
      have hstep' := step_processLost hq (frame.map fun x i => c * x i) ms
      unfold Pipeline.stats at hstep'
      rw [hreported.lastStats] at hstep'
      exact ⟨_, _, _, step_processLost hp frame ms, hstep', hreported⟩
  | reset => exact ⟨_, _, _, rfl, rfl, h.reset⟩

end Turned

/-- A microphone and a reference of the other sign: each frame is turned over with the
microphone alone, and every reading is the same. -/
theorem run_turned (cfg : PipelineConfig) (hc : c = 1 ∨ c = -1) (hd : d = 1 ∨ d = -1)
    (calls : List Call) :
    ∃ answers p p', run cfg calls = some (answers, p) ∧
      run cfg (calls.map (Call.turned c d)) = some (answers.map (Answer.turned c), p') := by
  have hcc : c * c = 1 := mul_self_eq_one_iff.mpr hc
  have hdd : d * d = 1 := mul_self_eq_one_iff.mpr hd
  obtain ⟨answers, p, p', hrun, hrun', -⟩ :=
    runM_mapped (fun _ _ call h => h.step hcc hdd call) (Turned.init cfg) calls
  exact ⟨answers, p, p', hrun, hrun'⟩

theorem run_turned_over :
    ∃ answers p p', run {} [.process (fun _ => 1) 0, .processLost none 0] = some (answers, p) ∧
      run {} ([.process (fun _ => 1) 0, .processLost none 0].map (Call.turned (-1) 1)) =
        some (answers.map (Answer.turned (-1)), p') :=
  run_turned {} (Or.inr rfl) (Or.inl rfl) _

end Orchestrator

end

end Roomsync
