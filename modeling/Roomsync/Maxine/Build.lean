import Roomsync.Maxine.Handles
import Roomsync.Pipeline.Plc.History
import Roomsync.Pipeline.Range
/-!
# The build with Maxine

`Pipeline` of `pipeline.cpp` under `ROOMSYNC_WITH_MAXINE`: the frames go to the GPU if the
attempt that `init` makes succeeds, and to the stages of the plain build otherwise.
-/

namespace Roomsync.Maxine

open Roomsync.Lib
open Orchestrator (Answer)
open Pipeline.Noise (frameSize)
open Pipeline.Plc (PlcProcessor historyFrames)
open MaxinePipeline (allSucceed)

noncomputable section

/-- The configuration with the field that this build reads. -/
structure BuildConfig extends Orchestrator.PipelineConfig where
  useMaxine : Bool := false

/-- The fields of `Impl`, those of the plain build together. -/
structure Build (Handle : Type) where
  plain : Orchestrator.Pipeline
  maxine : MaxinePipeline Handle

namespace Build

variable {Handle : Type} (nvafx : NvAFX Handle)

def new (now : ℤ) : Build Handle := ⟨.new, .new now⟩

def init (p : Build Handle) (cfg : BuildConfig) (o : Outcomes) : Bool × Build Handle :=
  let p :=
    if cfg.useMaxine then
      let (gpuActive, maxine) := p.maxine.init nvafx "" o
      { plain := { p.plain with gpuActive }, maxine }
    else p
  let (ok, plain) := p.plain.init cfg.toPipelineConfig
  (ok, { p with plain })

def isGpuActive (p : Build Handle) : Bool := p.plain.gpuActive

def pushReference (p : Build Handle) (frame : Pointer ℝ) (nSamples : ℕ) :
    Option (Build Handle) :=
  if nSamples = frameSize then
    if p.plain.gpuActive then do
      let maxine ← p.maxine.pushReference frame nSamples
      return { p with maxine }
    else do
      let plain ← p.plain.pushReference frame nSamples
      return { p with plain }
  else none

/-- The branch of a received frame: the GPU in place of stages 1 to 3. -/
def processReceived (p : Build Handle) (frame : Pointer ℝ) (nSamples : ℕ) (now : ℤ)
    (o : Outcomes) : Option (List ℝ × Build Handle) :=
  if p.plain.gpuActive then do
    let (out, maxine) := p.maxine.process nvafx frame nSamples now o
    let out ← out
    let plc ← p.plain.plc.pushGoodFrame (some out) out.length
    return (out, { plain := { p.plain with plc, plcLossMs := 0 }, maxine })
  else do
    let (out, plain) ← p.plain.processReceived frame nSamples
    return (out, { p with plain })

def processLost (p : Build Handle) : Option (List ℝ × Build Handle) := do
  let (out, plain) ← p.plain.processLost
  return (out, { p with plain })

def process (p : Build Handle) (frame : Pointer ℝ) (nSamples : ℕ) (packetLost : Bool) (ms : ℝ)
    (now : ℤ) (o : Outcomes) : Option (List ℝ × Build Handle) :=
  if nSamples = frameSize then do
    let (out, p) ←
      if packetLost then p.processLost else p.processReceived nvafx frame nSamples now o
    return (out, { p with plain := p.plain.reported ms })
  else none

def stats (p : Build Handle) : Orchestrator.FrameStats := p.plain.stats

/-- The GPU pipeline has no part in it. -/
def reset (p : Build Handle) : Build Handle := { p with plain := p.plain.reset }

/-! ## Calls -/

/-- A call, with what the clock of the GPU pipeline reads in it and what NvAFX would answer to
an attempt. -/
structure Timed where
  call : Orchestrator.Call
  now : ℤ
  outcomes : Outcomes

def step (p : Build Handle) (timed : Timed) : Option (Answer × Build Handle) :=
  match timed.call with
  | .pushReference frame => do
      let p ← p.pushReference (some (List.ofFn frame)) frameSize
      return (⟨none, p.stats⟩, p)
  | .process frame ms => do
      let (out, p) ← p.process nvafx (some (List.ofFn frame)) frameSize false ms timed.now
        timed.outcomes
      return (⟨some out, p.stats⟩, p)
  | .processLost frame ms => do
      let (out, p) ← p.process nvafx (frame.map List.ofFn) frameSize true ms timed.now
        timed.outcomes
      return (⟨some out, p.stats⟩, p)
  | .reset => some (⟨none, p.reset.stats⟩, p.reset)

/-- What a pipeline that was constructed at `start` is after `init`. -/
def initialised (start : ℤ) (cfg : BuildConfig) (o : Outcomes) : Build Handle :=
  (init nvafx (new start) cfg o).2

def run (start : ℤ) (cfg : BuildConfig) (o : Outcomes) (calls : List Timed) :
    Option (List Answer × Build Handle) :=
  runM (step nvafx) (initialised nvafx start cfg o) calls

variable {nvafx} {p p' : Build Handle} {out : List ℝ}

theorem step_pushReference {frame : Buffer frameSize ℝ} {now : ℤ} {o : Outcomes}
    (h : p.pushReference (some (List.ofFn frame)) frameSize = some p') :
    step nvafx p ⟨.pushReference frame, now, o⟩ = some (⟨none, p'.stats⟩, p') := by
  unfold step
  dsimp only
  rw [h]
  rfl

theorem step_process {frame : Buffer frameSize ℝ} {now : ℤ} {o : Outcomes}
    (h : p.processReceived nvafx (some (List.ofFn frame)) frameSize now o = some (out, p'))
    (ms : ℝ) :
    step nvafx p ⟨.process frame ms, now, o⟩ =
      some (⟨some out, (p'.plain.reported ms).stats⟩, ⟨p'.plain.reported ms, p'.maxine⟩) := by
  unfold step process
  dsimp only
  rw [if_pos rfl, if_neg Bool.false_ne_true, h]
  rfl

theorem step_processLost (h : p.processLost = some (out, p'))
    (frame : Option (Buffer frameSize ℝ)) (ms : ℝ) (now : ℤ) (o : Outcomes) :
    step nvafx p ⟨.processLost frame ms, now, o⟩ =
      some (⟨some out, (p'.plain.reported ms).stats⟩, ⟨p'.plain.reported ms, p'.maxine⟩) := by
  unfold step process
  dsimp only
  rw [if_pos rfl, if_pos rfl, h]
  rfl

theorem processLost_eq_some {plain : Orchestrator.Pipeline}
    (h : p.plain.processLost = some (out, plain)) :
    p.processLost = some (out, { p with plain }) := by
  unfold processLost
  rw [h]
  rfl

/-! ## The fallback -/

variable {plain : Orchestrator.Pipeline} {maxine : MaxinePipeline Handle}

theorem step_of_fallback (hplain : plain.Sound) (maxine : MaxinePipeline Handle)
    (timed : Timed) :
    ∃ answer plain', Orchestrator.step plain timed.call = some (answer, plain') ∧
      step nvafx ⟨plain, maxine⟩ timed = some (answer, ⟨plain', maxine⟩) ∧ plain'.Sound := by
  have hgpu : ¬ plain.gpuActive = true := by
    rw [hplain.gpuActive]
    exact Bool.false_ne_true
  obtain ⟨call, now, o⟩ := timed
  cases call with
  | pushReference frame =>
      obtain ⟨t, ht⟩ := hplain.aec
      have hpush : Build.pushReference ⟨plain, maxine⟩ (some (List.ofFn frame)) frameSize =
          some ⟨plain.heard frame, maxine⟩ := by
        unfold pushReference
        rw [if_pos rfl, if_neg hgpu, Orchestrator.Pipeline.pushReference_eq_some ht]
        rfl
      exact ⟨_, _, Orchestrator.step_pushReference ht frame, step_pushReference hpush,
        hplain.heard frame⟩
  | process frame ms =>
      obtain ⟨out, plain', hreceived, -, hplain'⟩ := hplain.processReceived frame
      have hcpu : Build.processReceived nvafx ⟨plain, maxine⟩ (some (List.ofFn frame)) frameSize
          now o = some (out, ⟨plain', maxine⟩) := by
        unfold processReceived
        rw [if_neg hgpu, hreceived]
        rfl
      exact ⟨_, _, Orchestrator.step_process hreceived ms, step_process hcpu ms,
        hplain'.reported ms⟩
  | processLost frame ms =>
      obtain ⟨out, plain', hlost, -, hplain'⟩ := hplain.processLost
      exact ⟨_, _, Orchestrator.step_processLost hlost frame ms,
        step_processLost (processLost_eq_some hlost) frame ms now o, hplain'.reported ms⟩
  | reset => exact ⟨_, plain.reset, rfl, rfl, hplain.reset⟩

theorem initialised_of_attempt (start : ℤ) {cfg : BuildConfig} (h : cfg.useMaxine = true)
    (o : Outcomes) : initialised nvafx start cfg o =
      ⟨(Orchestrator.Pipeline.init
          { Orchestrator.Pipeline.new with
            gpuActive := ((MaxinePipeline.new start).init nvafx "" o).1 }
          cfg.toPipelineConfig).2,
        ((MaxinePipeline.new start).init nvafx "" o).2⟩ := by
  unfold initialised init
  rw [if_pos h]
  rfl

theorem initialised_of_plain (start : ℤ) {cfg : BuildConfig} (h : cfg.useMaxine = false)
    (o : Outcomes) : initialised nvafx start cfg o =
      ⟨(Orchestrator.Pipeline.new.init cfg.toPipelineConfig).2, .new start⟩ := by
  unfold initialised init
  rw [if_neg (by rw [h]; exact Bool.false_ne_true)]
  rfl

theorem isGpuActive_initialised (start : ℤ) (cfg : BuildConfig) (o : Outcomes) :
    (initialised nvafx start cfg o).isGpuActive =
      (cfg.useMaxine && ((MaxinePipeline.new start).init nvafx "" o).1) := by
  cases huse : cfg.useMaxine with
  | false =>
      rw [initialised_of_plain start huse]
      rfl
  | true =>
      rw [initialised_of_attempt start huse]
      cases ((MaxinePipeline.new start).init nvafx "" o).1 <;> rfl

theorem plain_initialised_of_fallback {start : ℤ} {cfg : BuildConfig} {o : Outcomes}
    (h : (initialised nvafx start cfg o).isGpuActive = false) :
    (initialised nvafx start cfg o).plain =
      (Orchestrator.Pipeline.new.init cfg.toPipelineConfig).2 := by
  rw [isGpuActive_initialised] at h
  cases huse : cfg.useMaxine with
  | false => rw [initialised_of_plain start huse]
  | true =>
      rw [huse, Bool.true_and] at h
      rw [initialised_of_attempt start huse, h]
      rfl

/-- Without the GPU, the build answers as the plain one does, and what is left of the attempt
is never looked at again: not to run an effect, and not to try once more. -/
theorem run_of_fallback (start : ℤ) (cfg : BuildConfig) (o : Outcomes)
    (h : (initialised nvafx start cfg o).isGpuActive = false) (calls : List Timed) :
    ∃ answers plain,
      Orchestrator.run cfg.toPipelineConfig (calls.map Timed.call) = some (answers, plain) ∧
      run nvafx start cfg o calls =
        some (answers, ⟨plain, (initialised nvafx start cfg o).maxine⟩) := by
  have hplain := plain_initialised_of_fallback h
  obtain ⟨answers, plain, hplainRun, hrun, -⟩ :=
    runM_part (fun plain => (⟨plain, _⟩ : Build Handle)) Timed.call
      (fun plain timed hp => step_of_fallback hp (initialised nvafx start cfg o).maxine timed)
      (Orchestrator.Pipeline.Sound.init cfg.toPipelineConfig) calls
  refine ⟨answers, plain, hplainRun, ?_⟩
  rw [← hplain] at hrun
  exact hrun

/-- A frame half a minute after an attempt that failed, when another one would succeed. -/
def frameLater : Timed := ⟨.process (fun _ => 1) 0, 31 * 10 ^ 9, allSucceed⟩

theorem run_of_fallback_counting :
    ∃ answers plain,
      Orchestrator.run {} ([frameLater].map Timed.call) = some (answers, plain) ∧
      run MaxinePipeline.counting 0 { useMaxine := true } MaxinePipeline.denoiserFails
          [frameLater] =
        some (answers, ⟨plain, (initialised MaxinePipeline.counting 0 { useMaxine := true }
          MaxinePipeline.denoiserFails).maxine⟩) :=
  run_of_fallback 0 { useMaxine := true } MaxinePipeline.denoiserFails rfl [frameLater]

/-! ## The GPU -/

/-- What stays as the attempt of `init` has left it, while the GPU takes the frames. -/
structure OnGpu (q : MaxinePipeline Handle) (p : Build Handle) : Prop where
  plain : p.plain.gpuActive = true
  active : p.maxine.gpuActive = true
  aecH : p.maxine.aecH = q.aecH
  denoiserH : p.maxine.denoiserH = q.denoiserH
  superresH : p.maxine.superresH = q.superresH
  created : p.maxine.created = q.created
  loaded : p.maxine.loaded = q.loaded
  refBuf : p.maxine.refBuf.length = frameSize
  finalOut : p.maxine.finalOut.length = frameSize
  erleDb : p.plain.aec.erleDb = 0
  reductionDb : p.plain.noise.reductionDb = 0
  lastStats : p.plain.lastStats.erleDb = 0 ∧ p.plain.lastStats.noiseReduction = 0
  whole : p.plain.plc.Whole

variable {q : MaxinePipeline Handle}

namespace OnGpu

theorem pushReference_eq_some (hp : OnGpu q p) (frame : Buffer frameSize ℝ) :
    p.pushReference (some (List.ofFn frame)) frameSize =
      some { p with maxine := { p.maxine with refBuf := List.ofFn frame } } := by
  have hcopy : memcpy p.maxine.refBuf 0 (List.ofFn frame) frameSize =
      some (List.ofFn frame) := memcpy_whole hp.refBuf List.length_ofFn
  have hpush : p.maxine.pushReference (some (List.ofFn frame)) frameSize =
      some { p.maxine with refBuf := List.ofFn frame } := by
    unfold MaxinePipeline.pushReference
    rw [if_neg (lt_irrefl _), Option.bind_eq_bind, Option.bind_some, hcopy]
    rfl
  unfold pushReference
  rw [if_pos rfl, if_pos hp.plain, hpush]
  rfl

def ranOn (nvafx : NvAFX Handle) (p : Build Handle) (frame : Buffer frameSize ℝ) :
    MaxinePipeline Handle :=
  p.maxine.runEffects nvafx (some (List.ofFn frame)) frameSize

theorem processReceived_eq_some (hp : OnGpu q p)
    (hwrites : ∀ h input reference out n, (nvafx.run h input reference out n).length = out.length)
    (frame : Buffer frameSize ℝ) (now : ℤ) (o : Outcomes) :
    ∃ plc, p.plain.plc.pushGoodFrame (some (ranOn nvafx p frame).finalOut)
        (ranOn nvafx p frame).finalOut.length = some plc ∧
      p.processReceived nvafx (some (List.ofFn frame)) frameSize now o =
        some ((ranOn nvafx p frame).finalOut,
          { plain := { p.plain with plc, plcLossMs := 0 }, maxine := ranOn nvafx p frame }) := by
  have hlength : (ranOn nvafx p frame).finalOut.length = frameSize :=
    (hwrites _ _ _ _ _).trans hp.finalOut
  have hrecheck : p.maxine.recheck nvafx now o = p.maxine := if_pos hp.active
  have hplc := p.plain.plc.pushGoodFrame_eq_some (ranOn nvafx p frame).finalOut
  have hcopy := Pointer.copy_some (ranOn nvafx p frame).finalOut
  rw [hlength] at hcopy
  refine ⟨_, hplc, ?_⟩
  unfold processReceived MaxinePipeline.process
  rw [if_pos hp.plain, hrecheck, if_pos hp.active]
  dsimp only
  change (Pointer.copy (some (ranOn nvafx p frame).finalOut) frameSize).bind _ = _
  rw [hcopy, Option.bind_some, hplc]
  rfl

theorem heard (hp : OnGpu q p) (frame : Buffer frameSize ℝ) :
    OnGpu q { p with maxine := { p.maxine with refBuf := List.ofFn frame } } :=
  { hp with refBuf := List.length_ofFn }

theorem reported (hp : OnGpu q p) (ms : ℝ) : OnGpu q { p with plain := p.plain.reported ms } :=
  { hp with lastStats := ⟨hp.erleDb, hp.reductionDb⟩ }

theorem reset (hp : OnGpu q p) : OnGpu q p.reset :=
  { hp with
    erleDb := rfl
    reductionDb := rfl
    lastStats := ⟨rfl, rfl⟩
    whole := fun _ hframe => absurd hframe List.not_mem_nil }

theorem concealed (hp : OnGpu q p) (lossMs : ℤ) :
    OnGpu q { p with plain := { p.plain with plcLossMs := lossMs } } :=
  { hp with }

theorem enhanced (hp : OnGpu q p)
    (hwrites : ∀ h input reference out n, (nvafx.run h input reference out n).length = out.length)
    (frame : Buffer frameSize ℝ) {plc : PlcProcessor}
    (hplc : p.plain.plc.pushGoodFrame (some (ranOn nvafx p frame).finalOut)
      (ranOn nvafx p frame).finalOut.length = some plc) :
    OnGpu q { plain := { p.plain with plc, plcLossMs := 0 }, maxine := ranOn nvafx p frame } :=
  { hp with
    finalOut := (hwrites _ _ _ _ _).trans hp.finalOut
    whole := PlcProcessor.forall_mem_pushGoodFrame hp.whole
      ((hwrites _ _ _ _ _).trans hp.finalOut) hplc }

end OnGpu

/-! ### Runs -/

def Timed.received (timed : Timed) : Bool :=
  match timed.call with
  | .process _ _ => true
  | _ => false

def heardReference (reference : List ℝ) (timed : Timed) : List ℝ :=
  match timed.call with
  | .pushReference frame => List.ofFn frame
  | _ => reference

def lastReference (calls : List Timed) : List ℝ :=
  calls.foldl heardReference (List.replicate frameSize 0)

def keptFrames (frames : List (List ℝ)) (entry : Timed × Answer) : List (List ℝ) :=
  match entry.1.call, entry.2.out with
  | .process _ _, some out => frames ++ [out]
  | .reset, _ => []
  | _, _ => frames

def goodFrames (log : List (Timed × Answer)) : List (List ℝ) := log.foldl keptFrames []

def Enhanced (nvafx : NvAFX Handle) (q : MaxinePipeline Handle) (reference frame out : List ℝ) :
    Prop :=
  ∃ aecOut denoisedOut finalOut,
    out = nvafx.run q.superresH
      (some (nvafx.run q.denoiserH
        (some (nvafx.run q.aecH (some frame) (some reference) aecOut frameSize)) none denoisedOut
        frameSize)) none finalOut frameSize

/-- Each received frame went through the effects, on the last reference frame before it, and no
answer tells of the stages that were left out. -/
structure Answered (nvafx : NvAFX Handle) (q : MaxinePipeline Handle)
    (log : List (Timed × Answer)) : Prop where
  stats : ∀ entry ∈ log, entry.2.stats.erleDb = 0 ∧ entry.2.stats.noiseReduction = 0
  frames : ∀ before timed answer frame ms, before ++ [(timed, answer)] <+: log →
    timed.call = .process frame ms → ∃ out, answer.out = some out ∧
      Enhanced nvafx q (lastReference (before.map Prod.fst)) (List.ofFn frame) out

structure Served (nvafx : NvAFX Handle) (q : MaxinePipeline Handle) (log : List (Timed × Answer))
    (p : Build Handle) : Prop extends OnGpu q p where
  ran : p.maxine.ran = q.ran ++
    (List.replicate ((log.map Prod.fst).countP Timed.received)
      [q.aecH, q.denoiserH, q.superresH]).flatten
  reference : p.maxine.refBuf = lastReference (log.map Prod.fst)
  history : p.plain.plc.history = (goodFrames log).drop ((goodFrames log).length - historyFrames)
  answered : Answered nvafx q log

theorem Answered.concat {log : List (Timed × Answer)} (h : Answered nvafx q log) {timed : Timed}
    {answer : Answer} (hstats : answer.stats.erleDb = 0 ∧ answer.stats.noiseReduction = 0)
    (hframe : ∀ frame ms, timed.call = .process frame ms → ∃ out, answer.out = some out ∧
      Enhanced nvafx q (lastReference (log.map Prod.fst)) (List.ofFn frame) out) :
    Answered nvafx q (log ++ [(timed, answer)]) where
  stats := by
    intro entry hentry
    rcases List.mem_append.mp hentry with hold | hnew
    · exact h.stats entry hold
    · rw [List.mem_singleton.mp hnew]
      exact hstats
  frames := by
    intro before timed' answer' frame ms hprefix hcall
    rcases List.prefix_concat_iff.mp hprefix with hall | hold
    · obtain ⟨rfl, hlast⟩ := List.append_inj' hall rfl
      obtain ⟨rfl, rfl⟩ := Prod.mk.inj (List.cons.inj hlast).1
      exact hframe frame ms hcall
    · exact h.frames before timed' answer' frame ms hold hcall

theorem Served.concat {log : List (Timed × Answer)} {p' : Build Handle} (hp : Served nvafx q log p)
    (hp' : OnGpu q p') {timed : Timed} {answer : Answer}
    (hran : p'.maxine.ran =
      p.maxine.ran ++ if timed.received then [q.aecH, q.denoiserH, q.superresH] else [])
    (hreference : p'.maxine.refBuf = heardReference p.maxine.refBuf timed)
    (hhistory : ∀ frames, p.plain.plc.history = frames.drop (frames.length - historyFrames) →
      p'.plain.plc.history = (keptFrames frames (timed, answer)).drop
        ((keptFrames frames (timed, answer)).length - historyFrames))
    (hstats : answer.stats = p'.plain.lastStats)
    (hframe : ∀ frame ms, timed.call = .process frame ms → ∃ out, answer.out = some out ∧
      Enhanced nvafx q p.maxine.refBuf (List.ofFn frame) out) :
    Served nvafx q (log ++ [(timed, answer)]) p' := by
  rw [hp.reference] at hframe hreference
  refine ⟨hp', ?_, ?_, ?_, hp.answered.concat (hstats ▸ hp'.lastStats) hframe⟩
  · rw [hran, hp.ran, List.map_append, List.countP_append, List.replicate_add,
      List.flatten_append, List.append_assoc]
    cases hreceived : timed.received <;> simp [hreceived]
  · rw [hreference, List.map_append]
    unfold lastReference
    rw [List.foldl_append]
    rfl
  · unfold goodFrames
    rw [List.foldl_append]
    exact hhistory _ hp.history

theorem Served.step {log : List (Timed × Answer)} (hp : Served nvafx q log p)
    (hwrites : ∀ h input reference out n, (nvafx.run h input reference out n).length = out.length)
    (timed : Timed) :
    ∃ answer p', Build.step nvafx p timed = some (answer, p') ∧
      Served nvafx q (log ++ [(timed, answer)]) p' := by
  obtain ⟨call, now, o⟩ := timed
  cases call with
  | pushReference frame =>
      refine ⟨_, _, step_pushReference (hp.pushReference_eq_some frame),
        hp.concat (hp.toOnGpu.heard frame) (List.append_nil _).symm rfl (fun _ h => h) rfl ?_⟩
      intro frame ms hprocess
      cases hprocess
  | process frame ms =>
      obtain ⟨plc, hplc, hreceived⟩ := hp.processReceived_eq_some hwrites frame now o
      refine ⟨_, _, step_process hreceived ms,
        hp.concat ((hp.enhanced hwrites frame hplc).reported ms) ?_ rfl ?_ rfl ?_⟩
      · have hreceived : Timed.received ⟨.process frame ms, now, o⟩ = true := rfl
        rw [if_pos hreceived, ← hp.aecH, ← hp.denoiserH, ← hp.superresH]
        rfl
      · intro frames hframes
        rw [PlcProcessor.pushGoodFrame_of_history hframes] at hplc
        rw [← Option.some.inj hplc]
        rfl
      · intro frame' ms' hprocess
        obtain ⟨rfl, rfl⟩ := Orchestrator.Call.process.inj hprocess
        refine ⟨_, rfl, p.maxine.aecOut, p.maxine.denoisedOut, p.maxine.finalOut, ?_⟩
        rw [← hp.aecH, ← hp.denoiserH, ← hp.superresH]
        rfl
  | processLost frame ms =>
      obtain ⟨base, hconceal, -⟩ := PlcProcessor.conceal_eq_some hp.whole
      have hlost := Orchestrator.Pipeline.processLost_eq_some (hconceal p.plain.nextLossMs)
      refine ⟨_, _, step_processLost (processLost_eq_some hlost) frame ms now o,
        hp.concat ((hp.toOnGpu.concealed p.plain.nextLossMs).reported ms)
          (List.append_nil _).symm rfl (fun _ h => h) rfl ?_⟩
      intro frame ms hprocess
      cases hprocess
  | reset =>
      refine ⟨_, _, rfl,
        hp.concat hp.toOnGpu.reset (List.append_nil _).symm rfl (fun _ _ => rfl) rfl ?_⟩
      intro frame ms hprocess
      cases hprocess

end Build

end

end Roomsync.Maxine
