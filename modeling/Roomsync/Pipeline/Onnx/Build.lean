import Roomsync.Pipeline.Burst
/-!
# The build with ONNX Runtime

`ROOMSYNC_WITH_ONNXRUNTIME`: a stage whose model path is not empty opens a session on it.  The
models are given from outside; a session answers what a stage asks it to run, or throws, as it
does where a tensor has another name than in the model.  No stage catches that.
-/

namespace Roomsync.Orchestrator

open Roomsync.Lib
open Pipeline.Noise (NoiseSuppressor frameSize)
open Pipeline.Aec (AecProcessor)
open Pipeline.Plc (PlcProcessor historyFrames frameSizeMs)

noncomputable section

/-- The arguments of `Run`: the input tensor, with its name and shape, and the name of the
output tensor. -/
structure Request where
  inName : String
  shape : List ℕ
  data : List ℝ
  outName : String

/-- `Run` of a session: the output tensor, or `none` for the exception. -/
abbrev Session := Request → Option (List ℝ)

/-- The sessions of the four stages; without one a stage does without a model. -/
structure Sessions where
  nres : Option Session := none
  noise : Option Session := none
  separator : Option Session := none
  lpcnet : Option Session := none

structure OnnxPipeline where
  plain : Pipeline
  sessions : Sessions

namespace Session

/-- `new Ort::Session(...)`, unless the path is empty; `none` is the exception. -/
def openAt (load : String → Option Session) (current : Option Session) (path : String) :
    Option (Option Session) :=
  if path = "" then some current else (load path).map some

def copyOut (session : Session) (request : Request) (nSamples : ℕ) : Option (List ℝ) := do
  let tensor ← session request
  Pointer.copy (some tensor) nSamples

end Session

def aecRequest (out : List ℝ) : Request := ⟨"input", [1, frameSize], out, "output"⟩

def noiseRequest (out : List ℝ) : Request := ⟨"input", [1, out.length], out, "output"⟩

def sepRequest (out : List ℝ) : Request := ⟨"input", [1, 1, out.length], out, "output_0"⟩

def plcRequest (ctx : List ℝ) : Request :=
  ⟨"context", [1, historyFrames, frameSize], ctx, "concealed"⟩

def framePwr (frame : List ℝ) : ℝ := frame.foldl (fun acc x => acc + x * x) 0

/-! ## The stages -/

/-- The residual echo suppressor works on what the filter leaves, and no part of the filter
sees what it makes of that. -/
def aecProcess (s : AecProcessor) (nres : Option Session) (micFrame : Pointer ℝ) (nSamples : ℕ) :
    Option (List ℝ × AecProcessor) := do
  let (out, s') ← s.process micFrame nSamples
  if s.refBuf.length < nSamples then return (out, s')
  else
    match nres with
    | none => return (out, s')
    | some session => do
        let out ← session.copyOut (aecRequest out) nSamples
        return (out, s')

/-- With a model, the spectral subtraction does not run. -/
def noiseProcess (s : NoiseSuppressor) (model : Option Session) (frame : List ℝ) :
    Option (List ℝ × NoiseSuppressor) :=
  match model with
  | none => do
      let (out, s) ← s.process frame.get
      return (List.ofFn out, s)
  | some session => do
      let out ← session.copyOut (noiseRequest frame) frame.length
      let inPwr := framePwr frame
      let outPwr := framePwr out
      if outPwr > 1e-12 ∧ inPwr > 1e-12 then
        return (out, { s with reductionDb := 10.0 * Real.logb 10.0 (inPwr / outPwr) })
      else return (out, s)

def sepProcess (s : SourceSeparator) (model : Option Session) (frame : Pointer ℝ)
    (nSamples : ℕ) : Option (List ℝ) := do
  let out ← s.process frame nSamples
  match model with
  | none => return out
  | some session => session.copyOut (sepRequest out) nSamples

def plcFecMaxMs : ℤ := 40

/-- Frame number `idx` of the history, copied to its place in the context. -/
def contextPass (ctx : List ℝ) (entry : List ℝ × ℕ) : Option (List ℝ) :=
  memcpy ctx (entry.2 * frameSize) entry.1 (min entry.1.length frameSize)

/-- The input of LPCNet: the history from its start, filled up with zeros. -/
def context (s : PlcProcessor) : Option (List ℝ) :=
  s.history.zipIdx.foldlM contextPass (List.replicate (historyFrames * frameSize) 0)

def conceal (s : PlcProcessor) (lpcnet : Option Session) (lossMs : ℤ) : Option (List ℝ) :=
  match lpcnet with
  | none => s.conceal lossMs
  | some session =>
      if lossMs ≥ plcFecMaxMs ∧ ¬ s.history.isEmpty then do
        let ctx ← context s
        session.copyOut (plcRequest ctx) frameSize
      else s.conceal lossMs

/-! ## The pipeline -/

namespace OnnxPipeline

def new : OnnxPipeline := ⟨.new, {}⟩

/-- `none` is the exception of a model that cannot be loaded. -/
def init (load : String → Option Session) (p : OnnxPipeline) (cfg : PipelineConfig) :
    Option (Bool × OnnxPipeline) :=
  if p.plain.gpuActive then some (true, p)
  else do
    let nres ← Session.openAt load p.sessions.nres cfg.aecNresOnnx
    let noise ← Session.openAt load p.sessions.noise cfg.noiseOnnx
    let separator ← Session.openAt load p.sessions.separator cfg.separatorOnnx
    let lpcnet ← Session.openAt load p.sessions.lpcnet cfg.lpcnetOnnx
    let (ok, plain) := p.plain.init cfg
    return (ok, ⟨plain, { nres, noise, separator, lpcnet }⟩)

def pushReference (p : OnnxPipeline) (frame : Pointer ℝ) (nSamples : ℕ) :
    Option OnnxPipeline := do
  let plain ← p.plain.pushReference frame nSamples
  return { p with plain }

def processLost (p : OnnxPipeline) : Option (List ℝ × OnnxPipeline) := do
  let out ← conceal p.plain.plc p.sessions.lpcnet p.plain.nextLossMs
  return (out, { p with plain := { p.plain with plcLossMs := p.plain.nextLossMs } })

def processReceived (p : OnnxPipeline) (frame : Pointer ℝ) (nSamples : ℕ) :
    Option (List ℝ × OnnxPipeline) := do
  let (out, aec) ← aecProcess p.plain.aec p.sessions.nres frame nSamples
  let (out, noise) ← noiseProcess p.plain.noise p.sessions.noise out
  let out ← sepProcess p.plain.sep p.sessions.separator (some out) out.length
  let plc ← p.plain.plc.pushGoodFrame (some out) out.length
  return (out, { p with plain := { p.plain with aec, noise, plc, plcLossMs := 0 } })

def process (p : OnnxPipeline) (frame : Pointer ℝ) (nSamples : ℕ) (packetLost : Bool) (ms : ℝ) :
    Option (List ℝ × OnnxPipeline) :=
  if nSamples = frameSize then do
    let (out, p) ← if packetLost then p.processLost else p.processReceived frame nSamples
    return (out, { p with plain := p.plain.reported ms })
  else none

/-- The sessions stay. -/
def reset (p : OnnxPipeline) : OnnxPipeline := { p with plain := p.plain.reset }

def step (p : OnnxPipeline) : Call → Option (Answer × OnnxPipeline)
  | .pushReference frame => do
      let p ← p.pushReference (some (List.ofFn frame)) frameSize
      return (⟨none, p.plain.stats⟩, p)
  | .process frame ms => do
      let (out, p) ← p.process (some (List.ofFn frame)) frameSize false ms
      return (⟨some out, p.plain.stats⟩, p)
  | .processLost frame ms => do
      let (out, p) ← p.process (frame.map List.ofFn) frameSize true ms
      return (⟨some out, p.plain.stats⟩, p)
  | .reset => some (⟨none, p.reset.plain.stats⟩, p.reset)

end OnnxPipeline

/-! ## No model at all -/

namespace OnnxPipeline

def ofPlain (plain : Pipeline) : OnnxPipeline := ⟨plain, {}⟩

theorem processReceived_ofPlain (plain : Pipeline) (frame : Pointer ℝ) (nSamples : ℕ) :
    (ofPlain plain).processReceived frame nSamples =
      (plain.processReceived frame nSamples).map (Prod.map id ofPlain) := by
  have haec : aecProcess plain.aec none frame nSamples = plain.aec.process frame nSamples := by
    unfold aecProcess
    simp
  have hsep : ∀ out : List ℝ, sepProcess plain.sep none (some out) out.length =
      plain.sep.process (some out) out.length := by
    intro out
    unfold sepProcess
    simp
  unfold processReceived Pipeline.processReceived
  change (aecProcess plain.aec none frame nSamples).bind _ = _
  rw [haec]
  cases plain.aec.process frame nSamples with
  | none => rfl
  | some filtered =>
      obtain ⟨out, aec⟩ := filtered
      change ((plain.noise.process out.get).bind _).bind _ =
        ((plain.noise.process out.get).bind _).map _
      cases plain.noise.process out.get with
      | none => rfl
      | some suppressed =>
          obtain ⟨denoised, noise⟩ := suppressed
          change (sepProcess plain.sep none (some (List.ofFn denoised)) _).bind _ =
            ((plain.sep.process (some (List.ofFn denoised)) _).bind _).map _
          rw [hsep]
          cases plain.sep.process (some (List.ofFn denoised)) (List.ofFn denoised).length with
          | none => rfl
          | some out =>
              change (plain.plc.pushGoodFrame (some out) out.length).bind _ =
                ((plain.plc.pushGoodFrame (some out) out.length).bind _).map _
              cases plain.plc.pushGoodFrame (some out) out.length <;> rfl

theorem processLost_ofPlain (plain : Pipeline) :
    (ofPlain plain).processLost = plain.processLost.map (Prod.map id ofPlain) := by
  unfold processLost Pipeline.processLost conceal ofPlain
  change (plain.plc.conceal plain.nextLossMs).bind _ =
    ((plain.plc.conceal plain.nextLossMs).bind _).map _
  cases plain.plc.conceal plain.nextLossMs <;> rfl

theorem process_ofPlain (plain : Pipeline) (frame : Pointer ℝ) (packetLost : Bool) (ms : ℝ) :
    (ofPlain plain).process frame frameSize packetLost ms =
      (plain.process frame frameSize packetLost ms).map (Prod.map id ofPlain) := by
  unfold process Pipeline.process
  rw [if_pos rfl, if_pos rfl, processReceived_ofPlain, processLost_ofPlain]
  cases packetLost with
  | false =>
      rw [if_neg Bool.false_ne_true, if_neg Bool.false_ne_true]
      cases plain.processReceived frame frameSize <;> rfl
  | true =>
      rw [if_pos rfl, if_pos rfl]
      cases plain.processLost <;> rfl

theorem step_ofPlain (plain : Pipeline) (call : Call) :
    (ofPlain plain).step call = (Orchestrator.step plain call).map (Prod.map id ofPlain) := by
  cases call with
  | pushReference frame =>
      unfold step Orchestrator.step pushReference
      dsimp only [ofPlain]
      cases plain.pushReference (some (List.ofFn frame)) frameSize <;> rfl
  | process frame ms =>
      unfold step Orchestrator.step
      dsimp only
      rw [process_ofPlain]
      cases plain.process (some (List.ofFn frame)) frameSize false ms <;> rfl
  | processLost frame ms =>
      unfold step Orchestrator.step
      dsimp only
      rw [process_ofPlain]
      cases plain.process (frame.map List.ofFn) frameSize true ms <;> rfl
  | reset => rfl

end OnnxPipeline

def PipelineConfig.WithoutModels (cfg : PipelineConfig) : Prop :=
  cfg.aecNresOnnx = "" ∧ cfg.noiseOnnx = "" ∧ cfg.separatorOnnx = "" ∧ cfg.lpcnetOnnx = ""

/-- Without a path to a model, this build is the plain one: it answers and fails as that. -/
theorem run_without_models (load : String → Option Session) {cfg : PipelineConfig}
    (hcfg : cfg.WithoutModels) (calls : List Call) :
    ∃ p, OnnxPipeline.new.init load cfg = some (true, p) ∧
      runM OnnxPipeline.step p calls =
        (run cfg calls).map (Prod.map id OnnxPipeline.ofPlain) := by
  obtain ⟨hnres, hnoise, hseparator, hlpcnet⟩ := hcfg
  refine ⟨.ofPlain (Pipeline.new.init cfg).2, ?_, ?_⟩
  · have hgpu : ¬ OnnxPipeline.new.plain.gpuActive = true := Bool.false_ne_true
    have hopen : ∀ path, path = "" → Session.openAt load none path = some none :=
      fun path hpath => if_pos hpath
    unfold OnnxPipeline.init
    rw [if_neg hgpu]
    change (Session.openAt load none _).bind _ = _
    rw [hopen _ hnres, Option.bind_some]
    change (Session.openAt load none _).bind _ = _
    rw [hopen _ hnoise, Option.bind_some]
    change (Session.openAt load none _).bind _ = _
    rw [hopen _ hseparator, Option.bind_some]
    change (Session.openAt load none _).bind _ = _
    rw [hopen _ hlpcnet, Option.bind_some]
    rfl
  · exact runM_embeds OnnxPipeline.step_ofPlain (Pipeline.new.init cfg).2 calls

theorem run_without_models_default :
    ∃ p, OnnxPipeline.new.init (fun _ => none) {} = some (true, p) ∧
      runM OnnxPipeline.step p [.process (fun _ => 1) 0, .processLost none 0] =
        (run {} [.process (fun _ => 1) 0, .processLost none 0]).map
          (Prod.map id OnnxPipeline.ofPlain) :=
  run_without_models (fun _ => none) ⟨rfl, rfl, rfl, rfl⟩ _

/-! ## The stages with their models -/

/-- The model runs on every input of the right size, and returns a frame or more. -/
def Session.Answers (session : Session) (request : List ℝ → Request) (size : ℕ) : Prop :=
  ∀ x : List ℝ, x.length = size → ∃ tensor, session (request x) = some tensor ∧
    frameSize ≤ tensor.length

structure Sessions.Answer (m : Sessions) : Prop where
  nres : ∀ session ∈ m.nres, session.Answers aecRequest frameSize
  noise : ∀ session ∈ m.noise, session.Answers noiseRequest frameSize
  separator : ∀ session ∈ m.separator, session.Answers sepRequest frameSize
  lpcnet : ∀ session ∈ m.lpcnet, session.Answers plcRequest (historyFrames * frameSize)

theorem Session.Answers.copyOut {session : Session} {request : List ℝ → Request} {size : ℕ}
    (h : session.Answers request size) {x : List ℝ} (hx : x.length = size) :
    ∃ out, session.copyOut (request x) frameSize = some out ∧ out.length = frameSize := by
  obtain ⟨tensor, hrun, hlong⟩ := h x hx
  refine ⟨tensor.take frameSize, ?_, List.length_take_of_le hlong⟩
  unfold Session.copyOut Pointer.copy
  rw [hrun, Option.bind_eq_bind, Option.bind_some, Option.bind_some, if_pos hlong]

theorem aecProcess_spec {s : AecProcessor} {t : Pipeline.Aec.Nlms}
    (haec : Pipeline.Aec.Follows s t) {nres : Option Session}
    (hmodel : ∀ session ∈ nres, session.Answers aecRequest frameSize)
    (micFrame : Buffer frameSize ℝ) :
    ∃ out, aecProcess s nres (some (List.ofFn micFrame)) frameSize =
      some (out, s.adapted t micFrame) ∧ out.length = frameSize := by
  have hroom : ¬ s.refBuf.length < frameSize := by
    rw [haec.length_refBuf, Pipeline.Aec.bufSize_eq, Pipeline.Aec.frameSize_eq]
    decide
  have hlength : (List.ofFn fun n : Fin frameSize => t.errorAt micFrame n).length = frameSize :=
    List.length_ofFn
  unfold aecProcess
  rw [AecProcessor.process_eq_some haec.refBuf haec.w, Option.bind_eq_bind, Option.bind_some]
  dsimp only
  rw [if_neg hroom]
  cases nres with
  | none => exact ⟨_, rfl, hlength⟩
  | some session =>
      obtain ⟨out, hout, houtLength⟩ := (hmodel session rfl).copyOut hlength
      refine ⟨out, ?_, houtLength⟩
      dsimp only
      rw [hout]
      rfl

theorem noiseProcess_spec (s : NoiseSuppressor) {model : Option Session}
    (hmodel : ∀ session ∈ model, session.Answers noiseRequest frameSize)
    {frame : List ℝ} (hframe : frame.length = frameSize) :
    ∃ out s', noiseProcess s model frame = some (out, s') ∧ out.length = frameSize ∧
      s'.hannWin = s.hannWin := by
  cases model with
  | none =>
      have hsize : frame.length ≤ Pipeline.Noise.fftSize := by
        rw [hframe]
        exact Pipeline.Noise.frameSize_le_fftSize
      obtain ⟨out, s', hout, hprocessed⟩ := s.process_spec hsize frame.get
      refine ⟨List.ofFn out, s', ?_, List.length_ofFn.trans hframe, hprocessed.hannWin⟩
      unfold noiseProcess
      dsimp only
      rw [hout]
      rfl
  | some session =>
      obtain ⟨out, hout, hlength⟩ := (hmodel session rfl).copyOut hframe
      unfold noiseProcess
      dsimp only
      rw [hframe, hout, Option.bind_eq_bind, Option.bind_some]
      split
      · exact ⟨_, _, rfl, hlength, rfl⟩
      · exact ⟨_, _, rfl, hlength, rfl⟩

theorem sepProcess_spec (s : SourceSeparator) {model : Option Session}
    (hmodel : ∀ session ∈ model, session.Answers sepRequest frameSize)
    {frame : List ℝ} (hframe : frame.length = frameSize) :
    ∃ out, sepProcess s model (some frame) frame.length = some out ∧
      out.length = frameSize := by
  unfold sepProcess SourceSeparator.process
  rw [Pointer.copy_some, Option.bind_eq_bind, Option.bind_some]
  cases model with
  | none => exact ⟨frame, rfl, hframe⟩
  | some session =>
      dsimp only
      rw [hframe]
      exact (hmodel session rfl).copyOut hframe

/-! ## The context of LPCNet -/

theorem contextPass_eq_some {done : List (List ℝ)} {frame : List ℝ} {room : ℕ}
    (hdone : ∀ frame ∈ done, frame.length = frameSize) (hframe : frame.length = frameSize) :
    contextPass (done.flatten ++ List.replicate ((room + 1) * frameSize) 0)
        (frame, done.length) =
      some ((done ++ [frame]).flatten ++ List.replicate (room * frameSize) 0) := by
  have hplace : done.length * frameSize = done.flatten.length := by
    rw [List.length_flatten, List.map_congr_left hdone, List.map_const', List.sum_replicate,
      smul_eq_mul]
  have hzeros : List.replicate ((room + 1) * frameSize) (0 : ℝ) =
      List.replicate frameSize 0 ++ List.replicate (room * frameSize) 0 := by
    rw [List.replicate_append_replicate]
    congr 1
    ring
  unfold contextPass
  dsimp only
  rw [hplace, hzeros, ← List.append_assoc, hframe, min_self, ← hframe,
    memcpy_middle (by rw [List.length_replicate]), List.flatten_append, List.flatten_singleton]

theorem context_foldlM {frames : List (List ℝ)} (done : List (List ℝ)) (room : ℕ)
    (hdone : ∀ frame ∈ done, frame.length = frameSize)
    (hframes : ∀ frame ∈ frames, frame.length = frameSize) (hroom : frames.length ≤ room) :
    (frames.zipIdx done.length).foldlM contextPass
        (done.flatten ++ List.replicate (room * frameSize) 0) =
      some ((done ++ frames).flatten ++
        List.replicate ((room - frames.length) * frameSize) 0) := by
  induction frames generalizing done room with
  | nil => rw [List.append_nil, List.length_nil, Nat.sub_zero]; rfl
  | cons frame frames ih =>
      rw [List.length_cons] at hroom
      obtain ⟨room, rfl⟩ : ∃ room', room = room' + 1 := ⟨room - 1, by omega⟩
      have hhead := hframes frame List.mem_cons_self
      have hnext := ih (done ++ [frame]) room
        (List.forall_mem_append.mpr ⟨hdone, List.forall_mem_singleton.mpr hhead⟩)
        (fun f hf => hframes f (List.mem_cons_of_mem _ hf)) (by omega)
      rw [List.length_append, List.length_singleton] at hnext
      rw [List.zipIdx_cons, List.foldlM_cons, contextPass_eq_some hdone hhead,
        Option.bind_eq_bind, Option.bind_some, hnext, List.append_assoc, List.singleton_append,
        List.length_cons, Nat.add_sub_add_right]

def lpcnetInput (s : PlcProcessor) : List ℝ :=
  s.history.flatten ++ List.replicate ((historyFrames - s.history.length) * frameSize) 0

theorem context_eq_some {s : PlcProcessor} (hs : s.Whole)
    (hhistory : s.history.length ≤ historyFrames) : context s = some (lpcnetInput s) := by
  have hcontext := context_foldlM [] historyFrames
    (fun frame hframe => absurd hframe List.not_mem_nil) hs hhistory
  rw [List.flatten_nil, List.nil_append, List.length_nil, List.nil_append] at hcontext
  exact hcontext

theorem length_lpcnetInput {s : PlcProcessor} (hs : s.Whole)
    (hhistory : s.history.length ≤ historyFrames) :
    (lpcnetInput s).length = historyFrames * frameSize := by
  unfold lpcnetInput
  rw [List.length_append, List.length_replicate, List.length_flatten, List.map_congr_left hs,
    List.map_const', List.sum_replicate, smul_eq_mul, ← Nat.add_mul, Nat.add_sub_cancel' hhistory]

/-! ## Runs -/

namespace OnnxPipeline

variable {p p' : OnnxPipeline} {out : List ℝ}

theorem processReceived_spec (hp : p.plain.Sound) (hanswer : p.sessions.Answer)
    {t : Pipeline.Aec.Nlms} (haec : Pipeline.Aec.Follows p.plain.aec t)
    (frame : Buffer frameSize ℝ) :
    ∃ out p', p.processReceived (some (List.ofFn frame)) frameSize = some (out, p') ∧
      out.length = frameSize ∧ p'.sessions = p.sessions ∧ p'.plain.Sound ∧
      p'.plain.aec = p.plain.aec.adapted t frame ∧ p'.plain.plcLossMs = 0 := by
  obtain ⟨out₁, haecOut, hlength₁⟩ := aecProcess_spec haec hanswer.nres frame
  obtain ⟨out₂, noise, hnoise, hlength₂, hhann⟩ :=
    noiseProcess_spec p.plain.noise hanswer.noise hlength₁
  obtain ⟨out₃, hsep, hlength₃⟩ := sepProcess_spec p.plain.sep hanswer.separator hlength₂
  obtain ⟨plc, hplc⟩ : ∃ plc, p.plain.plc.pushGoodFrame (some out₃) out₃.length = some plc :=
    ⟨_, p.plain.plc.pushGoodFrame_eq_some out₃⟩
  let aec := p.plain.aec.adapted t frame
  refine ⟨out₃, { p with plain := { p.plain with aec, noise, plc, plcLossMs := 0 } }, ?_,
    hlength₃, rfl, ?_, rfl, rfl⟩
  · unfold processReceived
    rw [haecOut, Option.bind_eq_bind, Option.bind_some]
    dsimp only
    rw [hnoise, Option.bind_eq_bind, Option.bind_some]
    dsimp only
    rw [hsep, Option.bind_eq_bind, Option.bind_some, hplc]
    rfl
  · exact ⟨⟨_, haec.adapted frame⟩, hhann.trans hp.hannWin,
      PlcProcessor.forall_mem_pushGoodFrame hp.whole hlength₃ hplc,
      PlcProcessor.length_pushGoodFrame_le hp.history hplc, hp.sep, hp.gpuActive⟩

/-- A model that refuses what the canceller asks of it, as one does whose tensors have other
names, ends the call with its exception. -/
theorem process_of_refused (hp : p.plain.Sound) {session : Session}
    (hnres : p.sessions.nres = some session) (hrefuses : ∀ x, session (aecRequest x) = none)
    (frame : Buffer frameSize ℝ) (ms : ℝ) :
    p.process (some (List.ofFn frame)) frameSize false ms = none := by
  obtain ⟨t, ht⟩ := hp.aec
  have hroom : ¬ p.plain.aec.refBuf.length < frameSize := by
    rw [ht.length_refBuf, Pipeline.Aec.bufSize_eq, Pipeline.Aec.frameSize_eq]
    decide
  have haec : aecProcess p.plain.aec p.sessions.nres (some (List.ofFn frame)) frameSize = none := by
    unfold aecProcess Session.copyOut
    rw [AecProcessor.process_eq_some ht.refBuf ht.w, Option.bind_eq_bind, Option.bind_some]
    dsimp only
    rw [if_neg hroom, hnres]
    dsimp only
    rw [hrefuses]
    rfl
  unfold process processReceived
  rw [if_pos rfl, if_neg Bool.false_ne_true, haec]
  rfl

theorem processLost_eq_some
    (h : conceal p.plain.plc p.sessions.lpcnet p.plain.nextLossMs = some out) :
    p.processLost =
      some (out, { p with plain := { p.plain with plcLossMs := p.plain.nextLossMs } }) := by
  unfold processLost
  rw [h]
  rfl

theorem step_pushReference {t : Pipeline.Aec.Nlms} (haec : Pipeline.Aec.Follows p.plain.aec t)
    (frame : Buffer frameSize ℝ) :
    p.step (.pushReference frame) =
      some (⟨none, p.plain.lastStats⟩, { p with plain := p.plain.heard frame }) := by
  unfold step pushReference
  dsimp only
  rw [Pipeline.pushReference_eq_some haec]
  rfl

theorem step_process {frame : Buffer frameSize ℝ}
    (h : p.processReceived (some (List.ofFn frame)) frameSize = some (out, p')) (ms : ℝ) :
    p.step (.process frame ms) = some (⟨some out, (p'.plain.reported ms).stats⟩,
      { p' with plain := p'.plain.reported ms }) := by
  unfold step process
  dsimp only
  rw [if_pos rfl, if_neg Bool.false_ne_true, h]
  rfl

theorem step_processLost (h : p.processLost = some (out, p'))
    (frame : Option (Buffer frameSize ℝ)) (ms : ℝ) :
    p.step (.processLost frame ms) = some (⟨some out, (p'.plain.reported ms).stats⟩,
      { p' with plain := p'.plain.reported ms }) := by
  unfold step process
  dsimp only
  rw [if_pos rfl, if_pos rfl, h]
  rfl

end OnnxPipeline

theorem conceal_spec {s : PlcProcessor} (hs : s.Whole)
    (hhistory : s.history.length ≤ historyFrames) {m : Sessions} (hanswer : m.Answer)
    (lossMs : ℤ) : ∃ out, conceal s m.lpcnet lossMs = some out ∧ out.length = frameSize := by
  obtain ⟨base, hconceal, -⟩ := PlcProcessor.conceal_eq_some hs
  have hplain : ∃ out, s.conceal lossMs = some out ∧ out.length = frameSize :=
    ⟨_, hconceal lossMs, List.length_ofFn⟩
  unfold conceal
  cases hmodel : m.lpcnet with
  | none => exact hplain
  | some session =>
      dsimp only
      split
      · rw [context_eq_some hs hhistory, Option.bind_eq_bind, Option.bind_some]
        exact (hanswer.lpcnet session hmodel).copyOut (length_lpcnetInput hs hhistory)
      · exact hplain

/-- The sessions are those of `m`, and the echo canceller and the loss counter are those of
the plain build. -/
structure Alike (m : Sessions) (p : OnnxPipeline) (plain : Pipeline) : Prop where
  sessions : p.sessions = m
  sound : p.plain.Sound
  sound' : plain.Sound
  aec : p.plain.aec = plain.aec
  plcLossMs : p.plain.plcLossMs = plain.plcLossMs
  erleDb : p.plain.lastStats.erleDb = plain.lastStats.erleDb
  lossStats : p.plain.lastStats.plcLossMs = plain.lastStats.plcLossMs

/-- A frame of the same length, if any, with the same readings of the echo canceller and of
the loss. -/
structure AnswersAlike (a b : Answer) : Prop where
  out : a.out.map List.length = b.out.map List.length
  erleDb : a.stats.erleDb = b.stats.erleDb
  plcLossMs : a.stats.plcLossMs = b.stats.plcLossMs

section Alike

variable {m : Sessions} (hanswer : m.Answer) {p : OnnxPipeline} {plain : Pipeline}
include hanswer

theorem Alike.step (h : Alike m p plain) (call : Call) :
    ∃ a p' b plain', p.step call = some (a, p') ∧
      Orchestrator.step plain call = some (b, plain') ∧ AnswersAlike a b ∧
      Alike m p' plain' := by
  have hanswerSessions : p.sessions.Answer := by
    rw [h.sessions]
    exact hanswer
  obtain ⟨t, ht⟩ := h.sound'.aec
  have ht' : Pipeline.Aec.Follows p.plain.aec t := by
    rw [h.aec]
    exact ht
  cases call with
  | pushReference frame =>
      have haec : p.plain.aec.heard frame = plain.aec.heard frame := by rw [h.aec]
      exact ⟨_, _, _, _, OnnxPipeline.step_pushReference ht' frame, step_pushReference ht frame,
        ⟨rfl, h.erleDb, h.lossStats⟩,
        ⟨h.sessions, h.sound.heard frame, h.sound'.heard frame, haec, h.plcLossMs, h.erleDb,
          h.lossStats⟩⟩
  | process frame ms =>
      obtain ⟨out, p', hreceived, hlength, hsessions, hsound, haec, hloss⟩ :=
        OnnxPipeline.processReceived_spec h.sound hanswerSessions ht' frame
      obtain ⟨denoised, noise, hnoise, -⟩ := plain.noise.process_spec
        Pipeline.Noise.frameSize_le_fftSize fun n : Fin frameSize => t.errorAt frame n
      have hplain := Pipeline.processReceived_eq_some ht frame hnoise
        (plain.plc.pushGoodFrame_eq_some (List.ofFn denoised))
      obtain ⟨out', plain', hplain', hlength', hsound'⟩ := h.sound'.processReceived frame
      obtain ⟨rfl, rfl⟩ := Prod.mk.inj (Option.some.inj (hplain'.symm.trans hplain))
      have haec' : p'.plain.aec = plain.aec.adapted t frame := by rw [haec, h.aec]
      refine ⟨_, _, _, _, OnnxPipeline.step_process hreceived ms, step_process hplain' ms,
        ⟨?_, ?_, hloss⟩, ⟨hsessions.trans h.sessions, hsound.reported ms, hsound'.reported ms,
          haec', hloss, ?_, hloss⟩⟩
      · exact congrArg some (hlength.trans hlength'.symm)
      · exact congrArg AecProcessor.erleDb haec'
      · exact congrArg AecProcessor.erleDb haec'
  | processLost frame ms =>
      obtain ⟨out, hconceal, hlength⟩ := conceal_spec h.sound.whole h.sound.history
        hanswerSessions p.plain.nextLossMs
      have hlost := OnnxPipeline.processLost_eq_some hconceal
      obtain ⟨base, hplain, -⟩ := PlcProcessor.conceal_eq_some h.sound'.whole
      have hlost' := Pipeline.processLost_eq_some (hplain plain.nextLossMs)
      have hloss : p.plain.nextLossMs = plain.nextLossMs := by
        unfold Pipeline.nextLossMs
        rw [h.plcLossMs]
      have herle := congrArg AecProcessor.erleDb h.aec
      refine ⟨_, _, _, _, OnnxPipeline.step_processLost hlost frame ms,
        step_processLost hlost' frame ms, ⟨?_, herle, hloss⟩,
        ⟨h.sessions, h.sound.lossCounted.reported ms, h.sound'.lossCounted.reported ms, h.aec,
          hloss, herle, hloss⟩⟩
      exact congrArg some (hlength.trans List.length_ofFn.symm)
  | reset =>
      have haec : p.plain.aec.reset = plain.aec.reset := by rw [h.aec]
      exact ⟨_, p.reset, _, plain.reset, rfl, rfl, ⟨rfl, rfl, rfl⟩,
        ⟨h.sessions, h.sound.reset, h.sound'.reset, haec, rfl, rfl, rfl⟩⟩

end Alike

/-! ## What `init` leaves -/

theorem init_eq_some {load : String → Option Session} {cfg : PipelineConfig} {ok : Bool}
    {p : OnnxPipeline} (h : OnnxPipeline.new.init load cfg = some (ok, p)) :
    ok = true ∧ p.plain = (Pipeline.new.init cfg).2 := by
  have hgpu : ¬ OnnxPipeline.new.plain.gpuActive = true := Bool.false_ne_true
  unfold OnnxPipeline.init at h
  rw [if_neg hgpu] at h
  obtain ⟨nres, -, h⟩ := Option.bind_eq_some_iff.mp h
  obtain ⟨noise, -, h⟩ := Option.bind_eq_some_iff.mp h
  obtain ⟨separator, -, h⟩ := Option.bind_eq_some_iff.mp h
  obtain ⟨lpcnet, -, h⟩ := Option.bind_eq_some_iff.mp h
  obtain ⟨rfl, rfl⟩ := Prod.mk.inj (Option.some.inj h)
  exact ⟨rfl, rfl⟩

/-- Whatever models are loaded, as long as they run on what they are given every call succeeds,
and the echo canceller, its reported figure and the loss counter are those of the plain build. -/
theorem run_with_models {load : String → Option Session} {cfg : PipelineConfig} {ok : Bool}
    {p : OnnxPipeline} (hinit : OnnxPipeline.new.init load cfg = some (ok, p))
    (hanswer : p.sessions.Answer) (calls : List Call) :
    ∃ answers p' plainAnswers plain, runM OnnxPipeline.step p calls = some (answers, p') ∧
      run cfg calls = some (plainAnswers, plain) ∧
      List.Forall₂ AnswersAlike answers plainAnswers ∧ Alike p.sessions p' plain := by
  obtain ⟨-, hplain⟩ := init_eq_some hinit
  have hsound := Pipeline.Sound.init cfg
  have hstart : Alike p.sessions p (Pipeline.new.init cfg).2 :=
    ⟨rfl, by rw [hplain]; exact hsound, hsound, by rw [hplain], by rw [hplain], by rw [hplain],
      by rw [hplain]⟩
  exact runM_simulates (R := Alike p.sessions) (fun _ _ call h => h.step hanswer call) hstart calls

/-- A model of these tensor names that doubles what it is given. -/
def doubling (inName outName : String) : Session := fun request =>
  if request.inName = inName ∧ request.outName = outName then
    some (request.data.map fun y => y + y)
  else none

def doublingSessions : Sessions :=
  { nres := some (doubling "input" "output"), lpcnet := some (doubling "context" "concealed") }

theorem doubling_answers {inName outName : String} {request : List ℝ → Request} {size : ℕ}
    (hrequest : ∀ x, (request x).inName = inName ∧ (request x).outName = outName ∧
      (request x).data = x) (hsize : frameSize ≤ size) :
    (doubling inName outName).Answers request size := by
  intro x hx
  obtain ⟨hin, hout, hdata⟩ := hrequest x
  refine ⟨x.map fun y => y + y, ?_, ?_⟩
  · unfold doubling
    rw [if_pos ⟨hin, hout⟩, hdata]
  · rw [List.length_map, hx]
    exact hsize

theorem doublingSessions_answer : doublingSessions.Answer where
  nres := by
    rintro session ⟨rfl⟩
    exact doubling_answers (fun _ => ⟨rfl, rfl, rfl⟩) le_rfl
  noise := fun _ hsession => absurd hsession (Option.not_mem_none _)
  separator := fun _ hsession => absurd hsession (Option.not_mem_none _)
  lpcnet := by
    rintro session ⟨rfl⟩
    exact doubling_answers (fun _ => ⟨rfl, rfl, rfl⟩) (by decide)

def doublingConfig : PipelineConfig := { aecNresOnnx := "nres.onnx", lpcnetOnnx := "lpcnet.onnx" }

def loadDoubling (path : String) : Option Session :=
  if path = "nres.onnx" then some (doubling "input" "output")
  else if path = "lpcnet.onnx" then some (doubling "context" "concealed")
  else none

theorem init_doubling : OnnxPipeline.new.init loadDoubling doublingConfig =
    some (true, ⟨(Pipeline.new.init doublingConfig).2, doublingSessions⟩) := by
  simp [OnnxPipeline.init, Session.openAt, doublingConfig, OnnxPipeline.new, Pipeline.new,
    Pipeline.init, Pipeline.initNoise, AecProcessor.init, SourceSeparator.init, PlcProcessor.init,
    doublingSessions, loadDoubling]

theorem run_with_models_doubling :
    ∃ answers p' plainAnswers plain,
      runM OnnxPipeline.step ⟨(Pipeline.new.init doublingConfig).2, doublingSessions⟩
        [.pushReference fun _ => 1, .process (fun _ => 1) 0, .processLost none 0] =
          some (answers, p') ∧
      run doublingConfig
        [.pushReference fun _ => 1, .process (fun _ => 1) 0, .processLost none 0] =
          some (plainAnswers, plain) ∧
      List.Forall₂ AnswersAlike answers plainAnswers ∧ Alike doublingSessions p' plain :=
  run_with_models init_doubling doublingSessions_answer _

end

end Roomsync.Orchestrator
