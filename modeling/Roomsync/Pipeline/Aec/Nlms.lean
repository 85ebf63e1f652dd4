import Roomsync.Lib.Lms
import Roomsync.Pipeline.Aec.Processor
import Mathlib.Tactic.NormNum
/-!
# The echo canceller as a filter on the reference stream

Whatever is pushed between two calls, the buffer holds the end of the reference stream,
and a call runs the adaptive filter sample by sample over that stream.
-/

namespace Roomsync.Pipeline.Aec

open Roomsync.Lib
open Noise (frameSize)
open Finset

theorem frameSize_eq : frameSize = 160 := rfl

theorem bufSize_eq : bufSize = 2400 := by decide

theorem nlmsLen_eq : nlmsLen = 512 := rfl

noncomputable section

/-! ## The abstract canceller -/

/-- What is `k` samples before sample `n` of the last frame of the stream. -/
def tap (stream : List ℝ) (n : ℕ) (k : Fin nlmsLen) : ℝ :=
  streamAt 0 stream (stream.length - frameSize + n - k)

def meanSquare (stream : List ℝ) : ℝ :=
  (∑ n ∈ range frameSize, streamAt 0 stream (stream.length - frameSize + n) ^ 2) / frameSize

def stepSize (stream : List ℝ) : ℝ := 0.04 / (nlmsLen * meanSquare stream + 1e-5)

/-- The reference stream so far, and the weights. -/
structure Nlms where
  stream : List ℝ
  w : Buffer nlmsLen ℝ

namespace Nlms

def new : Nlms := ⟨[], fun _ => 0⟩

def weightsAt (s : Nlms) (micFrame : Buffer frameSize ℝ) (n : ℕ) : Buffer nlmsLen ℝ :=
  lmsWeights (stepSize s.stream) (tap s.stream) (micFrame.getD 0) s.w n

def errorAt (s : Nlms) (micFrame : Buffer frameSize ℝ) (n : ℕ) : ℝ :=
  lmsErrors (stepSize s.stream) (tap s.stream) (micFrame.getD 0) s.w n

def step (s : Nlms) : Call → Option (List ℝ) × Nlms
  | .pushReference refFrame => (none, { s with stream := s.stream ++ List.ofFn refFrame })
  | .process micFrame =>
      (some (List.ofFn fun n : Fin frameSize => s.errorAt micFrame n),
        { s with w := s.weightsAt micFrame frameSize })

end Nlms

/-! ## The loops of `process` -/

theorem readAt_tap (stream : List ℝ) {n k : ℕ} (hn : n < frameSize) (hk : k < nlmsLen) :
    readAt (window 0 bufSize stream) (bufSize - frameSize + n - k) =
      some (tap stream n ⟨k, hk⟩) := by
  rw [frameSize_eq] at hn
  rw [nlmsLen_eq] at hk
  rw [readAt_window 0 stream]
  · unfold tap
    congr 2
    rw [frameSize_eq, bufSize_eq]
    push_cast
    ring
  · rw [bufSize_eq, frameSize_eq]
    push_cast
    omega
  · rw [bufSize_eq, frameSize_eq]
    push_cast
    omega

namespace AecProcessor

variable {taps : ℕ}

theorem energyLoop_eq_some (stream : List ℝ) :
    forLoop (· + 1) frameSize (energyPass (window 0 bufSize stream) frameSize) 0 0 =
      some (∑ n ∈ range frameSize, streamAt 0 stream (stream.length - frameSize + n) ^ 2) := by
  rw [← zero_add (∑ n ∈ range frameSize, _)]
  apply forLoop_sum
  intro n xEnergy hn
  have hread := readAt_tap stream hn (show 0 < nlmsLen by rw [nlmsLen_eq]; omega)
  unfold tap at hread
  rw [Nat.cast_zero, sub_zero, sub_zero] at hread
  unfold energyPass
  rw [length_window, hread, Option.bind_eq_bind, Option.bind_some, sq]
  rfl

theorem echoLoop_eq_some (stream : List ℝ) {w : Buffer taps ℝ} {w' : Buffer nlmsLen ℝ}
    (htaps : taps = nlmsLen) (hw : w.Holds (w'.getD 0)) {n : ℕ} (hn : n < frameSize) :
    forLoop (· + 1) nlmsLen (echoPass (window 0 bufSize stream) frameSize n w) 0 0 =
      some (filterOutput w' (tap stream n)) := by
  have hbody : ∀ k echoEst, k < nlmsLen →
      echoPass (window 0 bufSize stream) frameSize n w k echoEst =
        some (echoEst + w'.getD 0 k * Buffer.getD (tap stream n) 0 k) := by
    intro k echoEst hk
    unfold echoPass
    rw [hw.read (by omega), length_window, readAt_tap stream hn hk, Buffer.getD_of_lt _ _ hk,
      Buffer.getD_of_lt _ _ hk]
    rfl
  rw [forLoop_sum hbody, zero_add, sum_range]
  unfold filterOutput
  apply congrArg some
  apply sum_congr rfl
  intro k _
  rw [Buffer.getD_of_lt _ _ k.isLt, Buffer.getD_of_lt _ _ k.isLt]

theorem weightLoop_eq_some (stream : List ℝ) {w : Buffer taps ℝ} {w' : Buffer nlmsLen ℝ}
    (htaps : taps = nlmsLen) (hw : w.Holds (w'.getD 0)) {n : ℕ} (hn : n < frameSize)
    (muN e : ℝ) :
    ∃ v, forLoop (· + 1) nlmsLen (weightPass (window 0 bufSize stream) frameSize n muN e) 0 w =
        some v ∧ v.Holds (Buffer.getD (lmsUpdate muN e w' (tap stream n)) 0) := by
  have hbody : ∀ k (v : Buffer taps ℝ), k < nlmsLen → v.read k = some (w'.getD 0 k) →
      weightPass (window 0 bufSize stream) frameSize n muN e k v =
        v.write k (Buffer.getD (lmsUpdate muN e w' (tap stream n)) 0 k) := by
    intro k v hk hread
    unfold weightPass
    rw [hread, length_window, readAt_tap stream hn hk, Buffer.getD_of_lt _ _ hk,
      Buffer.getD_of_lt _ _ hk]
    rfl
  obtain ⟨v, hloop, hv⟩ := Buffer.Holds.forLoop_write htaps.ge hbody hw
  exact ⟨v, hloop, hv.congr fun k hk => if_pos (by omega)⟩

def Before (t : Nlms) (micFrame : Buffer frameSize ℝ) (n : ℕ)
    (acc : Buffer taps ℝ × Buffer frameSize ℝ × ℝ) : Prop :=
  acc.1.Holds ((t.weightsAt micFrame n).getD 0) ∧
    (acc.2.1.Holds fun i => if i < n then t.errorAt micFrame i else 0) ∧
    acc.2.2 = ∑ i ∈ range n, t.errorAt micFrame i ^ 2

theorem read_ofFn {n : ℕ} (x : Buffer n ℝ) {i : ℕ} (hi : i < n) :
    Pointer.read (some (List.ofFn x)) i = some (x.getD 0 i) := by
  rw [Pointer.read_some, List.getElem?_ofFn, dif_pos hi, Buffer.getD_of_lt _ _ hi]

theorem samplePass_spec (htaps : taps = nlmsLen) {t : Nlms} {micFrame : Buffer frameSize ℝ}
    {n : ℕ} (hn : n < frameSize) {acc : Buffer taps ℝ × Buffer frameSize ℝ × ℝ}
    (h : Before t micFrame n acc) :
    ∃ acc', samplePass (window 0 bufSize t.stream) (some (List.ofFn micFrame))
        (stepSize t.stream) n acc = some acc' ∧ Before t micFrame (n + 1) acc' := by
  obtain ⟨w, out, errorPwrSum⟩ := acc
  obtain ⟨hw, hout, hsum⟩ := h
  have hecho := echoLoop_eq_some t.stream htaps hw hn
  obtain ⟨out', hwrite, hout'⟩ := hout.write_below hn
  obtain ⟨w', hloop, hw'⟩ := weightLoop_eq_some t.stream htaps hw hn
    (stepSize t.stream) (t.errorAt micFrame n)
  have herror : micFrame.getD 0 n - filterOutput (t.weightsAt micFrame n) (tap t.stream n) =
      t.errorAt micFrame n := rfl
  refine ⟨(w', out', errorPwrSum + t.errorAt micFrame n * t.errorAt micFrame n), ?_, hw', hout', ?_⟩
  · unfold samplePass
    dsimp only
    rw [hecho, Option.bind_eq_bind, Option.bind_some, read_ofFn micFrame hn, Option.bind_eq_bind,
      Option.bind_some, herror]
    dsimp only at hwrite
    rw [hwrite, Option.bind_eq_bind, Option.bind_some, hloop]
    rfl
  · dsimp only at hsum ⊢
    rw [sum_range_succ, hsum, sq]

def adapted (s : AecProcessor) (t : Nlms) (micFrame : Buffer frameSize ℝ) : AecProcessor :=
  let errorPower := 0.95 * s.errorPower +
    0.05 * ((∑ n ∈ range frameSize, t.errorAt micFrame n ^ 2) / frameSize)
  { s with
    w := List.ofFn (t.weightsAt micFrame frameSize)
    errorPower
    erleDb :=
      if s.echoPower > 1e-10 then 10.0 * Real.logb 10.0 (s.echoPower / (errorPower + 1e-10))
      else s.erleDb }

theorem adapted_refBuf (s : AecProcessor) (t : Nlms) (micFrame : Buffer frameSize ℝ) :
    (s.adapted t micFrame).refBuf = s.refBuf := by
  dsimp only [adapted]

theorem adapted_w (s : AecProcessor) (t : Nlms) (micFrame : Buffer frameSize ℝ) :
    (s.adapted t micFrame).w = List.ofFn (t.weightsAt micFrame frameSize) := by
  dsimp only [adapted]

theorem process_eq_some {s : AecProcessor} {t : Nlms}
    (hbuf : s.refBuf = window 0 bufSize t.stream) (hw : s.w = List.ofFn t.w)
    (micFrame : Buffer frameSize ℝ) :
    s.process (some (List.ofFn micFrame)) frameSize =
      some (List.ofFn fun n : Fin frameSize => t.errorAt micFrame n, s.adapted t micFrame) := by
  have htaps : s.w.length = nlmsLen := by
    rw [hw, List.length_ofFn]
  have hlength : ¬ s.refBuf.length < frameSize := by
    rw [hbuf, length_window, bufSize_eq, frameSize_eq]
    omega
  have hstart : Before t micFrame 0
      ((s.w.get, fun _ => 0, 0) : Buffer s.w.length ℝ × Buffer frameSize ℝ × ℝ) := by
    refine ⟨?_, fun _ _ => rfl, (sum_range_zero _).symm⟩
    intro k hk
    rw [Buffer.getD_of_lt _ _ (htaps ▸ hk)]
    show s.w[k] = t.w ⟨k, _⟩
    simp only [hw, List.getElem_ofFn]
  have hpass : ∀ n acc, n < frameSize → Before t micFrame n acc →
      ∃ acc', samplePass (window 0 bufSize t.stream) (some (List.ofFn micFrame))
        (stepSize t.stream) n acc = some acc' ∧ Before t micFrame (n + 1) acc' :=
    fun n acc hn h => samplePass_spec htaps hn h
  obtain ⟨⟨w, out, errorPwrSum⟩, hloop, hw', hout, hsum⟩ :=
    forLoop_succ_invariant hpass (Nat.zero_le frameSize) hstart
  have hstep : nlmsMu / ((∑ n ∈ range frameSize,
      streamAt 0 t.stream (t.stream.length - frameSize + n) ^ 2) / frameSize * nlmsLen +
        nlmsDelta) = stepSize t.stream := by
    unfold stepSize nlmsMu nlmsDelta meanSquare
    rw [mul_comm (nlmsLen : ℝ)]
  have hwList : List.ofFn w = List.ofFn (t.weightsAt micFrame frameSize) := by
    rw [hw'.ofFn_eq htaps]
    apply congrArg List.ofFn
    ext k
    rw [Buffer.getD_of_lt _ _ k.isLt]
  have houtList : List.ofFn out = List.ofFn fun n : Fin frameSize => t.errorAt micFrame n := by
    rw [hout.ofFn_eq rfl]
    apply congrArg List.ofFn
    ext n
    rw [if_pos n.isLt]
  dsimp only at hsum
  unfold process
  rw [if_pos rfl, if_neg hlength, hbuf, energyLoop_eq_some, Option.bind_eq_bind,
    Option.bind_some]
  dsimp only
  rw [hstep, hloop, Option.bind_eq_bind, Option.bind_some]
  dsimp only
  rw [hwList, houtList, hsum]
  unfold adapted
  rw [hbuf]
  rfl

theorem powerLoop_eq_some (refFrame : Buffer frameSize ℝ) :
    forLoop (· + 1) frameSize (powerPass (some (List.ofFn refFrame))) 0 0 =
      some (∑ n, refFrame n ^ 2) := by
  have hbody : ∀ n pwr, n < frameSize →
      powerPass (some (List.ofFn refFrame)) n pwr = some (pwr + refFrame.getD 0 n ^ 2) := by
    intro n pwr hn
    unfold powerPass
    rw [read_ofFn refFrame hn, Option.bind_eq_bind, Option.bind_some, sq]
    rfl
  rw [forLoop_sum hbody, zero_add, sum_range]
  apply congrArg some
  apply sum_congr rfl
  intro n _
  rw [Buffer.getD_of_lt _ _ n.isLt]

def heard (s : AecProcessor) (refFrame : Buffer frameSize ℝ) : AecProcessor :=
  { s with
    refBuf := (s.refBuf ++ List.ofFn refFrame).drop frameSize
    echoPower := 0.95 * s.echoPower + 0.05 * ((∑ n, refFrame n ^ 2) / frameSize) }

theorem pushReference_eq_some {s : AecProcessor} (hbuf : frameSize ≤ s.refBuf.length)
    (refFrame : Buffer frameSize ℝ) :
    s.pushReference (some (List.ofFn refFrame)) frameSize = some (s.heard refFrame) := by
  have hlength : (List.ofFn refFrame).length = frameSize := List.length_ofFn
  obtain ⟨buf, hmove, hcopy⟩ := memmove_memcpy (hlength.trans_le hbuf)
  rw [hlength] at hmove hcopy
  unfold pushReference
  rw [if_pos rfl, hmove, Option.bind_eq_bind, Option.bind_some, Option.bind_eq_bind,
    Option.bind_some, hcopy, Option.bind_some, powerLoop_eq_some]
  rfl

end AecProcessor

/-! ## Runs -/

def pushed (calls : List Call) : List ℝ :=
  calls.flatMap fun
    | .pushReference refFrame => List.ofFn refFrame
    | .process _ => []

/-- The canceller holds the end of the stream, and the filter's weights. -/
structure Follows (s : AecProcessor) (t : Nlms) : Prop where
  refBuf : s.refBuf = window 0 bufSize t.stream
  w : s.w = List.ofFn t.w

namespace Follows

variable {s : AecProcessor} {t : Nlms}

theorem init (s : AecProcessor) (onnxModelPath : String) :
    Follows (s.init onnxModelPath).2 .new where
  refBuf := (window_nil 0 bufSize).symm
  w := (List.ofFn_const nlmsLen 0).symm

theorem length_refBuf (h : Follows s t) : s.refBuf.length = bufSize := by
  rw [h.refBuf, length_window]

theorem length_w (h : Follows s t) : s.w.length = nlmsLen := by
  rw [h.w, List.length_ofFn]

theorem reset (h : Follows s t) : Follows s.reset .new where
  refBuf := by
    show s.refBuf.map (fun _ => 0) = window 0 bufSize []
    rw [window_nil, List.map_const', h.length_refBuf]
  w := by
    show s.w.map (fun _ => 0) = List.ofFn fun _ : Fin nlmsLen => 0
    rw [List.ofFn_const, List.map_const', h.length_w]

theorem pushReference (h : Follows s t) (refFrame : Buffer frameSize ℝ) :
    s.pushReference (some (List.ofFn refFrame)) frameSize = some (s.heard refFrame) := by
  apply AecProcessor.pushReference_eq_some
  rw [h.length_refBuf, bufSize_eq, frameSize_eq]
  omega

theorem heard (h : Follows s t) (refFrame : Buffer frameSize ℝ) :
    Follows (s.heard refFrame) (t.step (.pushReference refFrame)).2 where
  refBuf := by
    show (s.refBuf ++ List.ofFn refFrame).drop frameSize =
      window 0 bufSize (t.stream ++ List.ofFn refFrame)
    rw [window_append, h.refBuf, List.length_ofFn]
  w := h.w

theorem adapted (h : Follows s t) (micFrame : Buffer frameSize ℝ) :
    Follows (s.adapted t micFrame) (t.step (.process micFrame)).2 where
  refBuf := by
    rw [AecProcessor.adapted_refBuf]
    exact h.refBuf
  w := by
    rw [AecProcessor.adapted_w]
    rfl

theorem step_pushReference (h : Follows s t) (refFrame : Buffer frameSize ℝ) :
    Aec.step s (.pushReference refFrame) = some (none, s.heard refFrame) := by
  unfold Aec.step
  dsimp only
  rw [h.pushReference]
  rfl

theorem step_process (h : Follows s t) (micFrame : Buffer frameSize ℝ) :
    Aec.step s (.process micFrame) =
      some ((t.step (.process micFrame)).1, s.adapted t micFrame) := by
  unfold Aec.step
  dsimp only
  rw [AecProcessor.process_eq_some h.refBuf h.w]
  rfl

theorem step (h : Follows s t) (call : Call) :
    ∃ s', Aec.step s call = some ((t.step call).1, s') ∧ Follows s' (t.step call).2 := by
  cases call with
  | pushReference refFrame =>
      exact ⟨s.heard refFrame, h.step_pushReference refFrame, h.heard refFrame⟩
  | process micFrame =>
      exact ⟨s.adapted t micFrame, h.step_process micFrame, h.adapted micFrame⟩

end Follows

theorem stream_run (t : Nlms) (calls : List Call) :
    (Lib.run Nlms.step t calls).2.stream = t.stream ++ pushed calls := by
  induction calls generalizing t with
  | nil => exact (List.append_nil _).symm
  | cons call calls ih =>
      rw [run_cons, ih]
      unfold pushed
      rw [List.flatMap_cons, ← List.append_assoc]
      cases call with
      | pushReference refFrame => rfl
      | process micFrame =>
          rw [List.append_nil]
          rfl

/-- Calls answer as the filter on the pushed stream does, and leave its weights and the
last 2400 samples of that stream, preceded by zeros. -/
theorem run_refines_nlms (calls : List Call) :
    ∃ s, run calls = some ((Lib.run Nlms.step .new calls).1, s) ∧
      (Lib.run Nlms.step .new calls).2.stream = pushed calls ∧
      s.refBuf = (List.replicate 2400 0 ++ pushed calls).drop (pushed calls).length ∧
      s.w = List.ofFn (Lib.run Nlms.step .new calls).2.w := by
  obtain ⟨s, hrun, hs⟩ :=
    runM_refines (R := Follows) (fun s t call h => h.step call) (Follows.init .new "") calls
  have hstream : (Lib.run Nlms.step .new calls).2.stream = pushed calls := stream_run .new calls
  refine ⟨s, hrun, hstream, ?_, hs.w⟩
  rw [hs.refBuf, hstream, bufSize_eq]
  rfl

end

end Roomsync.Pipeline.Aec
