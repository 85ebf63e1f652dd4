import Roomsync.Pipeline.Aec.Distance
/-!
# Near-end speech

Whatever is said into the microphone, the echo that is left in the output is paid for: by the
way that the weights had to the echo path, and by the speech that disturbs them on it.
-/

namespace Roomsync.Pipeline.Aec

open Roomsync.Lib
open Noise (frameSize)
open Finset

noncomputable section

/-- What the microphone hears besides the echo, on the path `h`. -/
def nearEnd (h : Buffer nlmsLen ℝ) (stream : List ℝ) (micFrame : Buffer frameSize ℝ) (n : ℕ) : ℝ :=
  micFrame.getD 0 n - (echo h stream).getD 0 n

/-- The squares of it over a frame, in units of the step. -/
def disturbance (h : Buffer nlmsLen ℝ) (stream : List ℝ) (micFrame : Buffer frameSize ℝ)
    (_out : List ℝ) : ℝ :=
  stepSize stream * ∑ n ∈ range frameSize, nearEnd h stream micFrame n ^ 2

/-- The same of what is left of the echo in the output. -/
def echoLeft (h : Buffer nlmsLen ℝ) (stream : List ℝ) (micFrame : Buffer frameSize ℝ)
    (out : List ℝ) : ℝ :=
  stepSize stream * ∑ n ∈ range frameSize, (out.getD n 0 - nearEnd h stream micFrame n) ^ 2

/-- What `f` makes of all processed frames together, with the stream that each was met in. -/
def tally (f : List ℝ → Buffer frameSize ℝ → List ℝ → ℝ) :
    List ℝ → List Call → List (Option (List ℝ)) → ℝ
  | stream, .pushReference refFrame :: calls, _ :: answers =>
      tally f (stream ++ List.ofFn refFrame) calls answers
  | stream, .process micFrame :: calls, some out :: answers =>
      f stream micFrame out + tally f stream calls answers
  | _, _, _ => 0

/-- At each sample of the last frame, the taps are at most 80 times as loud as the frame, up to
the regularisation. -/
def Calm (stream : List ℝ) : Prop :=
  ∀ n < frameSize, ∑ k, tap stream n k ^ 2 ≤
    80.0 * ∑ n ∈ range frameSize, streamAt 0 stream (stream.length - frameSize + n) ^ 2 + 2.5e-4

def StaysCalm : List ℝ → List Call → Prop
  | _, [] => True
  | stream, .pushReference refFrame :: calls => StaysCalm (stream ++ List.ofFn refFrame) calls
  | stream, .process _ :: calls => Calm stream ∧ StaysCalm stream calls

theorem stepSize_mul_le_one {stream : List ℝ} (h : Calm stream) {n : ℕ} (hn : n < frameSize) :
    stepSize stream * ∑ k, tap stream n k ^ 2 ≤ 1 := by
  have hcalm := h n hn
  apply stepSize_mul_le_of_le
  norm_num at hcalm ⊢
  linarith

theorem echo_getD (h : Buffer nlmsLen ℝ) (stream : List ℝ) {n : ℕ} (hn : n < frameSize) :
    (echo h stream).getD 0 n = filterOutput h (tap stream n) :=
  Buffer.getD_of_lt _ _ hn

theorem echoLeft_add_le (h : Buffer nlmsLen ℝ) {t : Nlms} (hcalm : Calm t.stream)
    (micFrame : Buffer frameSize ℝ) :
    echoLeft h t.stream micFrame (List.ofFn fun n : Fin frameSize => t.errorAt micFrame n) +
        sqDistance (t.weightsAt micFrame frameSize) h ≤
      sqDistance t.w h + disturbance h t.stream micFrame
        (List.ofFn fun n : Fin frameSize => t.errorAt micFrame n) := by
  have hblock := sum_sq_lmsErrors_sub_le (stepSize_nonneg t.stream) (x := tap t.stream)
    (d := micFrame.getD 0) (v := nearEnd h t.stream micFrame) (h := h) frameSize
    (by
      intro n hn
      unfold nearEnd
      rw [echo_getD h t.stream hn])
    (fun n hn => stepSize_mul_le_one hcalm hn) t.w
  have hout : ∑ n ∈ range frameSize,
      ((List.ofFn fun n : Fin frameSize => t.errorAt micFrame n).getD n 0 -
        nearEnd h t.stream micFrame n) ^ 2 =
      ∑ n ∈ range frameSize, (t.errorAt micFrame n - nearEnd h t.stream micFrame n) ^ 2 := by
    apply sum_congr rfl
    intro n hn
    rw [List.getD_eq_getElem?_getD, List.getElem?_ofFn, dif_pos (mem_range.mp hn)]
    rfl
  unfold echoLeft disturbance
  rw [hout]
  exact hblock

theorem tally_echoLeft_add_le (h : Buffer nlmsLen ℝ) {t : Nlms} {calls : List Call}
    (hcalm : StaysCalm t.stream calls) :
    tally (echoLeft h) t.stream calls (Lib.run Nlms.step t calls).1 +
        sqDistance (Lib.run Nlms.step t calls).2.w h ≤
      sqDistance t.w h + tally (disturbance h) t.stream calls (Lib.run Nlms.step t calls).1 := by
  induction calls generalizing t with
  | nil =>
      show 0 + sqDistance t.w h ≤ sqDistance t.w h + 0
      rw [zero_add, add_zero]
  | cons call calls ih =>
      rw [run_cons]
      cases call with
      | pushReference refFrame =>
          exact ih (t := (t.step (.pushReference refFrame)).2) hcalm
      | process micFrame =>
          have hframe := echoLeft_add_le h hcalm.1 micFrame
          have hrest := ih (t := (t.step (.process micFrame)).2) hcalm.2
          simp only [Nlms.step, tally] at hrest ⊢
          linarith

/-- However loud the near end is, and in any run of calls, the echo that is left is bounded by
the path and by the near end, while the taps are not much louder than the frame. -/
theorem echo_left_bounded (h : Buffer nlmsLen ℝ) (calls : List Call) (hcalm : StaysCalm [] calls) :
    ∃ answers s, run calls = some (answers, s) ∧
      tally (echoLeft h) [] calls answers + s.distance h ≤
        ∑ k, h k ^ 2 + tally (disturbance h) [] calls answers := by
  obtain ⟨s, hrun, hs⟩ :=
    runM_refines (R := Follows) (fun s t call hst => hst.step call) (Follows.init .new "") calls
  refine ⟨_, s, hrun, ?_⟩
  have htotal := tally_echoLeft_add_le h (t := .new) hcalm
  have hstart : sqDistance Nlms.new.w h = ∑ k, h k ^ 2 := by
    unfold sqDistance Nlms.new
    apply sum_congr rfl
    intro k _
    ring
  rw [hstart] at htotal
  rw [hs.distance_eq]
  exact htotal

theorem calm_constant : Calm (List.ofFn fun _ : Fin frameSize => (1 : ℝ)) := by
  have hframe : ∀ n ∈ range frameSize, streamAt 0 (List.ofFn fun _ : Fin frameSize => (1 : ℝ))
      ((List.ofFn fun _ : Fin frameSize => (1 : ℝ)).length - frameSize + n) ^ 2 = 1 := by
    intro n hn
    rw [List.length_ofFn, sub_self, zero_add, streamAt_ofFn, if_neg (by omega),
      Int.toNat_natCast, Buffer.getD_of_lt _ _ (mem_range.mp hn), one_pow]
  intro n _
  have htap : ∀ k, tap (List.ofFn fun _ : Fin frameSize => (1 : ℝ)) n k ^ 2 ≤ 1 := by
    intro k
    unfold tap
    rw [streamAt_ofFn]
    unfold Buffer.getD
    split_ifs <;> norm_num
  have htaps : ∑ k, tap (List.ofFn fun _ : Fin frameSize => (1 : ℝ)) n k ^ 2 ≤ 512 := by
    calc ∑ k, tap (List.ofFn fun _ : Fin frameSize => (1 : ℝ)) n k ^ 2
        ≤ ∑ _k : Fin nlmsLen, (1 : ℝ) := sum_le_sum fun k _ => htap k
      _ = 512 := by
          rw [sum_const, card_univ, Fintype.card_fin, nsmul_eq_mul, mul_one, cast_nlmsLen]
  rw [sum_congr rfl hframe, sum_const, card_range, nsmul_eq_mul, mul_one, cast_frameSize]
  apply htaps.trans
  norm_num

/-- Speech twice as loud as what the speakers play. -/
theorem echo_left_bounded_constant :
    ∃ answers s, run [.pushReference fun _ => 1, .process fun _ => 2] = some (answers, s) ∧
      tally (echoLeft (onTap 0)) [] [.pushReference fun _ => 1, .process fun _ => 2] answers +
          s.distance (onTap 0) ≤
        ∑ k, onTap 0 k ^ 2 + tally (disturbance (onTap 0)) []
          [.pushReference fun _ => 1, .process fun _ => 2] answers :=
  echo_left_bounded (onTap 0) _ ⟨calm_constant, trivial⟩

end

end Roomsync.Pipeline.Aec
