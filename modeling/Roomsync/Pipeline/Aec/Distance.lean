import Roomsync.Pipeline.Aec.Nlms
/-!
# The way to the echo path

The step is normalised by the energy of the current frame, the taps reach into older
ones.  While these are not much louder the filter gets no further from the echo path; a
quiet frame after a loud one can throw it off.
-/

namespace Roomsync.Pipeline.Aec

open Roomsync.Lib
open Noise (frameSize)
open Finset

noncomputable section

/-! ## Runs without near-end speech -/

/-- The echo of the last frame of the stream, on the path `h`. -/
def echo (h : Buffer nlmsLen ℝ) (stream : List ℝ) : Buffer frameSize ℝ := fun n =>
  ∑ k : Fin nlmsLen, h k * streamAt 0 stream (stream.length - frameSize + n - k)

def streamOf (refs : List (Buffer frameSize ℝ)) : List ℝ := refs.flatMap List.ofFn

/-- Push a reference frame and process its echo, one frame after the other. -/
def echoCalls (h : Buffer nlmsLen ℝ) : List ℝ → List (Buffer frameSize ℝ) → List Call
  | _, [] => []
  | stream, refFrame :: refs =>
      .pushReference refFrame :: .process (echo h (stream ++ List.ofFn refFrame)) ::
        echoCalls h (stream ++ List.ofFn refFrame) refs

def AecProcessor.distance (s : AecProcessor) (h : Buffer nlmsLen ℝ) : ℝ :=
  ∑ k : Fin nlmsLen, (s.w.getD k 0 - h k) ^ 2

/-- At each sample of the last frame, the taps are at most 160 times as loud as the frame,
up to the regularisation. -/
def Steady (stream : List ℝ) : Prop :=
  ∀ n < frameSize, ∑ k, tap stream n k ^ 2 ≤
    160.0 * ∑ n ∈ range frameSize, streamAt 0 stream (stream.length - frameSize + n) ^ 2 + 5e-4

theorem cast_nlmsLen {R : Type*} [Semiring R] : (nlmsLen : R) = 512 := Nat.cast_ofNat

theorem cast_frameSize {R : Type*} [Semiring R] : (frameSize : R) = 160 := Nat.cast_ofNat

theorem stepSize_nonneg (stream : List ℝ) : 0 ≤ stepSize stream := by
  unfold stepSize meanSquare
  positivity

/-- The step is the inverse of 80 times the energy of the frame, up to the regularisation. -/
theorem stepSize_mul_le_of_le {stream : List ℝ} {energy c : ℝ}
    (h : energy ≤ c * (80 * ∑ n ∈ range frameSize,
      streamAt 0 stream (stream.length - frameSize + n) ^ 2 + 2.5e-4)) :
    stepSize stream * energy ≤ c := by
  have hmean : 0 ≤ meanSquare stream := by
    unfold meanSquare
    positivity
  have hframe : ∑ n ∈ range frameSize, streamAt 0 stream (stream.length - frameSize + n) ^ 2 =
      160 * meanSquare stream := by
    unfold meanSquare
    rw [cast_frameSize (R := ℝ)]
    field_simp
  rw [hframe] at h
  unfold stepSize
  rw [div_mul_eq_mul_div, div_le_iff₀ (by positivity), cast_nlmsLen]
  norm_num at h ⊢
  linarith

theorem stepSize_mul_le {stream : List ℝ} (h : Steady stream) {n : ℕ} (hn : n < frameSize) :
    stepSize stream * ∑ k, tap stream n k ^ 2 ≤ 2 := by
  have hsteady := h n hn
  apply stepSize_mul_le_of_le
  norm_num at hsteady ⊢
  linarith

theorem echoCalls_concat (h : Buffer nlmsLen ℝ) (stream : List ℝ)
    (refs : List (Buffer frameSize ℝ)) (refFrame : Buffer frameSize ℝ) :
    echoCalls h stream (refs ++ [refFrame]) = echoCalls h stream refs ++
      [.pushReference refFrame,
        .process (echo h (stream ++ streamOf (refs ++ [refFrame])))] := by
  induction refs generalizing stream with
  | nil =>
      unfold streamOf
      rw [List.nil_append, List.flatMap_singleton]
      rfl
  | cons first refs ih =>
      rw [List.cons_append, echoCalls, ih, echoCalls]
      unfold streamOf
      rw [List.flatMap_cons, List.append_assoc]
      rfl

theorem Follows.distance_eq {s : AecProcessor} {t : Nlms} (hs : Follows s t)
    (h : Buffer nlmsLen ℝ) : s.distance h = sqDistance t.w h := by
  unfold AecProcessor.distance sqDistance
  apply sum_congr rfl
  intro k _
  rw [hs.w, List.getD_eq_getElem?_getD, List.getElem?_ofFn, dif_pos k.isLt]
  rfl

theorem pushed_echoCalls (h : Buffer nlmsLen ℝ) (stream : List ℝ)
    (refs : List (Buffer frameSize ℝ)) : pushed (echoCalls h stream refs) = streamOf refs := by
  induction refs generalizing stream with
  | nil => rfl
  | cons refFrame refs ih =>
      have htail := ih (stream ++ List.ofFn refFrame)
      unfold pushed at htail ⊢
      unfold streamOf at htail ⊢
      rw [echoCalls, List.flatMap_cons, List.flatMap_cons, List.flatMap_cons, htail,
        List.nil_append]

def echoWeights (h : Buffer nlmsLen ℝ) (refs : List (Buffer frameSize ℝ)) : Buffer nlmsLen ℝ :=
  (Lib.run Nlms.step .new (echoCalls h [] refs)).2.w

theorem stream_echoCalls (h : Buffer nlmsLen ℝ) (refs : List (Buffer frameSize ℝ)) :
    (Lib.run Nlms.step .new (echoCalls h [] refs)).2 = ⟨streamOf refs, echoWeights h refs⟩ := by
  have hstream := stream_run .new (echoCalls h [] refs)
  rw [pushed_echoCalls] at hstream
  unfold echoWeights
  generalize (Lib.run Nlms.step .new (echoCalls h [] refs)).2 = t at *
  obtain ⟨stream, w⟩ := t
  rw [show stream = streamOf refs from hstream]

theorem run_echoCalls (h : Buffer nlmsLen ℝ) (refs : List (Buffer frameSize ℝ)) :
    ∃ a s, run (echoCalls h [] refs) = some (a, s) ∧
      s.distance h = sqDistance (echoWeights h refs) h := by
  obtain ⟨s, hrun, hs⟩ := runM_refines (R := Follows) (fun s t call hst => hst.step call)
    (Follows.init .new "") (echoCalls h [] refs)
  exact ⟨_, s, hrun, hs.distance_eq h⟩

theorem echoWeights_concat (h : Buffer nlmsLen ℝ) (refs : List (Buffer frameSize ℝ))
    (refFrame : Buffer frameSize ℝ) :
    echoWeights h (refs ++ [refFrame]) =
      Nlms.weightsAt ⟨streamOf (refs ++ [refFrame]), echoWeights h refs⟩
        (echo h (streamOf (refs ++ [refFrame]))) frameSize := by
  have hcalls : echoCalls h [] (refs ++ [refFrame]) = echoCalls h [] refs ++
      [.pushReference refFrame, .process (echo h (streamOf (refs ++ [refFrame])))] :=
    echoCalls_concat h [] refs refFrame
  have hnew : streamOf refs ++ List.ofFn refFrame = streamOf (refs ++ [refFrame]) := by
    unfold streamOf
    rw [List.flatMap_append, List.flatMap_singleton]
  rw [echoWeights, hcalls, run_append_snd, stream_echoCalls, ← hnew]
  simp only [run_cons, run_nil, Nlms.step]

/-- The filter never gets further from the echo path while the taps of each processed
frame are steady. -/
theorem distance_never_increases (h : Buffer nlmsLen ℝ) (refs : List (Buffer frameSize ℝ))
    (hsteady : ∀ i < refs.length, Steady (streamOf (refs.take (i + 1)))) :
    ∀ i < refs.length, ∃ a b s s',
      run (echoCalls h [] (refs.take i)) = some (a, s) ∧
      run (echoCalls h [] (refs.take (i + 1))) = some (b, s') ∧
      s'.distance h ≤ s.distance h := by
  intro i hi
  have htake : refs.take (i + 1) = refs.take i ++ [refs[i]] := List.take_succ_eq_append_getElem hi
  have hstep := hsteady i hi
  obtain ⟨a, s, hrun, hs⟩ := run_echoCalls h (refs.take i)
  obtain ⟨b, s', hrun', hs'⟩ := run_echoCalls h (refs.take (i + 1))
  refine ⟨a, b, s, s', hrun, hrun', ?_⟩
  rw [hs, hs', htake, echoWeights_concat, ← htake]
  apply sqDistance_lmsWeights_le (stepSize_nonneg _)
  · intro n hn
    rw [Buffer.getD_of_lt _ _ hn]
    rfl
  · intro n hn
    exact stepSize_mul_le hstep hn

/-! ## A steady and an unsteady reference -/

def onTap (j : ℕ) : Buffer nlmsLen ℝ := fun k => if k.val = j then 1 else 0

theorem streamAt_ofFn {n : ℕ} (x : Buffer n ℝ) (t : ℤ) :
    streamAt 0 (List.ofFn x) t = if t < 0 then 0 else x.getD 0 t.toNat := by
  unfold streamAt Buffer.getD
  rw [List.getD_eq_getElem?_getD, List.getElem?_ofFn]
  split_ifs <;> rfl

theorem streamOf_replicate (m : ℕ) :
    streamOf (List.replicate m fun _ => 1) = List.replicate (m * frameSize) 1 := by
  unfold streamOf
  rw [List.flatMap_def, List.map_replicate, List.ofFn_const, List.flatten_replicate_replicate]

theorem streamAt_replicate (n : ℕ) (t : ℤ) :
    streamAt 0 (List.replicate n (1 : ℝ)) t = if 0 ≤ t ∧ t < n then 1 else 0 := by
  unfold streamAt
  rw [List.getD_eq_getElem?_getD, List.getElem?_replicate]
  split_ifs <;> first | rfl | omega

theorem steady_replicate (m : ℕ) :
    Steady (streamOf (List.replicate (m + 1) fun _ => 1)) := by
  rw [streamOf_replicate]
  have hsq : ∀ t : ℤ, streamAt 0 (List.replicate ((m + 1) * frameSize) (1 : ℝ)) t ^ 2 ≤ 1 := by
    intro t
    rw [streamAt_replicate]
    split_ifs <;> norm_num
  have hframe : ∀ n ∈ range frameSize, streamAt 0 (List.replicate ((m + 1) * frameSize) (1 : ℝ))
      ((List.replicate ((m + 1) * frameSize) (1 : ℝ)).length - frameSize + n) ^ 2 = 1 := by
    intro n hn
    have hlt := mem_range.mp hn
    rw [List.length_replicate, streamAt_replicate, if_pos, one_pow]
    rw [Nat.cast_mul, cast_frameSize] at *
    unfold frameSize at hlt
    push_cast
    omega
  intro n _
  have htaps : ∑ k, tap (List.replicate ((m + 1) * frameSize) (1 : ℝ)) n k ^ 2 ≤ nlmsLen := by
    calc ∑ k, tap (List.replicate ((m + 1) * frameSize) (1 : ℝ)) n k ^ 2
        ≤ ∑ _k : Fin nlmsLen, (1 : ℝ) := sum_le_sum fun k _ => hsq _
      _ = nlmsLen := by
          rw [sum_const, card_univ, Fintype.card_fin, nsmul_eq_mul, mul_one]
  rw [sum_congr rfl hframe, sum_const, card_range, nsmul_eq_mul, mul_one]
  rw [cast_nlmsLen] at htaps
  rw [cast_frameSize]
  norm_num
  linarith

/-- In the second frame the taps reach back into the first. -/
theorem distance_never_increases_constant :
    (∀ i < 2, Steady (streamOf (List.take (i + 1) (List.replicate 2 fun _ => 1)))) ∧
    ∃ a b s s',
      run (echoCalls (onTap 200) [] (List.take 1 (List.replicate 2 fun _ => 1))) = some (a, s) ∧
      run (echoCalls (onTap 200) [] (List.take 2 (List.replicate 2 fun _ => 1))) =
        some (b, s') ∧
      s'.distance (onTap 200) ≤ s.distance (onTap 200) := by
  have hsteady : ∀ i < 2, Steady (streamOf (List.take (i + 1) (List.replicate 2 fun _ => 1))) := by
    intro i hi
    rw [List.take_replicate, Nat.min_eq_left hi]
    exact steady_replicate i
  exact ⟨hsteady,
    distance_never_increases (onTap 200) (List.replicate 2 fun _ => 1) hsteady 1 Nat.one_lt_two⟩

def click : Buffer frameSize ℝ := fun n => if n.val = 0 then 1 else 0

theorem echo_onTap {j : ℕ} (hj : j < nlmsLen) (stream : List ℝ) (n : Fin frameSize) :
    echo (onTap j) stream n = streamAt 0 stream (stream.length - frameSize + n - j) := by
  unfold echo onTap
  rw [sum_eq_single ⟨j, hj⟩]
  · rw [if_pos rfl, one_mul]
  · intro k _ hk
    rw [if_neg fun h => hk (Fin.ext h), zero_mul]
  · intro hmem
    exact absurd (mem_univ _) hmem

section Click

variable {stream : List ℝ}

theorem stepSize_after_click (hclick : ∀ t, streamAt 0 stream t = if t = 0 then 1 else 0)
    (hlength : stream.length = 320) : stepSize stream = 4000 := by
  have hquiet : meanSquare stream = 0 := by
    unfold meanSquare
    rw [sum_eq_zero, zero_div]
    intro n _
    rw [hclick, hlength, cast_frameSize, if_neg (by push_cast; omega), zero_pow two_ne_zero]
  unfold stepSize
  rw [hquiet]
  norm_num

theorem tap_after_click (hclick : ∀ t, streamAt 0 stream t = if t = 0 then 1 else 0)
    (hlength : stream.length = 320) (n : ℕ) (k : Fin nlmsLen) :
    tap stream n k = if (160 + n - k : ℤ) = 0 then 1 else 0 := by
  unfold tap
  rw [hclick, hlength, cast_frameSize]
  norm_num

theorem echo_after_click (hclick : ∀ t, streamAt 0 stream t = if t = 0 then 1 else 0)
    (hlength : stream.length = 320) {n : ℕ} (hn : n < frameSize) :
    (echo (onTap 160) stream).getD 0 n = if n = 0 then 1 else 0 := by
  rw [Buffer.getD_of_lt _ _ hn, echo_onTap (by rw [nlmsLen_eq]; omega), hclick, hlength,
    cast_frameSize]
  norm_num

theorem weights_after_click (hclick : ∀ t, streamAt 0 stream t = if t = 0 then 1 else 0)
    (hlength : stream.length = 320) {n : ℕ} (hn : n < frameSize) :
    Nlms.weightsAt ⟨stream, fun _ => 0⟩ (echo (onTap 160) stream) (n + 1) =
      fun k => if k.val = 160 then 4000 else 0 := by
  have htap := tap_after_click hclick hlength
  have hnext : ∀ m, Nlms.weightsAt ⟨stream, fun _ => 0⟩ (echo (onTap 160) stream) (m + 1) =
      lmsUpdate (stepSize stream)
        (lmsError (Nlms.weightsAt ⟨stream, fun _ => 0⟩ (echo (onTap 160) stream) m)
          (tap stream m) ((echo (onTap 160) stream).getD 0 m))
        (Nlms.weightsAt ⟨stream, fun _ => 0⟩ (echo (onTap 160) stream) m) (tap stream m) :=
    fun m => rfl
  induction n with
  | zero =>
      have hfirst : lmsError (Nlms.weightsAt ⟨stream, fun _ => 0⟩ (echo (onTap 160) stream) 0)
          (tap stream 0) ((echo (onTap 160) stream).getD 0 0) = 1 := by
        rw [echo_after_click hclick hlength hn, if_pos rfl]
        exact lmsError_zero _ _
      rw [hnext, hfirst, stepSize_after_click hclick hlength]
      ext k
      unfold lmsUpdate
      rw [htap]
      change 0 + 4000 * 1 * _ = _
      by_cases hk : k.val = 160
      · rw [if_pos hk, if_pos (by push_cast; omega)]
        norm_num
      · rw [if_neg hk, if_neg (by push_cast; omega)]
        norm_num
  | succ n ih =>
      have hlast := ih (by omega)
      have hzero : lmsError (Nlms.weightsAt ⟨stream, fun _ => 0⟩ (echo (onTap 160) stream) (n + 1))
          (tap stream (n + 1)) ((echo (onTap 160) stream).getD 0 (n + 1)) = 0 := by
        rw [echo_after_click hclick hlength hn, hlast, if_neg (by omega)]
        unfold lmsError filterOutput
        rw [sum_eq_zero, sub_zero]
        intro k _
        rw [htap]
        by_cases hk : k.val = 160
        · rw [if_neg (by push_cast; omega), mul_zero]
        · dsimp only
          rw [if_neg hk, zero_mul]
      rw [hnext, hzero, lmsUpdate_zero, hlast]

end Click

theorem streamAt_click (t : ℤ) :
    streamAt 0 (streamOf [click]) t = if t = 0 then 1 else 0 := by
  have hstream : streamOf [click] = List.ofFn click := by
    unfold streamOf
    rw [List.flatMap_singleton]
  rw [hstream, streamAt_ofFn]
  rcases lt_trichotomy t 0 with ht | rfl | ht
  · rw [if_pos ht, if_neg ht.ne]
  · rfl
  · rw [if_neg ht.le.not_gt, if_neg ht.ne']
    rcases Nat.lt_or_ge t.toNat frameSize with hlt | hle
    · rw [Buffer.getD_of_lt _ _ hlt]
      exact if_neg (show t.toNat ≠ 0 by omega)
    · exact Buffer.getD_of_le _ _ hle

theorem streamAt_click_silence (t : ℤ) :
    streamAt 0 (streamOf [click, fun _ => 0]) t = if t = 0 then 1 else 0 := by
  have hstream : streamOf [click, fun _ => 0] =
      streamOf [click] ++ List.replicate frameSize 0 := by
    unfold streamOf
    rw [List.flatMap_cons, List.flatMap_singleton, List.flatMap_singleton, List.ofFn_const]
  rw [← streamAt_click, hstream]
  unfold streamAt
  split_ifs
  · rfl
  · rw [List.getD_eq_getElem?_getD, List.getD_eq_getElem?_getD]
    rcases Nat.lt_or_ge t.toNat (streamOf [click]).length with ht | ht
    · rw [List.getElem?_append_left ht]
    · rw [List.getElem?_append_right ht, List.getElem?_eq_none ht, List.getElem?_replicate]
      split_ifs <;> rfl

/-- The echo of the click comes in the silence after it, and throws the filter off. -/
theorem moves_away_after_click : ∃ a b s s',
    run (echoCalls (onTap 160) [] [click]) = some (a, s) ∧
    run (echoCalls (onTap 160) [] [click, fun _ => 0]) = some (b, s') ∧
    s.distance (onTap 160) < s'.distance (onTap 160) := by
  obtain ⟨a, s, hrun, hs⟩ := run_echoCalls (onTap 160) [click]
  obtain ⟨b, s', hrun', hs'⟩ := run_echoCalls (onTap 160) [click, fun _ => 0]
  refine ⟨a, b, s, s', hrun, hrun', ?_⟩
  -- The click itself is not heard yet, so that nothing is learned from it.
  have hfirst : echoWeights (onTap 160) [click] = fun _ => 0 := by
    have hsilent : ∀ n < frameSize, (echo (onTap 160) (streamOf [click])).getD 0 n = 0 := by
      intro n hn
      have hlength : (streamOf [click]).length = frameSize := by
        unfold streamOf
        rw [List.flatMap_singleton, List.length_ofFn]
      have hlt : n < 160 := hn
      rw [Buffer.getD_of_lt _ _ hn, echo_onTap (by rw [nlmsLen_eq]; omega), streamAt_click,
        hlength, if_neg (by push_cast; omega)]
    rw [← List.nil_append [click], echoWeights_concat]
    exact (lms_silent _ _ hsilent).1
  have hsecond : echoWeights (onTap 160) [click, fun _ => 0] =
      fun k => if k.val = 160 then 4000 else 0 := by
    have hlength : (streamOf [click, fun _ => 0]).length = 320 := by
      unfold streamOf
      rw [List.flatMap_cons, List.flatMap_singleton, List.length_append, List.length_ofFn,
        List.length_ofFn]
      rfl
    have hconcat := echoWeights_concat (onTap 160) [click] fun _ => 0
    rw [hfirst] at hconcat
    exact hconcat.trans (weights_after_click streamAt_click_silence hlength (n := 159) (by decide))
  rw [hs, hs', hfirst, hsecond]
  unfold sqDistance onTap
  apply sum_lt_sum
  · intro k _
    by_cases hk : k.val = 160
    · simp only [if_pos hk]
      norm_num
    · simp only [if_neg hk]
      norm_num
  · refine ⟨⟨160, by rw [nlmsLen_eq]; omega⟩, mem_univ _, ?_⟩
    norm_num

end

end Roomsync.Pipeline.Aec
