import Roomsync.Pipeline.Aec.Nlms
/-!
# Two measures of echo return loss

`erle_db` of `measure_erle.py`, which scores recordings, next to the estimate that the
canceller keeps of itself.  The estimate divides by the power of the output, the score by
the power of what was taken away from the microphone.
-/

namespace Roomsync.Pipeline.Aec

open Roomsync.Lib
open Noise (frameSize)
open Finset

noncomputable section

variable {n : ℕ}

/-- `np.mean`, which is no number where there are no samples. -/
def mean (x : Buffer (n + 1) ℝ) : ℝ := (∑ i, x i) / (n + 1 : ℕ)

def erleDb (mic echoCancelled ref : Buffer (n + 1) ℝ) : ℝ :=
  let echoPower := mean (fun i => ref i ^ 2) + 1e-10
  let residPower := mean (fun i => (mic i - echoCancelled i) ^ 2) + 1e-10
  10.0 * Real.logb 10.0 (echoPower / residPower)

theorem decibels_le_iff {p e e' : ℝ} (hp : 0 < p) (he : 0 < e) (he' : 0 < e') :
    10.0 * Real.logb 10.0 (p / e) ≤ 10.0 * Real.logb 10.0 (p / e') ↔ e' ≤ e := by
  rw [mul_le_mul_iff_right₀ (by norm_num), Real.logb_le_logb (by norm_num) (div_pos hp he)
    (div_pos hp he'), div_le_div_iff_of_pos_left hp he he']

/-! ## The score -/

theorem mean_sq_nonneg (x : Buffer (n + 1) ℝ) : 0 ≤ mean fun i => x i ^ 2 :=
  div_nonneg (sum_nonneg fun i _ => sq_nonneg (x i)) (Nat.cast_nonneg _)

theorem mean_sq_le_zero_iff (x : Buffer (n + 1) ℝ) :
    (mean fun i => x i ^ 2) ≤ 0 ↔ x = fun _ => 0 := by
  have hcount : (0 : ℝ) < (n + 1 : ℕ) := Nat.cast_pos.mpr n.succ_pos
  unfold mean
  rw [div_le_iff₀ hcount, zero_mul]
  constructor
  · intro hsum
    have hzero := (sum_eq_zero_iff_of_nonneg fun i _ => sq_nonneg (x i)).mp
      (le_antisymm hsum (sum_nonneg fun i _ => sq_nonneg (x i)))
    ext i
    exact sq_eq_zero_iff.mp (hzero i (mem_univ i))
  · intro hx
    apply le_of_eq
    apply sum_eq_zero
    intro i _
    rw [hx]
    exact zero_pow two_ne_zero

theorem erleDb_le_iff (mic o₁ o₂ ref : Buffer (n + 1) ℝ) :
    erleDb mic o₂ ref ≤ erleDb mic o₁ ref ↔
      (mean fun i => (mic i - o₁ i) ^ 2) ≤ mean fun i => (mic i - o₂ i) ^ 2 := by
  have href := mean_sq_nonneg ref
  have h₁ := mean_sq_nonneg fun i => mic i - o₁ i
  have h₂ := mean_sq_nonneg fun i => mic i - o₂ i
  unfold erleDb
  rw [decibels_le_iff (by linarith) (by linarith) (by linarith)]
  exact add_le_add_iff_right _

theorem mean_sq_sub (mic o₁ o₂ : Buffer (n + 1) ℝ) :
    (mean fun i => (mic i - o₂ i) ^ 2) - (mean fun i => (mic i - o₁ i) ^ 2) =
      (mean fun i => o₂ i ^ 2) - (mean fun i => o₁ i ^ 2) -
        mean fun i => 2.0 * (mic i * (o₂ i - o₁ i)) := by
  unfold mean
  rw [← sub_div, ← sub_div, ← sub_div, ← sum_sub_distrib, ← sum_sub_distrib, ← sum_sub_distrib]
  apply congrArg (· / _)
  apply sum_congr rfl
  intro i _
  norm_num
  ring

def RanksByPower (mic ref o₁ o₂ : Buffer (n + 1) ℝ) : Prop :=
  (mean fun i => o₁ i ^ 2) ≤ (mean fun i => o₂ i ^ 2) → erleDb mic o₂ ref ≤ erleDb mic o₁ ref

theorem ranksByPower_iff (mic ref o₁ o₂ : Buffer (n + 1) ℝ) :
    RanksByPower mic ref o₁ o₂ ↔ ((mean fun i => o₁ i ^ 2) ≤ (mean fun i => o₂ i ^ 2) →
      (mean fun i => 2.0 * (mic i * (o₂ i - o₁ i))) ≤
        (mean fun i => o₂ i ^ 2) - mean fun i => o₁ i ^ 2) := by
  have hsub := mean_sq_sub mic o₁ o₂
  unfold RanksByPower
  apply imp_congr Iff.rfl
  rw [erleDb_le_iff]
  constructor <;> intro h <;> linarith

theorem unchanged_scores_highest (mic ref o : Buffer (n + 1) ℝ) :
    erleDb mic mic ref ≤ erleDb mic o ref ↔ o = mic := by
  have hself : (mean fun i => (mic i - mic i) ^ 2) = 0 := by
    apply le_antisymm _ (mean_sq_nonneg _)
    apply (mean_sq_le_zero_iff _).mpr
    ext i
    exact sub_self _
  rw [erleDb_le_iff, hself, mean_sq_le_zero_iff]
  constructor
  · intro h
    ext i
    exact (sub_eq_zero.mp (congrFun h i)).symm
  · intro h
    ext i
    rw [h, sub_self]

/-! ## The estimate -/

/-- What the estimate depends on besides the output. -/
def AecProcessor.readings (s : AecProcessor) : ℝ × ℝ × ℝ :=
  (s.echoPower, s.errorPower, s.erleDb)

/-- A frame that comes out after some calls, where they left the readings `r`, and the
estimate then. -/
def Estimates (r : ℝ × ℝ × ℝ) (out : Buffer frameSize ℝ) (erle : ℝ) : Prop :=
  ∃ calls answers s s', ∃ mic : Buffer frameSize ℝ,
    run calls = some (answers, s) ∧ s.readings = r ∧
      s.process (some (List.ofFn mic)) frameSize = some (List.ofFn out, s') ∧ s'.erleDb = erle

def Shows (s : AecProcessor) : Prop := (∃ t, Follows s t) ∧ 0 ≤ s.errorPower

theorem errorPower_adapted_nonneg {s : AecProcessor} (hs : 0 ≤ s.errorPower) (t : Nlms)
    (micFrame : Buffer frameSize ℝ) : 0 ≤ (s.adapted t micFrame).errorPower := by
  have hsum : 0 ≤ ∑ n ∈ range frameSize, t.errorAt micFrame n ^ 2 :=
    sum_nonneg fun n _ => sq_nonneg _
  unfold AecProcessor.adapted
  positivity

theorem Shows.step {s : AecProcessor} (h : Shows s) (call : Call) :
    ∃ answer s', Aec.step s call = some (answer, s') ∧ Shows s' := by
  obtain ⟨⟨t, ht⟩, hpower⟩ := h
  cases call with
  | pushReference refFrame =>
      exact ⟨none, s.heard refFrame, ht.step_pushReference refFrame, ⟨_, ht.heard refFrame⟩, hpower⟩
  | process micFrame =>
      exact ⟨(t.step (.process micFrame)).1, s.adapted t micFrame, ht.step_process micFrame,
        ⟨_, ht.adapted micFrame⟩, errorPower_adapted_nonneg hpower t micFrame⟩

theorem shows_of_run {calls : List Call} {answers : List (Option (List ℝ))} {s : AecProcessor}
    (hrun : run calls = some (answers, s)) : Shows s := by
  have hstart : Shows (AecProcessor.new.init "").2 := by
    refine ⟨⟨_, Follows.init .new ""⟩, ?_⟩
    show (0 : ℝ) ≤ 1e-10
    norm_num
  have hstep : ∀ s, ∀ call ∈ calls, Shows s →
      ∃ answer s', step s call = some (answer, s') ∧ True ∧ Shows s' := by
    intro s call _ hs
    obtain ⟨answer, s', hcall, hs'⟩ := hs.step call
    exact ⟨answer, s', hcall, trivial, hs'⟩
  obtain ⟨_, s', hrun', -, hs'⟩ := runM_invariant (A := fun _ _ => True) hstep hstart
  obtain ⟨-, rfl⟩ := Prod.mk.inj (Option.some.inj (hrun.symm.trans hrun'))
  exact hs'

theorem Estimates.erle_eq {r : ℝ × ℝ × ℝ} {out : Buffer frameSize ℝ} {erle : ℝ}
    (h : Estimates r out erle) : 0 ≤ r.2.1 ∧
      erle = if r.1 > 1e-10 then
        10.0 * Real.logb 10.0 (r.1 / (0.95 * r.2.1 + 0.05 * (mean fun i => out i ^ 2) + 1e-10))
        else r.2.2 := by
  obtain ⟨calls, answers, s, s', mic, hrun, rfl, hprocess, rfl⟩ := h
  obtain ⟨⟨t, ht⟩, hpower⟩ := shows_of_run hrun
  rw [AecProcessor.process_eq_some ht.refBuf ht.w] at hprocess
  obtain ⟨hout, rfl⟩ := Prod.mk.inj (Option.some.inj hprocess)
  obtain rfl := List.ofFn_injective hout
  refine ⟨hpower, ?_⟩
  unfold mean
  have hsum : ∑ i : Fin frameSize, t.errorAt mic i ^ 2 =
      ∑ n ∈ range frameSize, t.errorAt mic n ^ 2 := (sum_range fun n => t.errorAt mic n ^ 2).symm
  exact hsum ▸ rfl

theorem Estimates.le_of_mean_le {r : ℝ × ℝ × ℝ} {o₁ o₂ : Buffer frameSize ℝ} {erle₁ erle₂ : ℝ}
    (h₁ : Estimates r o₁ erle₁) (h₂ : Estimates r o₂ erle₂)
    (hmean : (mean fun i => o₁ i ^ 2) ≤ mean fun i => o₂ i ^ 2) : erle₂ ≤ erle₁ := by
  obtain ⟨hpower, rfl⟩ := h₁.erle_eq
  obtain ⟨-, rfl⟩ := h₂.erle_eq
  split_ifs with hecho
  · have hfirst := mean_sq_nonneg o₁
    have hsecond := mean_sq_nonneg o₂
    have hecho' : 0 < r.1 := lt_trans (by norm_num) hecho
    apply (decibels_le_iff hecho' (by positivity) (by positivity)).mpr
    linarith
  · exact le_refl _

/-- The estimate ranks by the power of the output, the score only where the louder output
has gained at least twice what it gained along the microphone; it puts nothing else as
high as a canceller that changes nothing. -/
theorem erle_ranks_iff (mic ref o₁ o₂ : Buffer (n + 1) ℝ) :
    (RanksByPower mic ref o₁ o₂ ↔ ((mean fun i => o₁ i ^ 2) ≤ (mean fun i => o₂ i ^ 2) →
      (mean fun i => 2.0 * (mic i * (o₂ i - o₁ i))) ≤
        (mean fun i => o₂ i ^ 2) - mean fun i => o₁ i ^ 2)) ∧
    (erleDb mic mic ref ≤ erleDb mic o₁ ref ↔ o₁ = mic) ∧
    ∀ r out₁ out₂ erle₁ erle₂, Estimates r out₁ erle₁ → Estimates r out₂ erle₂ →
      (mean fun i => out₁ i ^ 2) ≤ (mean fun i => out₂ i ^ 2) → erle₂ ≤ erle₁ :=
  ⟨ranksByPower_iff mic ref o₁ o₂, unchanged_scores_highest mic ref o₁,
    fun _ _ _ _ _ h₁ h₂ hmean => h₁.le_of_mean_le h₂ hmean⟩

/-- To take the echo away whole scores below leaving it. -/
theorem silence_scores_below_echo :
    ¬ RanksByPower (fun _ : Fin 1 => 1) (fun _ => 1) (fun _ => 0) fun _ => 1 := by
  rw [ranksByPower_iff]
  unfold mean
  norm_num

end

end Roomsync.Pipeline.Aec
