import Roomsync.Pipeline.Plc.History
/-!
# When a lost frame is heard

Before the fade ends, a lost frame is silent exactly if the predictor looks back on zeros
only: the context ends in silence, and nothing in its autocorrelation asks for a predictor
that looks back beyond that silence.
-/

namespace Roomsync.Pipeline.Plc

open Roomsync.Lib
open Finset
open Noise (frameSize)

noncomputable section

/-! ## The frames that were pushed -/

def pushed (frames : List (Buffer frameSize ℝ)) : Option PlcProcessor :=
  frames.foldlM (fun s frame => s.pushGoodFrame (some (List.ofFn frame)) frameSize) .new

def context (frames : List (Buffer frameSize ℝ)) : List ℝ :=
  (frames.map List.ofFn).flatten.drop ((frames.map List.ofFn).flatten.length - lpcHistory)

theorem pushed_spec (frames : List (Buffer frameSize ℝ)) :
    pushed frames = some ⟨(frames.map List.ofFn).drop (frames.length - historyFrames)⟩ := by
  induction frames using List.reverseRecOn with
  | nil => rfl
  | append_singleton frames frame ih =>
      unfold pushed at ih ⊢
      rw [List.foldlM_append, ih, Option.bind_eq_bind, Option.bind_some]
      generalize hs : PlcProcessor.mk
        ((frames.map List.ofFn).drop (frames.length - historyFrames)) = s
      have hhistory : s.history =
          (frames.map List.ofFn).drop ((frames.map List.ofFn).length - historyFrames) := by
        rw [← hs, List.length_map]
      have hpush := PlcProcessor.pushGoodFrame_of_history hhistory (List.ofFn frame)
      rw [List.length_ofFn, ← List.map_singleton, ← List.map_append, List.length_map] at hpush
      rw [List.foldlM_cons, hpush]
      rfl

theorem length_flatten_ofFn (frames : List (Buffer frameSize ℝ)) :
    (frames.map List.ofFn).flatten.length = frames.length * frameSize := by
  have hlength : (List.length ∘ List.ofFn : Buffer frameSize ℝ → ℕ) = fun _ => frameSize :=
    funext fun _ => List.length_ofFn
  rw [List.length_flatten, List.map_map, hlength, List.map_const', List.sum_replicate,
    smul_eq_mul]

theorem flat_pushed (frames : List (Buffer frameSize ℝ)) :
    PlcProcessor.flat ⟨(frames.map List.ofFn).drop (frames.length - historyFrames)⟩ =
      context frames := by
  have hsuffix : ((frames.map List.ofFn).drop (frames.length - historyFrames)).flatten <:+
      (frames.map List.ofFn).flatten := by
    obtain ⟨t, ht⟩ := List.drop_suffix (frames.length - historyFrames) (frames.map List.ofFn)
    refine ⟨t.flatten, ?_⟩
    rw [← List.flatten_append, ht]
  have hlong : lpcHistory ≤
        ((frames.map List.ofFn).drop (frames.length - historyFrames)).flatten.length ∨
      ((frames.map List.ofFn).drop (frames.length - historyFrames)).flatten =
        (frames.map List.ofFn).flatten := by
    by_cases hfull : historyFrames ≤ frames.length
    · left
      have hkept : frames.length - (frames.length - historyFrames) = historyFrames := by omega
      rw [← List.map_drop, length_flatten_ofFn, List.length_drop, hkept]
      unfold lpcHistory historyFrames frameSizeMs frameSize
      omega
    · right
      have hnone : frames.length - historyFrames = 0 := by omega
      rw [hnone, List.drop_zero]
  rw [PlcProcessor.flat_eq]
  exact drop_suffix hsuffix hlong

/-! ## What the predictor looks back on -/

def fromEnd (flat : List ℝ) (i : ℕ) : ℝ := flat.reverse.getD i 0

theorem fromEnd_of_lt {flat : List ℝ} {i : ℕ} (hi : i < flat.length) :
    fromEnd flat i = flat.getD (flat.length - 1 - i) 0 := by
  unfold fromEnd
  rw [List.getD_eq_getElem?_getD, List.getElem?_reverse hi, ← List.getD_eq_getElem?_getD]

theorem clamped_eq_zero_iff (ki : ℝ) : clamped ki = 0 ↔ ki = 0 := by
  constructor
  · intro hzero
    unfold clamped at hzero
    rcases le_total (0.999 : ℝ) ki with hhigh | hhigh
    · rw [min_eq_left hhigh] at hzero
      norm_num at hzero
    · rw [min_eq_right hhigh] at hzero
      rcases le_total ki (-0.999) with hlow | hlow
      · rw [max_eq_left hlow] at hzero
        norm_num at hzero
      · rwa [max_eq_right hlow] at hzero
  · rintro rfl
    exact clamped_of_abs_le (by norm_num)

/-- The predictor of order `z` leaves an error to go on from, and some lag behind the first
`z` is not what it predicts. -/
def Unpredicted (R : Buffer (lpcOrder + 1) ℝ) (z : ℕ) : Prop :=
  ∃ err, ∃ a : Buffer z ℝ, levinsonDurbin z R = some (err, a) ∧
    ∃ i, z ≤ i ∧ i < lpcOrder ∧ lagResidual (R.getD 0) (a.getD 0) i ≠ 0 ∧
      (1e-12 < err ∨ i = 0 ∧ err = 1e-12)

theorem unpredicted_iff (R : Buffer (lpcOrder + 1) ℝ) {z : ℕ} (hz : z ≤ lpcOrder) :
    Unpredicted R z ↔ ∃ j, z ≤ j ∧ (predictor (R.getD 0) lpcOrder).2 j ≠ 0 := by
  obtain ⟨err, a, hlevinson, hpredictor⟩ := levinsonDurbin_spec (Nat.lt_succ_of_le hz) R
  have hrecursion := durbin_coeff_ne_zero_iff (R := R.getD 0) clamped_eq_zero_iff
    (by norm_num : (0 : ℝ) < 1e-12) hz
  unfold predictor at hpredictor ⊢
  rw [hrecursion]
  unfold Surprises Unpredicted
  rw [← hpredictor]
  constructor
  · rintro ⟨err', a', hlevinson', hlag⟩
    rw [hlevinson] at hlevinson'
    obtain ⟨rfl, rfl⟩ := Prod.mk.inj (Option.some.inj hlevinson')
    exact hlag
  · intro hlag
    exact ⟨err, a, hlevinson, hlag⟩

/-- The context ends in `z` zeros, and its autocorrelation asks for a predictor that looks
back beyond them. -/
def Continues (flat : List ℝ) : Prop :=
  ∃ z < lpcOrder, (∀ i < z, fromEnd flat i = 0) ∧ fromEnd flat z ≠ 0 ∧
    Unpredicted (correlations flat) z

namespace PlcProcessor

theorem continues_iff (s : PlcProcessor) : Continues s.flat ↔
    ∃ k < lpcOrder, s.coefficients k ≠ 0 ∧ ∃ i ≤ k, fromEnd s.flat i ≠ 0 := by
  constructor
  · rintro ⟨z, hz, -, hend, hunpredicted⟩
    obtain ⟨k, hzk, hk⟩ := (unpredicted_iff _ hz.le).mp hunpredicted
    refine ⟨k, ?_, hk, z, hzk, hend⟩
    by_contra hbehind
    exact hk (durbin_coeff_of_le (not_lt.mp hbehind))
  · rintro ⟨k, hk, hcoeff, i, hik, hi⟩
    classical
    have hexists : ∃ z, fromEnd s.flat z ≠ 0 := ⟨i, hi⟩
    have hfirst : Nat.find hexists ≤ i := Nat.find_min' hexists hi
    refine ⟨Nat.find hexists, by omega, fun j hj => ?_, Nat.find_spec hexists, ?_⟩
    · exact not_not.mp (Nat.find_min hexists hj)
    · exact (unpredicted_iff _ (by omega)).mpr ⟨k, by omega, hcoeff⟩

end PlcProcessor

/-! ## Energy -/

theorem energy_ofFn_pos_iff {n : ℕ} (f : Fin n → ℝ) :
    0 < energy (List.ofFn f) ↔ ∃ i, f i ≠ 0 := by
  have hterm : ∀ i ∈ univ, 0 ≤ f i ^ 2 := fun i _ => sq_nonneg (f i)
  rw [energy_ofFn, (sum_nonneg hterm).lt_iff_ne', ne_eq, sum_eq_zero_iff_of_nonneg hterm]
  simp only [mem_univ, true_implies, pow_eq_zero_iff two_ne_zero, not_forall, ne_eq]

def Audible (frames : List (Buffer frameSize ℝ)) (lossMs : ℤ) : Prop :=
  ∃ s out, pushed frames = some s ∧ s.conceal lossMs = some out ∧ 0 < energy out

theorem fade_ne_zero_iff (lossMs : ℤ) :
    max 0 (1 - (lossMs : ℝ) / plcAiMaxMs) ≠ 0 ↔ lossMs < plcAiMaxMs := by
  have hmax : (0 : ℝ) < plcAiMaxMs := by norm_num [plcAiMaxMs]
  have hfade : max 0 (1 - (lossMs : ℝ) / plcAiMaxMs) ≠ 0 ↔
      0 < 1 - (lossMs : ℝ) / plcAiMaxMs := by
    rw [ne_eq, max_eq_left_iff, not_le]
  rw [hfade, sub_pos, div_lt_one hmax]
  exact_mod_cast Iff.rfl

theorem PlcProcessor.silent_iff {s : PlcProcessor} (hlength : lpcOrder ≤ s.flat.length)
    {x : ℕ → ℝ} (hpredicts : Predicts s.coefficients lpcOrder frameSize x)
    (hseed : ∀ i < lpcOrder, x i = s.flat.getD (s.flat.length - lpcOrder + i) 0) :
    (∀ n < frameSize, x (lpcOrder + n) = 0) ↔ ¬ Continues s.flat := by
  have hback : ∀ i < lpcOrder, x (lpcOrder - 1 - i) = fromEnd s.flat i := by
    intro i hi
    have hplace : s.flat.length - lpcOrder + (lpcOrder - 1 - i) = s.flat.length - 1 - i := by
      omega
    rw [hseed _ (by omega), hplace, fromEnd_of_lt (by omega)]
  have horder : lpcOrder ≤ frameSize := by
    unfold lpcOrder frameSize
    omega
  rw [hpredicts.zero_iff horder, s.continues_iff]
  constructor
  · rintro hzero ⟨k, hk, hcoeff, i, hik, hi⟩
    rw [← hback i (by omega)] at hi
    exact hi (hzero k hk hcoeff i hik)
  · intro hnone k hk hcoeff i hik
    rw [hback i (by omega)]
    by_contra hi
    exact hnone ⟨k, hk, hcoeff, i, hik, hi⟩

theorem PlcProcessor.energy_pos_iff {s : PlcProcessor} (h : s.Whole) (hne : s.history ≠ [])
    (lossMs : ℤ) : (∃ out, s.conceal lossMs = some out ∧ 0 < energy out) ↔
      lossMs < plcAiMaxMs ∧ Continues s.flat := by
  obtain ⟨x, hpredicts, hseed, hconceal⟩ := conceal_spec h hne
  have hsilent := silent_iff (lpcOrder_le_length_flat h hne) hpredicts hseed
  have henergy : (∃ out, s.conceal lossMs = some out ∧ 0 < energy out) ↔
      ∃ n : Fin frameSize, x (lpcOrder + n) * max 0 (1 - (lossMs : ℝ) / plcAiMaxMs) ≠ 0 := by
    rw [hconceal, ← energy_ofFn_pos_iff]
    simp only [Option.some.injEq, exists_eq_left']
  rw [henergy, ← fade_ne_zero_iff]
  constructor
  · rintro ⟨n, hn⟩
    refine ⟨right_ne_zero_of_mul hn, ?_⟩
    by_contra hnone
    exact left_ne_zero_of_mul hn (hsilent.mpr hnone n n.isLt)
  · rintro ⟨hfade, hcontinues⟩
    by_contra hnone
    refine hsilent.mp (fun n hn => ?_) hcontinues
    by_contra hx
    exact hnone ⟨⟨n, hn⟩, mul_ne_zero hx hfade⟩

theorem audible_iff_of_ne_nil {frames : List (Buffer frameSize ℝ)} (hne : frames ≠ [])
    (lossMs : ℤ) :
    Audible frames lossMs ↔ lossMs < plcAiMaxMs ∧ Continues (context frames) := by
  generalize hs : PlcProcessor.mk
    ((frames.map List.ofFn).drop (frames.length - historyFrames)) = s
  have hpushed : pushed frames = some s := by rw [pushed_spec, hs]
  have hwhole : s.Whole := by
    intro frame hframe
    rw [← hs] at hframe
    obtain ⟨source, -, rfl⟩ := List.mem_map.mp (List.mem_of_mem_drop hframe)
    exact List.length_ofFn
  have hhistory : s.history ≠ [] := by
    have hpos := List.length_pos_of_ne_nil hne
    rw [← hs, ← List.length_pos_iff, List.length_drop, List.length_map]
    have hroom : 0 < historyFrames := by
      unfold historyFrames frameSizeMs
      omega
    omega
  rw [← flat_pushed, hs, ← s.energy_pos_iff hwhole hhistory]
  unfold Audible
  rw [hpushed]
  simp only [Option.some.injEq, exists_and_left, exists_eq_left']

theorem not_continues_of_silent_end {flat : List ℝ} (hend : ∀ i < lpcOrder, fromEnd flat i = 0) :
    ¬ Continues flat := by
  rintro ⟨z, hz, -, hne, -⟩
  exact hne (hend z hz)

/-- A lost frame is heard exactly if it is lost for less than the whole fade and the context
does not end in more zeros than its predictor looks back on. -/
theorem audible_iff (frames : List (Buffer frameSize ℝ)) (lossMs : ℤ) :
    Audible frames lossMs ↔ lossMs < plcAiMaxMs ∧ Continues (context frames) := by
  by_cases hne : frames = []
  · subst hne
    refine iff_of_false ?_ ?_
    · rintro ⟨s, out, hpushed, hconceal, henergy⟩
      obtain rfl := Option.some.inj hpushed
      obtain rfl := Option.some.inj hconceal
      rw [← List.ofFn_const, energy_ofFn_pos_iff] at henergy
      obtain ⟨i, hi⟩ := henergy
      exact hi rfl
    · rintro ⟨-, hcontinues⟩
      refine not_continues_of_silent_end (fun i _ => ?_) hcontinues
      unfold fromEnd context
      simp
  · exact audible_iff_of_ne_nil hne lossMs

def clickFrame : Buffer frameSize ℝ := fun i => if i.val = 0 then 1 else 0

theorem click_concealed_silent :
    ¬ ((∃ i, clickFrame i ≠ 0) → (0 : ℤ) < 10 → (10 : ℤ) < 100 → Audible [clickFrame] 10) := by
  intro hclaim
  have hclick : ∃ i, clickFrame i ≠ 0 := by
    refine ⟨⟨0, by unfold frameSize; omega⟩, ?_⟩
    show (if 0 = 0 then (1 : ℝ) else 0) ≠ 0
    rw [if_pos rfl]
    exact one_ne_zero
  have haudible := hclaim hclick (by norm_num) (by norm_num)
  rw [audible_iff_of_ne_nil (List.cons_ne_nil _ _)] at haudible
  refine not_continues_of_silent_end (fun i hi => ?_) haudible.2
  have hcontext : context [clickFrame] = List.ofFn clickFrame := by
    have hall : ([clickFrame].map List.ofFn).flatten = List.ofFn clickFrame :=
      List.append_nil _
    have hshort : (List.ofFn clickFrame).length - lpcHistory = 0 := by
      rw [List.length_ofFn]
      unfold frameSize lpcHistory
      omega
    unfold context
    rw [hall, hshort, List.drop_zero]
  have hroom : i < frameSize := by
    unfold lpcOrder at hi
    unfold frameSize
    omega
  have hlate : frameSize - 1 - i ≠ 0 := by
    unfold lpcOrder at hi
    unfold frameSize
    omega
  rw [hcontext, fromEnd_of_lt (by rw [List.length_ofFn]; exact hroom), List.length_ofFn,
    List.getD_eq_getElem _ _ (by rw [List.length_ofFn]; omega), List.getElem_ofFn]
  exact if_neg hlate

end

end Roomsync.Pipeline.Plc
