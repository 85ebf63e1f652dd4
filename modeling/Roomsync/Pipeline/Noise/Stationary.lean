import Roomsync.Lib.Smoothing
import Roomsync.Pipeline.Noise.Attenuation
/-!
# The noise estimate on a frame that repeats

Fed one frame over and over, the estimate moves towards its power for as long as the
frame is found to be noise.  The bootstrap ends with the estimate still far below a loud
frame: that one is taken for speech from then on, and the estimate stays where it is.
-/

namespace Roomsync.Pipeline.Noise

open Roomsync.Lib
open Finset

noncomputable section

variable {n : ℕ}

/-! ## The energy of a frame -/

def windowedEnergy (frame : Buffer frameSize ℝ) : ℝ :=
  0.5 * (fftSize * ∑ i ∈ range frameSize, weighted hann frame i ^ 2 +
    (∑ i ∈ range frameSize, weighted hann frame i) ^ 2 +
    (∑ i ∈ range frameSize, (-1) ^ i * weighted hann frame i) ^ 2)

theorem sum_weighted (frame : Buffer frameSize ℝ) (f : ℕ → ℝ → ℝ) (hf : ∀ i, f i 0 = 0) :
    ∑ i : Fin fftSize, f i (weighted hann frame i) =
      ∑ i ∈ range frameSize, f i (weighted hann frame i) := by
  rw [← sum_range fun i => f i (weighted hann frame i)]
  symm
  apply sum_subset (range_mono frameSize_le_fftSize)
  intro i _ hi
  rw [mem_range, Nat.not_lt] at hi
  rw [weighted, Buffer.getD_of_le frame _ hi, zero_mul, hf]

theorem binPower_zero (frame : Buffer frameSize ℝ) :
    binPower hann frame 0 = (∑ i ∈ range frameSize, weighted hann frame i) ^ 2 := by
  have hterm : spectrum hann frame ⟨0, by unfold fftSize; omega⟩ =
      ((∑ i ∈ range frameSize, weighted hann frame i : ℝ) : ℂ) := by
    rw [← sum_weighted frame (fun _ x => x) fun _ => rfl]
    unfold spectrum dft
    push_cast
    apply sum_congr rfl
    intro i _
    rw [Nat.mul_zero, pow_zero, mul_one]
  unfold binPower
  rw [Buffer.getD_of_lt _ _ (by unfold fftSize; omega), hterm, Complex.normSq_ofReal, sq]

theorem binPower_nyquist (frame : Buffer frameSize ℝ) :
    binPower hann frame (fftSize / 2) =
      (∑ i ∈ range frameSize, (-1) ^ i * weighted hann frame i) ^ 2 := by
  have hroot : rootOf fftSize ^ (fftSize / 2) = -1 := twiddles_rootOf.half 8
  have hterm : spectrum hann frame ⟨fftSize / 2, by unfold fftSize; omega⟩ =
      ((∑ i ∈ range frameSize, (-1) ^ i * weighted hann frame i : ℝ) : ℂ) := by
    rw [← sum_weighted frame (fun i x => (-1) ^ i * x) fun _ => mul_zero _]
    unfold spectrum dft
    push_cast
    apply sum_congr rfl
    intro i _
    rw [Nat.mul_comm, pow_mul, hroot, mul_comm]
  unfold binPower
  rw [Buffer.getD_of_lt _ _ (by unfold fftSize; omega), hterm, Complex.normSq_ofReal, sq]

theorem frameEnergy_eq (frame : Buffer frameSize ℝ) :
    frameEnergy hann frame = windowedEnergy frame := by
  have hsymm : ∀ k l, 0 < k → 0 < l → k + l = 2 * (fftSize / 2) →
      binPower hann frame k = binPower hann frame l := by
    intro k l hk hl hkl
    have hmirror := spectrum_mirrored hann frame k l hk hl hkl
    unfold binPower
    rw [← hmirror, Complex.normSq_conj]
  have hall : ∑ k ∈ range fftSize, binPower hann frame k =
      fftSize * ∑ i ∈ range frameSize, weighted hann frame i ^ 2 := by
    rw [sum_range, ← sum_weighted frame (fun _ x => x ^ 2) fun _ => zero_pow two_ne_zero]
    have hparseval := sum_normSq_dft fun i : Fin fftSize => (weighted hann frame i : ℂ)
    simp only [Complex.normSq_ofReal, ← sq] at hparseval
    rw [← hparseval]
    apply sum_congr rfl
    intro k _
    unfold binPower spectrum
    rw [Buffer.getD_of_lt _ _ k.isLt]
  have hlower := two_mul_sum_lower hsymm
  rw [binPower_zero, binPower_nyquist] at hlower
  unfold windowedEnergy frameEnergy
  rw [← hall]
  change 2 * ∑ k ∈ range halfFft, binPower hann frame k =
    ∑ k ∈ range fftSize, binPower hann frame k + _ + _ at hlower
  linarith

/-! ## Feeding one frame -/

namespace NoiseSuppressor

def classify (s : NoiseSuppressor) (frame : Buffer n ℝ) : Option Bool := do
  let (_, frameEnergy, _) ← s.analyse frame
  let (isNoise, _) ← s.detectNoise frameEnergy
  return isNoise

def feed (s : NoiseSuppressor) (frame : Buffer n ℝ) : ℕ → Option NoiseSuppressor
  | 0 => some s
  | count + 1 => do
      let t ← s.feed frame count
      let (_, t) ← t.process frame
      return t

/-- The first `count` calls all take the frame for noise, and what they leave of the
estimate at the start is `0.95 ^ count` of it. -/
def LockedOn (s : NoiseSuppressor) (frame : Buffer n ℝ) (count : ℕ) : Prop :=
  (∀ m < count, ∃ t, s.feed frame m = some t ∧ t.classify frame = some true) ∧
    ∃ t X energy power, s.feed frame count = some t ∧
      s.analyse frame = some (X, energy, power) ∧
      ∀ k, t.noisePsd k = 0.95 ^ count * 1e-6 + (1 - 0.95 ^ count) * power k

def Converges (s : NoiseSuppressor) (frame : Buffer n ℝ) : Prop :=
  ∃ fed : ℕ → NoiseSuppressor, ∃ X energy power,
    (∀ count, s.feed frame count = some (fed count)) ∧
    s.analyse frame = some (X, energy, power) ∧
    ∀ k, Filter.Tendsto (fun count => (fed count).noisePsd k) Filter.atTop (nhds (power k))

end NoiseSuppressor

/-- The ratio of energies that `VAD_SNR_THRESH` stands for. -/
def snrRatio : ℝ := 10.0 ^ (vadSnrThresh / 10.0)

/-- Where the ratio of the frame to the estimate after the bootstrap reaches the
threshold. -/
def lockEnergy : ℝ :=
  (snrRatio * (noiseAlpha ^ initFrames * (halfFft * 1e-6) + 1e-12) - 1e-12) /
    (1 - snrRatio * (1 - noiseAlpha ^ initFrames))

def Quiet (frame : Buffer frameSize ℝ) : Prop := windowedEnergy frame < lockEnergy

/-- The energy of the estimate after `m` updates. -/
def learnedEnergy (frame : Buffer frameSize ℝ) (m : ℕ) : ℝ :=
  smoothed noiseAlpha (halfFft * 1e-6) (windowedEnergy frame) m

/-- The test of the next call finds noise, when `m` updates have been made. -/
def Learns (frame : Buffer frameSize ℝ) (m : ℕ) : Prop :=
  windowedEnergy frame + 1e-12 < snrRatio * (learnedEnergy frame m + 1e-12)

theorem windowedEnergy_nonneg (frame : Buffer frameSize ℝ) : 0 ≤ windowedEnergy frame := by
  rw [← frameEnergy_eq]
  exact sum_nonneg fun k _ => binPower_nonneg _ _ k

theorem noiseAlpha_nonneg : 0 ≤ noiseAlpha := by
  unfold noiseAlpha
  norm_num

theorem noiseAlpha_lt_one : noiseAlpha < 1 := by
  unfold noiseAlpha
  norm_num

theorem one_lt_snrRatio : 1 < snrRatio := by
  unfold snrRatio vadSnrThresh
  apply Real.one_lt_rpow
  · norm_num
  · norm_num

theorem snrRatio_lt_two : snrRatio < 2 := by
  have hpow : snrRatio ^ 10 = 1000 := by
    unfold snrRatio vadSnrThresh
    rw [← Real.rpow_natCast, ← Real.rpow_mul (by norm_num)]
    norm_num
  by_contra hge
  have hle := pow_le_pow_left₀ zero_le_two (not_lt.mp hge) 10
  rw [hpow] at hle
  norm_num at hle

theorem snrDb_lt_iff {ratio : ℝ} (hratio : 0 < ratio) :
    10 * Real.logb 10 ratio < vadSnrThresh ↔ ratio < snrRatio := by
  have hpow : ratio < snrRatio ↔ Real.logb 10 ratio < vadSnrThresh / 10 := by
    rw [Real.logb_lt_iff_lt_rpow (by norm_num) hratio]
    unfold snrRatio
    norm_num
  rw [hpow, lt_div_iff₀ (by norm_num), mul_comm]

theorem sum_smoothed_binPower (frame : Buffer frameSize ℝ) (m : ℕ) :
    ∑ k ∈ range halfFft, smoothed noiseAlpha 1e-6 (binPower hann frame k) m =
      learnedEnergy frame m := by
  rw [sum_smoothed, sum_const, card_range, nsmul_eq_mul]
  change smoothed _ _ (frameEnergy hann frame) m = _
  rw [frameEnergy_eq]
  rfl

theorem learnedEnergy_nonneg (frame : Buffer frameSize ℝ) (m : ℕ) : 0 ≤ learnedEnergy frame m := by
  have hpow := pow_le_one₀ (n := m) noiseAlpha_nonneg noiseAlpha_lt_one.le
  unfold learnedEnergy smoothed
  apply add_nonneg
  · exact mul_nonneg (pow_nonneg noiseAlpha_nonneg m) (by positivity)
  · exact mul_nonneg (sub_nonneg.mpr hpow) (windowedEnergy_nonneg frame)

theorem lock_denominator_pos : 0 < 1 - snrRatio * (1 - noiseAlpha ^ initFrames) := by
  have hratio := snrRatio_lt_two
  unfold noiseAlpha initFrames
  norm_num
  linarith

theorem learns_initFrames_iff (frame : Buffer frameSize ℝ) :
    Learns frame initFrames ↔ Quiet frame := by
  unfold Learns Quiet lockEnergy learnedEnergy smoothed
  rw [lt_div_iff₀ lock_denominator_pos]
  constructor
  · intro h
    linarith
  · intro h
    linarith

theorem Learns.later {frame : Buffer frameSize ℝ} {m : ℕ} (h : Learns frame m) {j : ℕ}
    (hmj : m ≤ j) : Learns frame j := by
  have hratio := one_lt_snrRatio
  unfold Learns at h ⊢
  rcases le_total ((halfFft : ℝ) * 1e-6) (windowedEnergy frame) with hlow | hhigh
  · have hmono : learnedEnergy frame m ≤ learnedEnergy frame j :=
      monotone_smoothed noiseAlpha_nonneg noiseAlpha_lt_one.le hlow hmj
    have hscaled := mul_le_mul_of_nonneg_left hmono (zero_lt_one.trans hratio).le
    linarith
  · have hle : windowedEnergy frame ≤ learnedEnergy frame j := le_smoothed noiseAlpha_nonneg hhigh j
    have hpos : 0 < learnedEnergy frame j + 1e-12 := by
      have hnonneg := learnedEnergy_nonneg frame j
      linarith
    have hscaled := mul_lt_mul_of_pos_right hratio hpos
    linarith

/-! ## What a call does -/

/-- The state after `count` calls of which `m` have updated the estimate. -/
structure Fed (frame : Buffer frameSize ℝ) (count m : ℕ) (t : NoiseSuppressor) : Prop where
  hannWin : t.hannWin = hann
  initCount : t.initCount = min count initFrames
  noisePsd : ∀ k : Fin halfFft, t.noisePsd k = smoothed noiseAlpha 1e-6 (binPower hann frame k) m

namespace Fed

variable {frame : Buffer frameSize ℝ} {count m : ℕ} {t : NoiseSuppressor}

theorem new (frame : Buffer frameSize ℝ) : Fed frame 0 0 .new where
  hannWin := rfl
  initCount := rfl
  noisePsd := fun _ => (smoothed_zero _ _ _).symm

theorem noiseEnergy (h : Fed frame count m t) :
    t.noiseEnergy = some (learnedEnergy frame m) := by
  have hterm : ∀ k ∈ range halfFft, t.noisePsd.getD 0 k =
      smoothed noiseAlpha 1e-6 (binPower hann frame k) m := by
    intro k hk
    rw [Buffer.getD_of_lt _ _ (mem_range.mp hk)]
    exact h.noisePsd _
  rw [NoiseSuppressor.noiseEnergy_eq_some, sum_congr rfl hterm, sum_smoothed_binPower]

theorem detectNoise_of_lt (h : Fed frame count m t) (hcount : count < initFrames) :
    t.detectNoise (frameEnergy t.hannWin frame) =
      some (true, { t with initCount := count + 1 }) := by
  have hinit : t.initCount = count := by
    rw [h.initCount]
    omega
  unfold NoiseSuppressor.detectNoise
  rw [hinit, if_pos hcount]

theorem detectNoise_of_le (h : Fed frame count m t) (hcount : initFrames ≤ count) {isNoise : Bool}
    (hnoise : isNoise = true ↔ Learns frame m) :
    t.detectNoise (frameEnergy t.hannWin frame) = some (isNoise, t) := by
  have hinit : ¬ t.initCount < initFrames := by
    rw [h.initCount]
    omega
  have henergy := windowedEnergy_nonneg frame
  have hlearned := learnedEnergy_nonneg frame m
  have hratio : 0 < (windowedEnergy frame + 1e-12) / (learnedEnergy frame m + 1e-12) := by
    positivity
  have hiff : 10 * Real.logb 10 ((windowedEnergy frame + 1e-12) /
      (learnedEnergy frame m + 1e-12)) < vadSnrThresh ↔ Learns frame m := by
    rw [snrDb_lt_iff hratio, div_lt_iff₀ (by positivity)]
    rfl
  unfold NoiseSuppressor.detectNoise
  rw [if_neg hinit, h.noiseEnergy, h.hannWin, frameEnergy_eq, Option.bind_eq_bind,
    Option.bind_some]
  dsimp only
  rw [decide_eq_decide.mpr (hiff.trans hnoise.symm), Bool.decide_coe]
  rfl

theorem classify {s : NoiseSuppressor} {isNoise : Bool}
    (hdetect : t.detectNoise (frameEnergy t.hannWin frame) = some (isNoise, s)) :
    t.classify frame = some isNoise := by
  unfold NoiseSuppressor.classify
  rw [NoiseSuppressor.analyse_eq_some, Option.bind_eq_bind, Option.bind_some]
  dsimp only
  rw [hdetect]
  rfl

theorem learn (h : Fed frame count m t) (hlearns : initFrames ≤ count → Learns frame m) :
    t.classify frame = some true ∧
      ∃ out t', t.process frame = some (out, t') ∧ Fed frame (count + 1) (m + 1) t' := by
  have hdetect : ∃ s, t.detectNoise (frameEnergy t.hannWin frame) = some (true, s) ∧
      s.initCount = min (count + 1) initFrames := by
    rcases Nat.lt_or_ge count initFrames with hcount | hcount
    · exact ⟨_, h.detectNoise_of_lt hcount, by dsimp only; omega⟩
    · refine ⟨t, h.detectNoise_of_le hcount ?_, ?_⟩
      · exact iff_of_true rfl (hlearns hcount)
      · rw [h.initCount]
        omega
  obtain ⟨s, hdetect, hinit⟩ := hdetect
  obtain ⟨out, t', hprocess, hwindow, hcount, hpsd⟩ :=
    NoiseSuppressor.process_of_detectNoise frameSize_le_fftSize hdetect
  refine ⟨classify hdetect, out, t', hprocess, hwindow.trans h.hannWin, hcount.trans hinit, ?_⟩
  intro k
  rw [hpsd, if_pos rfl, smoothed_succ, ← h.noisePsd k]
  unfold NoiseSuppressor.blended framePower
  rw [h.hannWin]

theorem freeze (h : Fed frame count m t) (hcount : initFrames ≤ count)
    (hlearns : ¬ Learns frame m) :
    t.classify frame = some false ∧
      ∃ out t', t.process frame = some (out, t') ∧ Fed frame (count + 1) m t' := by
  have hdetect : t.detectNoise (frameEnergy t.hannWin frame) = some (false, t) :=
    h.detectNoise_of_le hcount (iff_of_false Bool.false_ne_true hlearns)
  obtain ⟨out, t', hprocess, hwindow, hinit, hpsd⟩ :=
    NoiseSuppressor.process_of_detectNoise frameSize_le_fftSize hdetect
  refine ⟨classify hdetect, out, t', hprocess, hwindow.trans h.hannWin, ?_, ?_⟩
  · rw [hinit, h.initCount]
    omega
  · intro k
    rw [hpsd, if_neg Bool.false_ne_true, h.noisePsd k]

end Fed

/-! ## Runs of one frame -/

open NoiseSuppressor (LockedOn Converges)

variable {frame : Buffer frameSize ℝ}

theorem feed_of_learning {count : ℕ} (hquiet : initFrames < count → Quiet frame) :
    ∃ t, NoiseSuppressor.new.feed frame count = some t ∧ Fed frame count count t := by
  induction count with
  | zero => exact ⟨_, rfl, Fed.new frame⟩
  | succ count ih =>
      obtain ⟨t, hfeed, ht⟩ := ih fun hcount => hquiet (by omega)
      have hlearns : initFrames ≤ count → Learns frame count := by
        intro hcount
        exact ((learns_initFrames_iff frame).mpr (hquiet (by omega))).later hcount
      obtain ⟨-, out, t', hprocess, ht'⟩ := ht.learn hlearns
      refine ⟨t', ?_, ht'⟩
      rw [NoiseSuppressor.feed, hfeed, Option.bind_eq_bind, Option.bind_some, hprocess]
      rfl

theorem feed_of_frozen (hquiet : ¬ Quiet frame) (count : ℕ) :
    ∃ t, NoiseSuppressor.new.feed frame (initFrames + count) = some t ∧
      Fed frame (initFrames + count) initFrames t := by
  have hlearns : ¬ Learns frame initFrames := mt (learns_initFrames_iff frame).mp hquiet
  induction count with
  | zero => exact feed_of_learning fun hlt => absurd hlt (lt_irrefl _)
  | succ count ih =>
      obtain ⟨t, hfeed, ht⟩ := ih
      obtain ⟨-, out, t', hprocess, ht'⟩ := ht.freeze (by omega) hlearns
      refine ⟨t', ?_, ht'⟩
      rw [← Nat.add_assoc, NoiseSuppressor.feed, hfeed, Option.bind_eq_bind, Option.bind_some,
        hprocess]
      rfl

theorem lockedOn_iff (frame : Buffer frameSize ℝ) (count : ℕ) :
    LockedOn .new frame count ↔ count ≤ initFrames ∨ Quiet frame := by
  constructor
  · rintro ⟨hnoise, -⟩
    by_contra hneither
    obtain ⟨hcount, hquiet⟩ := not_or.mp hneither
    obtain ⟨t, hfeed, hclassify⟩ := hnoise initFrames (not_le.mp hcount)
    obtain ⟨u, hfeed', hu⟩ := feed_of_frozen hquiet 0
    obtain rfl : t = u := Option.some.inj (hfeed.symm.trans hfeed')
    have hspeech := (hu.freeze le_rfl (mt (learns_initFrames_iff frame).mp hquiet)).1
    rw [hclassify] at hspeech
    exact Bool.noConfusion (Option.some.inj hspeech)
  · intro heither
    have hquiet : ∀ m ≤ count, initFrames < m → Quiet frame := by
      intro m hm hlt
      exact heither.resolve_left (by omega)
    refine ⟨fun m hm => ?_, ?_⟩
    · obtain ⟨t, hfeed, ht⟩ := feed_of_learning (hquiet m hm.le)
      refine ⟨t, hfeed, (ht.learn fun hle => ?_).1⟩
      exact ((learns_initFrames_iff frame).mpr (hquiet (m + 1) hm (by omega))).later hle
    · obtain ⟨t, hfeed, ht⟩ := feed_of_learning (hquiet count le_rfl)
      exact ⟨t, _, _, _, hfeed, NoiseSuppressor.analyse_eq_some _ frame, ht.noisePsd⟩

theorem converges_iff (frame : Buffer frameSize ℝ) : Converges .new frame ↔ Quiet frame := by
  constructor
  · rintro ⟨fed, X, energy, power, hfeed, hanalyse, hlimit⟩
    by_contra hquiet
    rw [NoiseSuppressor.analyse_eq_some] at hanalyse
    obtain ⟨-, hpair⟩ := Prod.mk.inj (Option.some.inj hanalyse)
    obtain ⟨-, rfl⟩ := Prod.mk.inj hpair
    have hfrozen : ∀ (k : Fin halfFft) count, (fed (count + initFrames)).noisePsd k =
        smoothed noiseAlpha 1e-6 (binPower hann frame k) initFrames := by
      intro k count
      obtain ⟨t, hfeed', ht⟩ := feed_of_frozen hquiet count
      rw [Nat.add_comm, hfeed] at hfeed'
      rw [Option.some.inj hfeed', ht.noisePsd]
    have hbins : ∀ k ∈ range halfFft,
        smoothed noiseAlpha 1e-6 (binPower hann frame k) initFrames = binPower hann frame k := by
      intro k hk
      have hshift := (Filter.tendsto_add_atTop_iff_nat initFrames).mpr
        (hlimit ⟨k, mem_range.mp hk⟩)
      rw [funext (hfrozen ⟨k, mem_range.mp hk⟩)] at hshift
      exact tendsto_nhds_unique tendsto_const_nhds hshift
    have henergy : learnedEnergy frame initFrames = windowedEnergy frame := by
      rw [← sum_smoothed_binPower, sum_congr rfl hbins, ← frameEnergy_eq]
      rfl
    apply mt (learns_initFrames_iff frame).mp hquiet
    have hnonneg := windowedEnergy_nonneg frame
    unfold Learns
    rw [henergy]
    exact lt_mul_of_one_lt_left (by positivity) one_lt_snrRatio
  · intro hquiet
    have hlearning : ∀ count, ∃ t, NoiseSuppressor.new.feed frame count = some t ∧
        Fed frame count count t := fun count => feed_of_learning fun _ => hquiet
    choose fed hfeed hfed using hlearning
    refine ⟨fed, _, _, _, hfeed, NoiseSuppressor.analyse_eq_some _ frame, fun k => ?_⟩
    rw [funext fun count => (hfed count).noisePsd k]
    exact tendsto_smoothed noiseAlpha_nonneg noiseAlpha_lt_one _ _

/-- From the construction or a reset on, a frame is learned for as long as it repeats
exactly if it is below `lockEnergy`; a louder one is learned for five calls. -/
theorem locks_on_iff (calls : List Call) (frame : Buffer frameSize ℝ) :
    ∃ r, Recorded.run calls = some r ∧
      ∀ s, s = NoiseSuppressor.new ∨ s = r.suppressor.reset →
        (∀ count, s.LockedOn frame count ↔ count ≤ initFrames ∨ Quiet frame) ∧
        (s.Converges frame ↔ Quiet frame) := by
  obtain ⟨r, hrun, hr⟩ :=
    foldlM_invariant (fun _ call hr => Recorded.Sound.step hr call) Recorded.Sound.new calls
  refine ⟨r, hrun, fun s hs => ?_⟩
  have hreset : r.suppressor.reset = .new := by
    unfold NoiseSuppressor.reset
    rw [hr.hannWin]
    rfl
  rw [hreset, or_self] at hs
  subst hs
  exact ⟨lockedOn_iff frame, converges_iff frame⟩

def click : Buffer frameSize ℝ := fun i => if i.val = 80 then 1 else 0

theorem half_le_hann_middle : (0.5 : ℝ) ≤ hann 80 := by
  have hcos : Real.cos (2.0 * Real.pi * 80 / (160 - 1)) ≤ 0 := by
    have hpi := Real.pi_pos
    apply Real.cos_nonpos_of_pi_div_two_le_of_le
    · linarith
    · linarith
  unfold hann
  norm_num at hcos ⊢
  linarith

theorem not_quiet_click : ¬ Quiet click := by
  have hweighted : weighted hann click 80 = hann 80 := by
    unfold weighted click
    rw [Buffer.getD_of_lt _ _ (by unfold frameSize; omega), Buffer.getD_of_lt _ _ (by omega)]
    norm_num
    rfl
  have hsquare : (0.25 : ℝ) ≤ ∑ i ∈ range frameSize, weighted hann click i ^ 2 := by
    have hterm := single_le_sum (f := fun i => weighted hann click i ^ 2)
      (fun i _ => sq_nonneg _) (mem_range.mpr (show 80 < frameSize by unfold frameSize; omega))
    have hhalf := pow_le_pow_left₀ (by norm_num) half_le_hann_middle 2
    rw [hweighted] at hterm
    norm_num at hhalf ⊢
    linarith
  have hloud : 64 ≤ windowedEnergy click := by
    unfold windowedEnergy
    rw [fftSize_eq]
    push_cast
    have hsum := sq_nonneg (∑ i ∈ range frameSize, weighted hann click i)
    have halternating := sq_nonneg (∑ i ∈ range frameSize, (-1) ^ i * weighted hann click i)
    linarith
  have hlow : lockEnergy < 64 := by
    have hratio := snrRatio_lt_two
    unfold lockEnergy
    rw [div_lt_iff₀ lock_denominator_pos, halfFft_eq]
    unfold noiseAlpha initFrames
    norm_num
    linarith
  exact not_lt.mpr (hlow.le.trans hloud)

/-- The sixth of six equal clicks is taken for speech. -/
theorem not_locked_on_click : ¬ NoiseSuppressor.new.LockedOn click 6 := by
  rw [lockedOn_iff]
  rintro (hcount | hquiet)
  · unfold initFrames at hcount
    omega
  · exact not_quiet_click hquiet

end

end Roomsync.Pipeline.Noise
