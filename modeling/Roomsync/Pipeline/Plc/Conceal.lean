import Roomsync.Pipeline.Plc.Levinson
import Roomsync.Lib.Recurrence
import Mathlib.Tactic.Ring
/-!
# What concealment computes

It predicts from the last 320 samples of the history.  Every read and write is in range as
soon as there are as many samples as the predictor looks back, and silence is predicted
from silence.
-/

namespace Roomsync.Pipeline.Plc

open Roomsync.Lib
open Finset
open Noise (frameSize)

noncomputable section

/-! ## The context -/

namespace PlcProcessor

theorem flattenFrame_eq (samples flat : List ℝ) :
    flattenFrame samples flat = flat ++ samples.take (lpcHistory - flat.length) := by
  induction samples generalizing flat with
  | nil => rw [flattenFrame, List.take_nil, List.append_nil]
  | cons sample samples ih =>
      rw [flattenFrame]
      by_cases hroom : flat.length < lpcHistory
      · have hleft : lpcHistory - flat.length =
            lpcHistory - (flat ++ [sample]).length + 1 := by
          rw [List.length_append, List.length_singleton]
          omega
        rw [if_pos hroom, ih, hleft, List.take_succ_cons, List.append_assoc,
          List.singleton_append]
      · rw [if_neg hroom, Nat.sub_eq_zero_of_le (by omega), List.take_zero, List.append_nil]

theorem flattenFrames_eq (frames : List (List ℝ)) (flat : List ℝ) :
    flattenFrames frames flat =
      flat ++ (frames.flatMap List.reverse).take (lpcHistory - flat.length) := by
  induction frames generalizing flat with
  | nil => rw [flattenFrames, List.flatMap_nil, List.take_nil, List.append_nil]
  | cons frame frames ih =>
      rw [flattenFrames]
      by_cases hroom : flat.length < lpcHistory
      · have hleft : lpcHistory - (flat ++ frame.reverse.take (lpcHistory - flat.length)).length =
            lpcHistory - flat.length - frame.reverse.length := by
          rw [List.length_append, List.length_take]
          omega
        rw [if_pos hroom, ih, flattenFrame_eq, hleft, List.flatMap_cons, List.take_append,
          List.append_assoc]
      · rw [if_neg hroom, Nat.sub_eq_zero_of_le (by omega), List.take_zero, List.append_nil]

theorem flat_eq (s : PlcProcessor) :
    s.flat = s.history.flatten.drop (s.history.flatten.length - lpcHistory) := by
  have hreverse : s.history.reverse.flatMap List.reverse = s.history.flatten.reverse := by
    rw [List.flatMap_def, List.map_reverse, List.reverse_flatten]
  unfold flat
  rw [flattenFrames_eq, hreverse, List.nil_append, List.length_nil, Nat.sub_zero,
    List.take_reverse, List.reverse_reverse]

theorem length_flat (s : PlcProcessor) :
    s.flat.length = min lpcHistory s.history.flatten.length := by
  rw [flat_eq, List.length_drop]
  omega

theorem mem_flat {s : PlcProcessor} {sample : ℝ} (h : sample ∈ s.flat) :
    ∃ frame ∈ s.history, sample ∈ frame := by
  rw [flat_eq] at h
  exact List.mem_flatten.mp (List.mem_of_mem_drop h)

end PlcProcessor

/-! ## The predicted samples -/

variable {m nSamples : ℕ}

theorem predictLoop_eq_some (a : Buffer lpcOrder ℝ) (buf : Buffer m ℝ) {n : ℕ}
    (hm : lpcOrder + n ≤ m) :
    forLoop (· + 1) lpcOrder (predictPass a buf n) 0 0 =
      some (-∑ k ∈ range lpcOrder, a.getD 0 k * buf.getD 0 (lpcOrder + n - 1 - k)) := by
  have hpass : ∀ k s, k < lpcOrder → predictPass a buf n k s =
      some (s + -(a.getD 0 k * buf.getD 0 (lpcOrder + n - 1 - k))) := by
    intro k s hk
    unfold predictPass
    rw [(a.holds_getD 0).read hk, (buf.holds_getD 0).read (by omega), ← sub_eq_add_neg]
    rfl
  rw [forLoop_sum hpass, zero_add, sum_neg_distrib]

/-- Before sample `n`: `buf` continues the seed by `n` predicted samples, which `out` holds. -/
structure Synthesised (a : Buffer lpcOrder ℝ) (seed : ℕ → ℝ) (n : ℕ)
    (acc : Buffer (lpcOrder + nSamples) ℝ × Buffer nSamples ℝ) : Prop where
  predicts : Predicts (a.getD 0) lpcOrder n (acc.1.getD 0)
  seed : ∀ i < lpcOrder, acc.1.getD 0 i = seed i
  out : ∀ i < n, acc.2.getD 0 i = acc.1.getD 0 (lpcOrder + i)

theorem synthesisePass_spec {a : Buffer lpcOrder ℝ} {seed : ℕ → ℝ} {n : ℕ} (hn : n < nSamples)
    {acc : Buffer (lpcOrder + nSamples) ℝ × Buffer nSamples ℝ} (h : Synthesised a seed n acc) :
    ∃ acc', synthesisePass a n acc = some acc' ∧ Synthesised a seed (n + 1) acc' := by
  generalize hs : -∑ k ∈ range lpcOrder,
    a.getD 0 k * acc.1.getD 0 (lpcOrder + n - 1 - k) = s
  obtain ⟨buf, hbuf, hbuf'⟩ := acc.1.write_eq_some 0 (i := lpcOrder + n) (by omega) s
  obtain ⟨out, hout, hout'⟩ := acc.2.write_eq_some 0 hn s
  refine ⟨(buf, out), ?_, ?_, ?_, ?_⟩
  · unfold synthesisePass
    rw [predictLoop_eq_some a acc.1 (by omega), Option.bind_eq_bind, Option.bind_some, hs, hbuf,
      Option.bind_eq_bind, Option.bind_some, hout]
    rfl
  · dsimp only
    rw [hbuf']
    exact h.predicts.update hs.symm
  · intro i hi
    dsimp only
    rw [hbuf', Function.update_of_ne (by omega)]
    exact h.seed i hi
  · intro i hi
    dsimp only
    rw [hbuf', hout']
    rcases Nat.lt_succ_iff_lt_or_eq.mp hi with hlt | rfl
    · rw [Function.update_of_ne (by omega), Function.update_of_ne (by omega)]
      exact h.out i hlt
    · rw [Function.update_self, Function.update_self]

theorem lpcSynthesise_spec {hist : List ℝ} (hlength : lpcOrder ≤ hist.length)
    (a : Buffer lpcOrder ℝ) (nSamples : ℕ) :
    ∃ out x, lpcSynthesise hist a nSamples = some out ∧
      Predicts (a.getD 0) lpcOrder nSamples x ∧
      (∀ i < lpcOrder, x i = hist.getD (hist.length - lpcOrder + i) 0) ∧
      ∀ n : Fin nSamples, out n = x (lpcOrder + n) := by
  let last := hist.drop (hist.length - lpcOrder)
  let buf : Buffer (lpcOrder + nSamples) ℝ := fun i => last.getD i 0
  have hstart : Synthesised a (fun i => hist.getD (hist.length - lpcOrder + i) 0) 0
      (buf, (fun _ => 0 : Buffer nSamples ℝ)) := by
    refine ⟨fun n hn => absurd hn (Nat.not_lt_zero n), ?_, fun i hi => absurd hi
      (Nat.not_lt_zero i)⟩
    intro i hi
    rw [Buffer.getD_of_lt _ _ (by omega)]
    show (hist.drop (hist.length - lpcOrder)).getD i 0 = _
    rw [List.getD_eq_getElem?_getD, List.getElem?_drop, ← List.getD_eq_getElem?_getD]
  obtain ⟨⟨buf', out⟩, hloop, hpredicts, hseed, hout⟩ :=
    forLoop_succ_invariant (fun n acc hn h => synthesisePass_spec hn h)
      (Nat.zero_le nSamples) hstart
  refine ⟨out, buf'.getD 0, ?_, hpredicts, hseed, ?_⟩
  · unfold lpcSynthesise
    rw [if_neg (by omega)]
    dsimp only
    rw [hloop]
    rfl
  · intro n
    rw [← Buffer.getD_of_lt out 0 n.isLt]
    exact hout n n.isLt

/-! ## The autocorrelation -/

def correlation (flat : List ℝ) (lag : ℕ) : ℝ :=
  (∑ n ∈ range (flat.length - lag), flat.getD n 0 * flat.getD (n + lag) 0) / flat.length

def correlations (flat : List ℝ) : Buffer (lpcOrder + 1) ℝ := fun lag => correlation flat lag

namespace PlcProcessor

theorem lagPass_spec (flat : List ℝ) {lag : ℕ} (hlag : lag < lpcOrder + 1)
    (R : Buffer (lpcOrder + 1) ℝ) :
    ∃ R', lagPass flat lag R = some R' ∧ R'.getD 0 = Function.update (R.getD 0) lag
      (R.getD 0 lag +
        ∑ n ∈ range (flat.length - lag), flat.getD n 0 * flat.getD (n + lag) 0) := by
  let I (n : ℕ) (S : Buffer (lpcOrder + 1) ℝ) : Prop :=
    S.getD 0 = Function.update (R.getD 0) lag
      (R.getD 0 lag + ∑ j ∈ range n, flat.getD j 0 * flat.getD (j + lag) 0)
  have hpass : ∀ n S, n < flat.length - lag → I n S →
      ∃ S', correlatePass flat lag n S = some S' ∧ I (n + 1) S' := by
    intro n S hn hS
    have hx : flat[n]? = some (flat.getD n 0) := by
      rw [List.getD_eq_getElem _ _ (by omega)]
      exact List.getElem?_eq_getElem (by omega)
    have hy : flat[n + lag]? = some (flat.getD (n + lag) 0) := by
      rw [List.getD_eq_getElem _ _ (by omega)]
      exact List.getElem?_eq_getElem (by omega)
    obtain ⟨S', hwrite, hS'⟩ :=
      S.write_eq_some 0 hlag (S.getD 0 lag + flat.getD n 0 * flat.getD (n + lag) 0)
    refine ⟨S', ?_, ?_⟩
    · unfold correlatePass
      rw [hx, hy, (S.holds_getD 0).read hlag]
      exact hwrite
    · show S'.getD 0 = _
      rw [hS', hS, Function.update_self, Function.update_idem, sum_range_succ, add_assoc]
  have hstart : I 0 R := by
    show R.getD 0 = _
    rw [sum_range_zero, add_zero, Function.update_eq_self]
  obtain ⟨R', hloop, hR'⟩ := forLoop_succ_invariant hpass (Nat.zero_le _) hstart
  exact ⟨R', hloop, hR'⟩

theorem autocorrelation_eq_some (flat : List ℝ) :
    autocorrelation flat = some (correlations flat) := by
  let sums (lag : ℕ) : ℝ :=
    ∑ n ∈ range (flat.length - lag), flat.getD n 0 * flat.getD (n + lag) 0
  have hbody : ∀ lag R, lag < lpcOrder + 1 → R.read lag = some 0 →
      lagPass flat lag R = R.write lag (sums lag) := by
    intro lag R hlag hread
    obtain ⟨R', hloop, hR'⟩ := lagPass_spec flat hlag R
    have hzero : R.getD 0 lag = 0 := Option.some.inj (((R.holds_getD 0).read hlag).symm.trans hread)
    rw [hzero, zero_add] at hR'
    rw [hloop, Buffer.write_of_getD hlag hR']
  have hstart : Buffer.Holds (fun _ => 0 : Buffer (lpcOrder + 1) ℝ) fun _ => 0 := fun _ _ => rfl
  obtain ⟨R, hloop, hR⟩ := hstart.forLoop_write le_rfl hbody
  have hvalue : ∀ lag : Fin (lpcOrder + 1), R lag = sums lag := by
    intro lag
    rw [hR lag lag.isLt]
    exact if_pos lag.isLt
  unfold autocorrelation
  rw [hloop, Option.bind_eq_bind, Option.bind_some]
  split
  · apply congrArg some
    ext lag
    rw [hvalue]
    rfl
  · rename_i hempty
    apply congrArg some
    ext lag
    have hlength : flat.length = 0 := by omega
    show R lag = sums lag / flat.length
    rw [hvalue]
    show ∑ n ∈ range (flat.length - lag), _ = _
    rw [hlength, Nat.zero_sub, sum_range_zero, Nat.cast_zero, div_zero]

/-! ## A lost frame -/

def Whole (s : PlcProcessor) : Prop := ∀ frame ∈ s.history, frame.length = frameSize

def coefficients (s : PlcProcessor) : ℕ → ℝ :=
  (predictor ((correlations s.flat).getD 0) lpcOrder).2

theorem lpcOrder_le_length_flat {s : PlcProcessor} (h : s.Whole) (hne : s.history ≠ []) :
    lpcOrder ≤ s.flat.length := by
  obtain ⟨first, rest, hhistory⟩ := List.exists_cons_of_ne_nil hne
  have hfirst : first.length = frameSize := h first (by
    rw [hhistory]
    exact List.mem_cons_self)
  rw [length_flat, hhistory, List.flatten_cons, List.length_append, hfirst]
  unfold lpcOrder lpcHistory frameSize
  omega

theorem conceal_spec {s : PlcProcessor} (h : s.Whole) (hne : s.history ≠ []) :
    ∃ x : ℕ → ℝ, Predicts s.coefficients lpcOrder frameSize x ∧
      (∀ i < lpcOrder, x i = s.flat.getD (s.flat.length - lpcOrder + i) 0) ∧
      ∀ lossMs : ℤ, s.conceal lossMs = some (List.ofFn fun n : Fin frameSize =>
        x (lpcOrder + n) * max 0 (1 - (lossMs : ℝ) / plcAiMaxMs)) := by
  have hlength := lpcOrder_le_length_flat h hne
  obtain ⟨err, a, ha, hpredictor⟩ :=
    levinsonDurbin_spec (Nat.lt_succ_self lpcOrder) (correlations s.flat)
  have hcoeff : a.getD 0 = s.coefficients := congrArg Prod.snd hpredictor
  obtain ⟨out, x, hsynthesise, hpredicts, hseed, hout⟩ := lpcSynthesise_spec hlength a frameSize
  rw [hcoeff] at hpredicts
  refine ⟨x, hpredicts, hseed, fun lossMs => ?_⟩
  unfold conceal
  rw [List.isEmpty_eq_false_iff.mpr hne, if_neg Bool.false_ne_true, autocorrelation_eq_some,
    Option.bind_eq_bind, Option.bind_some, ha, Option.bind_eq_bind, Option.bind_some]
  dsimp only
  rw [hsynthesise]
  simp only [← hout]
  rfl

/-- A lost frame is one that the history alone determines, faded by the time of the loss;
out of silence comes silence. -/
theorem conceal_eq_some {s : PlcProcessor} (h : s.Whole) :
    ∃ base : Buffer frameSize ℝ,
      (∀ lossMs : ℤ, s.conceal lossMs =
        some (List.ofFn fun n => base n * max 0 (1 - (lossMs : ℝ) / plcAiMaxMs))) ∧
      ((∀ frame ∈ s.history, ∀ x ∈ frame, x = 0) → ∀ n, base n = 0) := by
  by_cases hne : s.history = []
  · refine ⟨fun _ => 0, fun lossMs => ?_, fun _ _ => rfl⟩
    unfold conceal
    rw [hne, List.isEmpty_nil, if_pos rfl]
    simp only [zero_mul, List.ofFn_const]
  · obtain ⟨x, hpredicts, hseed, hconceal⟩ := conceal_spec h hne
    refine ⟨fun n => x (lpcOrder + n), hconceal, fun hzero n => ?_⟩
    have hflat : ∀ i, s.flat.getD i 0 = 0 := by
      intro i
      rw [List.getD_eq_getElem?_getD]
      cases hget : s.flat[i]? with
      | none => rfl
      | some sample =>
          obtain ⟨frame, hframe, hmem⟩ := mem_flat (List.mem_of_getElem? hget)
          exact hzero frame hframe sample hmem
    apply hpredicts.zero _ n.isLt
    intro k hk _ i hi
    rw [hseed _ (by omega), hflat]

/-- What is returned for a loss that is just beginning is what later losses fade. -/
theorem conceal_eq_map {s : PlcProcessor} (h : s.Whole) :
    ∃ b, s.conceal 0 = some b ∧ b.length = frameSize ∧ ∀ lossMs : ℤ, s.conceal lossMs =
      some (b.map fun x => x * max 0 (1 - (lossMs : ℝ) / plcAiMaxMs)) := by
  obtain ⟨base, hconceal, -⟩ := conceal_eq_some h
  have hfirst : s.conceal 0 = some (List.ofFn base) := by
    rw [hconceal, Int.cast_zero, zero_div, sub_zero, max_eq_right zero_le_one]
    simp only [mul_one]
  refine ⟨List.ofFn base, hfirst, List.length_ofFn, fun lossMs => ?_⟩
  rw [hconceal, List.map_ofFn]
  rfl

theorem pushGoodFrame_eq_some (s : PlcProcessor) (frame : List ℝ) :
    s.pushGoodFrame (some frame) frame.length =
      some ⟨if (s.history ++ [frame]).length > historyFrames then (s.history ++ [frame]).drop 1
        else s.history ++ [frame]⟩ := by
  unfold pushGoodFrame
  rw [Pointer.copy_some, Option.bind_eq_bind, Option.bind_some]
  dsimp only
  split <;> rfl

theorem length_pushGoodFrame_le {s s' : PlcProcessor} {frame : List ℝ}
    (hs : s.history.length ≤ historyFrames)
    (hpush : s.pushGoodFrame (some frame) frame.length = some s') :
    s'.history.length ≤ historyFrames := by
  rw [pushGoodFrame_eq_some] at hpush
  obtain rfl := Option.some.inj hpush
  dsimp only
  split
  · rw [List.length_drop, List.length_append, List.length_singleton]
    omega
  · omega

theorem forall_mem_pushGoodFrame {P : List ℝ → Prop} {s s' : PlcProcessor} {frame : List ℝ}
    (hs : ∀ f ∈ s.history, P f) (hframe : P frame)
    (hpush : s.pushGoodFrame (some frame) frame.length = some s') :
    ∀ f ∈ s'.history, P f := by
  have hall : ∀ f ∈ s.history ++ [frame], P f := by
    intro f hf
    rcases List.mem_append.mp hf with hold | hnew
    · exact hs f hold
    · rw [List.mem_singleton.mp hnew]
      exact hframe
  rw [pushGoodFrame_eq_some] at hpush
  obtain rfl := Option.some.inj hpush
  intro f hf
  split at hf
  · exact hall f (List.mem_of_mem_drop hf)
  · exact hall f hf

end PlcProcessor

/-! ## Energy -/

def energy (frame : List ℝ) : ℝ := (frame.map fun x => x ^ 2).sum

theorem energy_ofFn {n : ℕ} (f : Fin n → ℝ) : energy (List.ofFn f) = ∑ i, f i ^ 2 := by
  unfold energy
  rw [List.map_ofFn, List.sum_ofFn]
  rfl

theorem energy_nonneg (frame : List ℝ) : 0 ≤ energy frame := by
  apply List.sum_nonneg
  intro y hy
  obtain ⟨x, -, rfl⟩ := List.mem_map.mp hy
  exact sq_nonneg x

theorem energy_map_mul (frame : List ℝ) (c : ℝ) :
    energy (frame.map fun x => x * c) = c ^ 2 * energy frame := by
  unfold energy
  rw [List.map_map, ← List.sum_map_mul_left]
  apply congrArg List.sum
  apply List.map_congr_left
  intro x _
  dsimp only [Function.comp_apply]
  ring

end

end Roomsync.Pipeline.Plc
