import Roomsync.Pipeline.Burst
/-!
# How far the loss counter goes

The counter is an `int` that goes up by ten with every lost frame and knows no cap, while
the fade looks at its ratio to a hundred alone.  The sum leaves the type after 214748364
lost frames in a row.
-/

namespace Roomsync.Orchestrator

open Roomsync.Lib
open Pipeline.Noise (frameSize)
open Pipeline.Plc (energy energy_nonneg energy_map_mul plcAiMaxMs frameSizeMs)

noncomputable section

def fade (lossMs : ℤ) : ℝ := max 0 (1 - (lossMs : ℝ) / plcAiMaxMs)

theorem fade_nonneg (lossMs : ℤ) : 0 ≤ fade lossMs := le_max_left _ _

theorem fade_le_one {lossMs : ℤ} (h : 0 ≤ lossMs) : fade lossMs ≤ 1 := by
  have hshare : 0 ≤ (lossMs : ℝ) / plcAiMaxMs :=
    div_nonneg (Int.cast_nonneg h) (Nat.cast_nonneg plcAiMaxMs)
  apply max_le zero_le_one
  linarith

/-- If the call is for a lost frame, the counter is raised without overflow, and what is
concealed is no louder than it would be without the fade. -/
def CountsLoss (p : Pipeline) (call : Call) : Prop :=
  call.lost = true →
    p.plcLossMs + frameSizeMs < 2 ^ 31 ∧ 0 ≤ p.nextLossMs ∧
    0 ≤ fade p.nextLossMs ∧ fade p.nextLossMs ≤ 1 ∧
    ∀ base out, p.plc.conceal 0 = some base → p.plc.conceal p.nextLossMs = some out →
      energy out ≤ energy base

theorem energy_conceal_le {p : Pipeline} (hp : p.Sound) {lossMs : ℤ} (hloss : 0 ≤ lossMs)
    {base out : List ℝ} (hbase : p.plc.conceal 0 = some base)
    (hout : p.plc.conceal lossMs = some out) : energy out ≤ energy base := by
  obtain ⟨b, hb, -, hconceal⟩ := Pipeline.Plc.PlcProcessor.conceal_eq_map hp.whole
  have hsame : b = base := Option.some.inj (hb.symm.trans hbase)
  have hfaded : b.map (fun x => x * fade lossMs) = out :=
    Option.some.inj ((hconceal lossMs).symm.trans hout)
  have hsquare : fade lossMs ^ 2 ≤ 1 := pow_le_one₀ (fade_nonneg _) (fade_le_one hloss)
  rw [← hfaded, ← hsame, energy_map_mul]
  exact mul_le_of_le_one_left (energy_nonneg b) hsquare

theorem countsLoss_iff {p : Pipeline} (hp : p.Sound) {j : ℕ} (hloss : p.plcLossMs = (10 * j : ℕ))
    {call : Call} (hcall : call.lost = true) :
    CountsLoss p call ↔ 10 * (j + 1) < 2 ^ 31 := by
  have hsum : p.plcLossMs + frameSizeMs = ((10 * (j + 1) : ℕ) : ℤ) := by
    rw [hloss]
    unfold frameSizeMs
    push_cast
    ring
  constructor
  · intro hcounts
    have hroom := (hcounts hcall).1
    rw [hsum] at hroom
    exact_mod_cast hroom
  · intro hroom _
    have hnext := nextLossMs_of_count hloss hroom
    have hnonneg : 0 ≤ p.nextLossMs := by
      rw [hnext]
      exact Int.natCast_nonneg _
    refine ⟨?_, hnonneg, fade_nonneg _, fade_le_one hnonneg, ?_⟩
    · rw [hsum]
      exact_mod_cast hroom
    · intro base out hbase hout
      exact energy_conceal_le hp hnonneg hbase hout

theorem alongM_countsLoss_iff {p : Pipeline} (hp : p.Sound) {j : ℕ}
    (hloss : p.plcLossMs = (10 * j : ℕ)) (hj : 10 * j < 2 ^ 31) {calls : List Call}
    (hcalls : ∀ call ∈ calls, call.lost = true ∨ call.reference = true) :
    AlongM step CountsLoss p calls ↔ 10 * (j + lostCount calls) < 2 ^ 31 := by
  induction calls generalizing p j with
  | nil => exact iff_of_true trivial hj
  | cons call calls ih =>
      have hrest : ∀ call ∈ calls, call.lost = true ∨ call.reference = true :=
        fun c hc => hcalls c (List.mem_cons_of_mem _ hc)
      rcases Call.burst_cases (hcalls call List.mem_cons_self) with
        ⟨frame, rfl⟩ | ⟨frame, ms, rfl⟩
      · obtain ⟨t, ht⟩ := hp.aec
        rw [alongM_cons_iff (step_pushReference ht frame), ih (hp.heard frame) hloss hj hrest]
        exact and_iff_right fun hlost => absurd hlost Bool.false_ne_true
      · obtain ⟨b, -, -, hconceal⟩ := Pipeline.Plc.PlcProcessor.conceal_eq_map hp.whole
        have hlost := Pipeline.processLost_eq_some (hconceal p.nextLossMs)
        rw [alongM_cons_iff (step_processLost hlost frame ms), countsLoss_iff hp hloss rfl,
          lostCount_cons_lost]
        by_cases hroom : 10 * (j + 1) < 2 ^ 31
        · have hnext := nextLossMs_of_count hloss hroom
          rw [ih (hp.lossCounted.reported ms) hnext hroom hrest, and_iff_right hroom]
          have hsum : j + 1 + lostCount calls = j + (lostCount calls + 1) := by omega
          rw [hsum]
        · exact iff_of_false (fun h => hroom h.1) (by omega)

/-- Out of a state in which no loss is being counted, the counter counts a burst of lost
frames exactly as far as ten times their number fits an `int`. -/
theorem loss_counted_iff (cfg : PipelineConfig) (before burst : List Call)
    (hbefore : Settled before)
    (hburst : ∀ call ∈ burst, call.lost = true ∨ call.reference = true) :
    ∃ answers p answers' p', run cfg before = some (answers, p) ∧
      runM step p burst = some (answers', p') ∧
      (AlongM step CountsLoss p burst ↔ 10 * lostCount burst < 2 ^ 31) := by
  obtain ⟨answers, p, hrun, hp, hloss⟩ := run_settled cfg hbefore
  obtain ⟨answers', p', hburstRun, -, -⟩ :=
    runM_invariant (fun _ call (_ : call ∈ burst) hp => Pipeline.Sound.step hp call) hp
  have hcounts := alongM_countsLoss_iff hp (j := 0) hloss (by norm_num) hburst
  rw [Nat.zero_add] at hcounts
  exact ⟨answers, p, answers', p', hrun, hburstRun, hcounts⟩

theorem loss_counted_iff_outage :
    ∃ answers p answers' p', run {} ramp = some (answers, p) ∧
      runM step p outage = some (answers', p') ∧
      (AlongM step CountsLoss p outage ↔ 10 * lostCount outage < 2 ^ 31) :=
  loss_counted_iff {} ramp outage settled_ramp outage_burst

/-- Twenty-five days of loss. -/
theorem loss_counter_overflows :
    ¬ AlongM step CountsLoss (Pipeline.new.init {}).2
      (List.replicate 214748365 (.processLost none 0)) := by
  have hburst : ∀ call ∈ List.replicate 214748365 (Call.processLost none 0),
      call.lost = true ∨ call.reference = true := by
    intro call hcall
    rw [List.eq_of_mem_replicate hcall]
    exact Or.inl rfl
  have hcount : lostCount (List.replicate 214748365 (.processLost none 0)) = 214748365 := by
    unfold lostCount
    rw [List.filter_replicate_of_pos rfl, List.length_replicate]
  rw [alongM_countsLoss_iff (Pipeline.Sound.init {}) (j := 0) rfl (by norm_num) hburst, hcount]
  norm_num

end

end Roomsync.Orchestrator
