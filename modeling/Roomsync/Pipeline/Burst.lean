import Roomsync.Pipeline.Reset
/-!
# A burst of lost frames

While frames are lost the history is frozen and the loss counter goes up by the length of a
frame, so that the same frame is returned again and again, fading out.
-/

namespace Roomsync.Orchestrator

open Roomsync.Lib
open Pipeline.Noise (frameSize)
open Pipeline.Plc (energy energy_nonneg energy_map_mul plcAiMaxMs frameSizeMs)

noncomputable section

namespace Call

def lost (call : Call) : Bool := !call.kept

def reference : Call → Bool
  | .pushReference _ => true
  | _ => false

end Call

def lostCount (calls : List Call) : ℕ := (calls.filter Call.lost).length

/-- Of the calls that process or reset, the last one was not for a lost frame. -/
def Settled (calls : List Call) : Prop :=
  ∀ call, (calls.filter fun call => !call.reference).getLast? = some call → call.kept = true

theorem lostCount_cons_lost (frame : Option (Buffer frameSize ℝ)) (ms : ℝ) (calls : List Call) :
    lostCount (.processLost frame ms :: calls) = lostCount calls + 1 := rfl

theorem Call.burst_cases {call : Call} (h : call.lost = true ∨ call.reference = true) :
    (∃ frame, call = .pushReference frame) ∨ ∃ frame ms, call = .processLost frame ms := by
  cases call with
  | pushReference frame => exact Or.inl ⟨frame, rfl⟩
  | process frame ms => simp [lost, kept, reference] at h
  | processLost frame ms => exact Or.inr ⟨frame, ms, rfl⟩
  | reset => simp [lost, kept, reference] at h

/-! ## Where a burst begins -/

theorem settled_append_reference {calls : List Call} {call : Call} (hcall : call.reference = true)
    (h : Settled (calls ++ [call])) : Settled calls := by
  intro last hlast
  apply h last
  rw [List.filter_append, List.filter_cons_of_neg (by rw [hcall]; exact Bool.false_ne_true),
    List.filter_nil, List.append_nil]
  exact hlast

theorem settled_append_lost {calls : List Call} {frame : Option (Buffer frameSize ℝ)} {ms : ℝ} :
    ¬ Settled (calls ++ [.processLost frame ms]) := by
  intro h
  have hkept := h (.processLost frame ms) (by
    rw [List.filter_append]
    exact List.getLast?_concat)
  exact Bool.false_ne_true hkept

theorem run_append {cfg : PipelineConfig} {calls : List Call} {call : Call}
    {answers : List Answer} {answer : Answer} {p p' : Pipeline}
    (hrun : run cfg calls = some (answers, p)) (hstep : step p call = some (answer, p')) :
    run cfg (calls ++ [call]) = some (answers ++ [answer], p') :=
  runM_append hrun (runM_cons hstep rfl)

theorem processReceived_plcLossMs {p p' : Pipeline} {frame : Pointer ℝ} {nSamples : ℕ}
    {out : List ℝ} (h : p.processReceived frame nSamples = some (out, p')) :
    p'.plcLossMs = 0 := by
  obtain ⟨⟨echoFree, aec⟩, -, h⟩ := Option.bind_eq_some_iff.mp h
  obtain ⟨⟨denoised, noise⟩, -, h⟩ := Option.bind_eq_some_iff.mp h
  obtain ⟨separated, -, h⟩ := Option.bind_eq_some_iff.mp h
  obtain ⟨plc, -, h⟩ := Option.bind_eq_some_iff.mp h
  obtain ⟨-, rfl⟩ := Prod.mk.inj (Option.some.inj h)
  rfl

theorem run_settled (cfg : PipelineConfig) {calls : List Call} (h : Settled calls) :
    ∃ answers p, run cfg calls = some (answers, p) ∧ p.Sound ∧ p.plcLossMs = 0 := by
  induction calls using List.reverseRecOn with
  | nil => exact ⟨[], _, rfl, Pipeline.Sound.init cfg, rfl⟩
  | append_singleton calls call ih =>
      obtain ⟨answers, p, hrun, -, hp⟩ := run_sound cfg calls
      cases call with
      | pushReference frame =>
          obtain ⟨answers, p, hrun, hp, hloss⟩ := ih (settled_append_reference rfl h)
          obtain ⟨t, ht⟩ := hp.aec
          exact ⟨_, _, run_append hrun (step_pushReference ht frame), hp.heard frame, hloss⟩
      | process frame ms =>
          obtain ⟨out, p', hreceived, -, hp'⟩ := hp.processReceived frame
          have hloss := processReceived_plcLossMs hreceived
          exact ⟨_, _, run_append hrun (step_process hreceived ms), hp'.reported ms, hloss⟩
      | processLost frame ms => exact absurd h settled_append_lost
      | reset => exact ⟨_, p.reset, run_append hrun rfl, hp.reset, rfl⟩

/-! ## The burst -/

def faded (b : List ℝ) (i : ℕ) : List ℝ := b.map fun x => x * max 0 (1 - (i : ℝ) / 10.0)

theorem fade_eq (i : ℕ) :
    max 0 (1 - (((10 * i : ℕ) : ℤ) : ℝ) / plcAiMaxMs) = max 0 (1 - (i : ℝ) / 10.0) := by
  have hshare : (((10 * i : ℕ) : ℤ) : ℝ) / plcAiMaxMs = (i : ℝ) / 10.0 := by
    unfold plcAiMaxMs
    push_cast
    norm_num
    ring
  rw [hshare]

theorem nextLossMs_of_count {p : Pipeline} {j : ℕ} (hloss : p.plcLossMs = (10 * j : ℕ))
    (hroom : 10 * (j + 1) < 2 ^ 31) : p.nextLossMs = (10 * (j + 1) : ℕ) := by
  unfold Pipeline.nextLossMs frameSizeMs
  rw [hloss, Int.bmod_eq_of_le (by omega) (by omega)]
  push_cast
  ring

/-- A burst on a history of which `b` is the concealed frame, after `j` lost frames: what the
calls for lost frames return, and what `stats` tells of the loss after them. -/
theorem burst_run {b : List ℝ} {p : Pipeline} (hp : p.Sound)
    (hconceal : ∀ lossMs : ℤ, p.plc.conceal lossMs =
      some (b.map fun x => x * max 0 (1 - (lossMs : ℝ) / plcAiMaxMs)))
    {j : ℕ} (hloss : p.plcLossMs = (10 * j : ℕ)) {calls : List Call}
    (hburst : ∀ call ∈ calls, call.lost = true ∨ call.reference = true)
    (hcount : 10 * (j + lostCount calls) < 2 ^ 31) :
    ∃ answers p', runM step p calls = some (answers, p') ∧ p'.Sound ∧ p'.plc = p.plc ∧
      (answersTo Call.lost calls answers).map (fun a => (a.out, a.stats.plcLossMs)) =
        (List.range' (j + 1) (lostCount calls)).map fun i =>
          (some (faded b i), ((10 * i : ℕ) : ℤ)) := by
  induction calls generalizing p j with
  | nil => exact ⟨[], p, rfl, hp, rfl, rfl⟩
  | cons call calls ih =>
      have hrest : ∀ call ∈ calls, call.lost = true ∨ call.reference = true :=
        fun c hc => hburst c (List.mem_cons_of_mem _ hc)
      rcases Call.burst_cases (hburst call List.mem_cons_self) with
        ⟨frame, rfl⟩ | ⟨frame, ms, rfl⟩
      · obtain ⟨t, ht⟩ := hp.aec
        obtain ⟨answers, p', hrun, hp', hplc, hanswers⟩ :=
          ih (hp.heard frame) hconceal hloss hrest hcount
        exact ⟨_, p', runM_cons (step_pushReference ht frame) hrun, hp', hplc, hanswers⟩
      · rw [lostCount_cons_lost] at hcount ⊢
        have hnext := nextLossMs_of_count hloss (by omega)
        have hout : p.plc.conceal p.nextLossMs = some (faded b (j + 1)) := by
          rw [hconceal, hnext, fade_eq]
          rfl
        have hlost := Pipeline.processLost_eq_some hout
        obtain ⟨answers, p', hrun, hp', hplc, hanswers⟩ :=
          ih (hp.lossCounted.reported ms) hconceal hnext hrest (by omega)
        refine ⟨_, p', runM_cons (step_processLost hlost frame ms) hrun, hp', hplc, ?_⟩
        rw [List.range'_succ, List.map_cons, ← hanswers, ← hnext]
        rfl

/-! ## The fade -/

/-- The frame `b`, fading out over the answers to lost frames. -/
structure FadesOut (b : List ℝ) (answers : List Answer) : Prop where
  frames : ∀ i a, answers[i]? = some a → a.out = some (faded b (i + 1))
  energies : answers.Pairwise fun a a' => energy (a'.out.getD []) ≤ energy (a.out.getD [])
  silent : ∀ i a, 9 ≤ i → answers[i]? = some a → a.out = some (List.replicate frameSize 0)
  stats : ∀ i a, answers[i]? = some a → a.stats.plcLossMs = ((10 * (i + 1) : ℕ) : ℤ)

theorem energy_faded_le (b : List ℝ) {i j : ℕ} (hij : i ≤ j) :
    energy (faded b j) ≤ energy (faded b i) := by
  have hcast : (i : ℝ) ≤ j := Nat.cast_le.mpr hij
  have hfade : max 0 (1 - (j : ℝ) / 10.0) ≤ max 0 (1 - (i : ℝ) / 10.0) := by
    apply max_le_max_left
    apply sub_le_sub_left
    exact div_le_div_of_nonneg_right hcast (by norm_num)
  unfold faded
  rw [energy_map_mul, energy_map_mul]
  exact mul_le_mul_of_nonneg_right (pow_le_pow_left₀ (le_max_left _ _) hfade 2)
    (energy_nonneg b)

theorem faded_silent {b : List ℝ} (hb : b.length = frameSize) {i : ℕ} (hi : 10 ≤ i) :
    faded b i = List.replicate frameSize 0 := by
  have hcast : (10 : ℝ) ≤ i := by exact_mod_cast hi
  have hfade : max 0 (1 - (i : ℝ) / 10.0) = 0 := by
    apply max_eq_left
    rw [sub_nonpos, le_div_iff₀ (by norm_num)]
    linarith
  unfold faded
  rw [hfade, ← hb, ← List.map_const']
  apply List.map_congr_left
  intro x _
  exact mul_zero x

theorem fadesOut_of_map {b : List ℝ} (hb : b.length = frameSize) {answers : List Answer} {m : ℕ}
    (h : answers.map (fun a => (a.out, a.stats.plcLossMs)) =
      (List.range' 1 m).map fun i => (some (faded b i), ((10 * i : ℕ) : ℤ))) :
    FadesOut b answers := by
  have hat : ∀ i a, answers[i]? = some a →
      a.out = some (faded b (i + 1)) ∧ a.stats.plcLossMs = ((10 * (i + 1) : ℕ) : ℤ) := by
    intro i a ha
    have hentry := congrArg (fun l => l[i]?) h
    rw [List.getElem?_map, List.getElem?_map, ha, Option.map_some] at hentry
    obtain ⟨k, hk, hpair⟩ := Option.map_eq_some_iff.mp hentry.symm
    obtain ⟨hlt, rfl⟩ := List.getElem?_eq_some_iff.mp hk
    rw [List.getElem_range', Nat.one_mul, Nat.add_comm] at hpair
    obtain ⟨hout, hstats⟩ := Prod.mk.inj hpair
    exact ⟨hout.symm, hstats.symm⟩
  refine ⟨fun i a ha => (hat i a ha).1, ?_, ?_, fun i a ha => (hat i a ha).2⟩
  · rw [List.pairwise_iff_getElem]
    intro i j hi hj hij
    rw [(hat i _ (List.getElem?_eq_getElem hi)).1, (hat j _ (List.getElem?_eq_getElem hj)).1]
    exact energy_faded_le b (by omega)
  · intro i a hi ha
    rw [(hat i a ha).1, faded_silent hb (by omega)]

/-- Out of a state in which no loss is being counted, any number of lost frames returns one
frame that the history determines, fading out over the first ten, and leaves the history as
it was. -/
theorem loss_burst (cfg : PipelineConfig) (before burst : List Call) (hbefore : Settled before)
    (hburst : ∀ call ∈ burst, call.lost = true ∨ call.reference = true)
    (hcount : 10 * lostCount burst < 2 ^ 31) :
    ∃ answers p b answers' p', run cfg before = some (answers, p) ∧ p.plc.conceal 0 = some b ∧
      runM step p burst = some (answers', p') ∧
      (answersTo Call.lost burst answers').length = lostCount burst ∧
      FadesOut b (answersTo Call.lost burst answers') ∧ p'.plc = p.plc ∧
      ∀ frame ms, ∃ answer p'', step p' (.process frame ms) = some (answer, p'') ∧
        answer.stats.plcLossMs = 0 := by
  obtain ⟨answers, p, hrun, hp, hloss⟩ := run_settled cfg hbefore
  obtain ⟨b, hb, hlength, hconceal⟩ := Pipeline.Plc.PlcProcessor.conceal_eq_map hp.whole
  obtain ⟨answers', p', hburstRun, hp', hplc, hmap⟩ :=
    burst_run hp hconceal (j := 0) hloss hburst (by omega)
  refine ⟨answers, p, b, answers', p', hrun, hb, hburstRun, ?_, fadesOut_of_map hlength hmap,
    hplc, ?_⟩
  · have hsize := congrArg List.length hmap
    rw [List.length_map, List.length_map, List.length_range'] at hsize
    exact hsize
  · intro frame ms
    obtain ⟨out, p'', hreceived, -, -⟩ := hp'.processReceived frame
    exact ⟨_, _, step_process hreceived ms, processReceived_plcLossMs hreceived⟩

def ramp : List Call := [.process (fun n => n.val) 1]

theorem settled_ramp : Settled ramp := by
  intro call hcall
  obtain rfl : Call.process (fun n => n.val) 1 = call := Option.some.inj hcall
  rfl

/-- A lost frame, a reference frame, eleven lost frames. -/
def outage : List Call :=
  .processLost none 0 :: .pushReference (fun _ => 0) :: List.replicate 11 (.processLost none 0)

theorem outage_burst : ∀ call ∈ outage, call.lost = true ∨ call.reference = true := by
  simp [outage, Call.lost, Call.kept, Call.reference]

theorem lostCount_outage : lostCount outage = 12 := rfl

theorem loss_burst_outage :
    ∃ answers p b answers' p', run {} ramp = some (answers, p) ∧ p.plc.conceal 0 = some b ∧
      runM step p outage = some (answers', p') ∧
      (answersTo Call.lost outage answers').length = lostCount outage ∧
      FadesOut b (answersTo Call.lost outage answers') ∧ p'.plc = p.plc ∧
      ∀ frame ms, ∃ answer p'', step p' (.process frame ms) = some (answer, p'') ∧
        answer.stats.plcLossMs = 0 := by
  apply loss_burst {} ramp outage settled_ramp outage_burst
  rw [lostCount_outage]
  norm_num

end

end Roomsync.Orchestrator
