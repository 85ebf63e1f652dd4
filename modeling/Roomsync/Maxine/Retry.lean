import Roomsync.Maxine.Handles
/-!
# How often an attempt is made

A frame makes an attempt no sooner than the interval after the one before, so that what the
attempts leave behind grows with the time that passes, and not with the frames that do.
-/

namespace Roomsync.Maxine

open Roomsync.Lib

def Call.untimed : Call → Bool
  | .init _ _ => true
  | .tryReloadGpu _ => true
  | _ => false

def Call.By (stop : ℤ) : Call → Prop
  | .process _ _ now _ => now ≤ stop
  | _ => True

/-- The interval, in nanoseconds. -/
def recheckInterval : ℤ := gpuRecheckIntervalS * 10 ^ 9

theorem recheckInterval_pos : 0 < recheckInterval := by decide

namespace MaxinePipeline

variable {Handle : Type} {nvafx : NvAFX Handle} {p q : MaxinePipeline Handle} {o : Outcomes}
  {start stop : ℤ} {n : ℕ}

theorem elapsed_ge_iff (p : MaxinePipeline Handle) (now : ℤ) :
    p.elapsed now ≥ gpuRecheckIntervalS ↔ p.lastGpuRetry + recheckInterval ≤ now := by
  unfold elapsed recheckInterval gpuRecheckIntervalS
  rcases Int.le_total 0 (now - p.lastGpuRetry) with hlater | hearlier
  · rw [Int.tdiv_eq_ediv_of_nonneg hlater]
    omega
  · have hpos : 0 ≤ (p.lastGpuRetry - now).tdiv (10 ^ 9) :=
      Int.tdiv_nonneg (by omega) (by decide)
    rw [← neg_sub p.lastGpuRetry now, Int.neg_tdiv]
    omega

theorem Attempted.length_created (h : Attempted nvafx p o q) :
    q.created.length ≤ p.created.length + 3 := by
  rw [h.created]
  simp only [List.length_append]
  split <;> split <;> split <;> simp

theorem lastGpuRetry_init (p : MaxinePipeline Handle) (sdkPath : String) (o : Outcomes) :
    (p.init nvafx sdkPath o).2.lastGpuRetry = p.lastGpuRetry := by
  obtain ⟨createAec, createDenoiser, createSuperres, loadAec, loadDenoiser, loadSuperres⟩ := o
  unfold init fallback load
  cases createAec <;> cases createDenoiser <;> cases createSuperres <;> cases loadAec <;>
    cases loadDenoiser <;> cases loadSuperres <;> rfl

theorem lastGpuRetry_recheck (nvafx : NvAFX Handle) (p : MaxinePipeline Handle) (now : ℤ)
    (o : Outcomes) :
    (p.recheck nvafx now o).lastGpuRetry =
      if p.gpuActive = true ∨ now < p.lastGpuRetry + recheckInterval then p.lastGpuRetry
      else now := by
  unfold recheck
  by_cases hactive : p.gpuActive = true
  · rw [if_pos hactive, if_pos (Or.inl hactive)]
  · by_cases helapsed : p.elapsed now ≥ gpuRecheckIntervalS
    · have hlate := (p.elapsed_ge_iff now).mp helapsed
      have hdue : ¬ (p.gpuActive = true ∨ now < p.lastGpuRetry + recheckInterval) :=
        not_or.mpr ⟨hactive, not_lt.mpr hlate⟩
      rw [if_neg hactive, if_pos helapsed, if_neg hdue, lastGpuRetry_init]
    · have hsoon := mt (p.elapsed_ge_iff now).mpr helapsed
      rw [if_neg hactive, if_neg helapsed, if_pos (Or.inr (by omega))]

theorem lastGpuRetry_pushReference (p : MaxinePipeline Handle) (frame : Pointer ℝ)
    (nSamples : ℕ) : ((p.pushReference frame nSamples).getD p).lastGpuRetry = p.lastGpuRetry := by
  cases hpush : p.pushReference frame nSamples with
  | none => rfl
  | some q =>
      obtain ⟨source, -, hcopied⟩ := Option.bind_eq_some_iff.mp hpush
      obtain ⟨refBuf, -, hq⟩ := Option.bind_eq_some_iff.mp hcopied
      rw [← Option.some.inj hq]
      rfl

theorem length_created_step (nvafx : NvAFX Handle) (p : MaxinePipeline Handle) (call : Call) :
    (p.step nvafx call).created.length ≤
      p.created.length + if (p.attempt call).isSome then 3 else 0 := by
  have hstep : (p.step nvafx call).created = (p.rechecked nvafx call).created := by
    rcases p.step_cases nvafx call with hstep | ⟨frame, nSamples, -, hstep⟩
    · rw [hstep]
    · rw [hstep]
      rfl
  rw [hstep]
  rcases p.rechecked_cases nvafx call with ⟨hnone, hsame⟩ | ⟨o, hsome, hattempted⟩
  · rw [hnone, hsame.created]
    exact Nat.le_refl _
  · rw [hsome]
    exact hattempted.length_created

theorem lastGpuRetry_process (p : MaxinePipeline Handle) (frame : Pointer ℝ) (nSamples : ℕ)
    (now : ℤ) (o : Outcomes) : (p.step nvafx (.process frame nSamples now o)).lastGpuRetry =
      (p.recheck nvafx now o).lastGpuRetry := by
  rcases p.step_cases nvafx (.process frame nSamples now o) with
    hstep | ⟨frame', nSamples', -, hstep⟩ <;> rw [hstep] <;> rfl

theorem attempt_process_eq_none {now : ℤ}
    (h : p.gpuActive = true ∨ now < p.lastGpuRetry + recheckInterval) (frame : Pointer ℝ)
    (nSamples : ℕ) (o : Outcomes) : p.attempt (.process frame nSamples now o) = none := by
  unfold attempt
  dsimp only
  rcases h with hactive | hsoon
  · rw [if_pos hactive]
  · rw [if_neg (mt (p.elapsed_ge_iff now).mp (not_le.mpr hsoon)), ite_self]

theorem step_pace (nvafx : NvAFX Handle) (p : MaxinePipeline Handle) (call : Call) :
    ((p.step nvafx call).lastGpuRetry = p.lastGpuRetry ∧ (p.step nvafx call).created.length ≤
      p.created.length + if call.untimed then 3 else 0) ∨
    ∃ frame nSamples now o, call = .process frame nSamples now o ∧
      p.lastGpuRetry + recheckInterval ≤ now ∧ (p.step nvafx call).lastGpuRetry = now ∧
      (p.step nvafx call).created.length ≤ p.created.length + 3 := by
  have hcreated := length_created_step nvafx p call
  have hthree : (p.step nvafx call).created.length ≤ p.created.length + 3 := by
    refine hcreated.trans ?_
    split <;> omega
  cases call with
  | init sdkPath o => exact .inl ⟨p.lastGpuRetry_init sdkPath o, hthree⟩
  | tryReloadGpu o =>
      refine .inl ⟨?_, hthree⟩
      show (p.tryReloadGpu nvafx o).lastGpuRetry = p.lastGpuRetry
      unfold tryReloadGpu
      split
      · rfl
      · exact p.lastGpuRetry_init p.sdkPath o
  | pushReference frame nSamples =>
      exact .inl ⟨p.lastGpuRetry_pushReference frame nSamples, hcreated⟩
  | process frame nSamples now o =>
      have hlast := (p.lastGpuRetry_process frame nSamples now o).trans
        (lastGpuRetry_recheck nvafx p now o)
      by_cases hkept : p.gpuActive = true ∨ now < p.lastGpuRetry + recheckInterval
      · rw [if_pos hkept] at hlast
        rw [attempt_process_eq_none hkept] at hcreated
        exact .inl ⟨hlast, hcreated⟩
      · rw [if_neg hkept] at hlast
        exact .inr ⟨frame, nSamples, now, o, rfl, not_lt.mp (not_or.mp hkept).2, hlast, hthree⟩

/-! ## Every run -/

/-- Some attempts were made at any time, and so many after an interval each. -/
structure Paced (start stop : ℤ) (n : ℕ) (p : MaxinePipeline Handle) : Prop where
  by_stop : p.lastGpuRetry ≤ stop
  attempts : ∃ timed : ℕ, p.created.length ≤ 3 * (n + timed) ∧
    recheckInterval * timed ≤ p.lastGpuRetry - start

namespace Paced

theorem new (hstart : start ≤ stop) :
    Paced start stop 0 (MaxinePipeline.new start : MaxinePipeline Handle) :=
  ⟨hstart, 0, Nat.le_refl _, by simp [MaxinePipeline.new]⟩

theorem untimed (h : p.Paced start stop n) (hlast : q.lastGpuRetry = p.lastGpuRetry) {k : ℕ}
    (hcreated : q.created.length ≤ p.created.length + 3 * k) : q.Paced start stop (n + k) := by
  obtain ⟨hstop, timed, hlength, hinterval⟩ := h
  refine ⟨hlast ▸ hstop, timed, by omega, ?_⟩
  rw [hlast]
  exact hinterval

/-- A timed attempt pays for itself with the interval that has passed. -/
theorem timed (h : p.Paced start stop n)
    (hlast : p.lastGpuRetry + recheckInterval ≤ q.lastGpuRetry) (hstop : q.lastGpuRetry ≤ stop)
    (hcreated : q.created.length ≤ p.created.length + 3) : q.Paced start stop n := by
  obtain ⟨-, timed, hlength, hinterval⟩ := h
  refine ⟨hstop, timed + 1, by omega, ?_⟩
  push_cast
  linarith

theorem step (h : p.Paced start stop n) {call : Call} (hcall : call.By stop) :
    (p.step nvafx call).Paced start stop (n + if call.untimed then 1 else 0) := by
  rcases step_pace nvafx p call with ⟨hlast, hcreated⟩ |
    ⟨frame, nSamples, now, o, rfl, hdue, hlast, hcreated⟩
  · apply h.untimed hlast
    refine hcreated.trans_eq ?_
    split <;> rfl
  · apply h.timed
    · rw [hlast]
      exact hdue
    · rw [hlast]
      exact hcall
    · exact hcreated

theorem run (h : p.Paced start stop n) {calls : List Call} (hcalls : ∀ call ∈ calls, call.By stop) :
    (calls.foldl (MaxinePipeline.step nvafx) p).Paced start stop
      (n + calls.countP Call.untimed) := by
  induction calls generalizing p n with
  | nil => exact h
  | cons call calls ih =>
      have hstep : (p.step nvafx call).Paced start stop (n + if call.untimed then 1 else 0) :=
        h.step (hcalls call List.mem_cons_self)
      have hrest := ih hstep fun c hc => hcalls c (List.mem_cons_of_mem _ hc)
      rw [List.countP_cons, Nat.add_comm (calls.countP Call.untimed), ← Nat.add_assoc]
      exact hrest

end Paced

/-- However often frames are processed: no more effects are created than three for each attempt
that may be made at any time, and three for each interval that has passed. -/
theorem created_in_time (nvafx : NvAFX Handle) {start stop : ℤ} (hstart : start ≤ stop)
    {calls : List Call} (hcalls : ∀ call ∈ calls, call.By stop) :
    ((calls.foldl (step nvafx) (new start)).created.length : ℤ) ≤
      3 * (calls.countP Call.untimed + (stop - start) / recheckInterval) := by
  have h : (calls.foldl (step nvafx) (new start)).Paced start stop
      (0 + calls.countP Call.untimed) := (Paced.new hstart).run hcalls
  obtain ⟨hstop, timed, hlength, hinterval⟩ := h
  have htimed : (timed : ℤ) ≤ (stop - start) / recheckInterval := by
    rw [Int.le_ediv_iff_mul_le recheckInterval_pos, mul_comm]
    exact hinterval.trans (by omega)
  rw [Nat.zero_add] at hlength
  have hcast : ((calls.foldl (step nvafx) (new start)).created.length : ℤ) ≤
      3 * (calls.countP Call.untimed + timed) := by
    exact_mod_cast hlength
  omega

/-- The denoiser fails at the start, and once more after forty seconds. -/
theorem created_in_time_counting :
    (([.init "" denoiserFails, .process none 0 (40 * 10 ^ 9) denoiserFails].foldl
        (step counting) (new 0)).created.length : ℤ) ≤
      3 * ([Call.init "" denoiserFails, .process none 0 (40 * 10 ^ 9) denoiserFails].countP
        Call.untimed + (40 * 10 ^ 9 - 0) / recheckInterval) :=
  created_in_time counting (by decide) (by
    intro call hcall
    rcases List.mem_pair.mp hcall with rfl | rfl
    · trivial
    · exact le_refl (40 * 10 ^ 9 : ℤ))

end MaxinePipeline

end Roomsync.Maxine
