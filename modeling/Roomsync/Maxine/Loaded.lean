import Roomsync.Maxine.Handles
/-!
# The effects that run

`init` gives up when the first effect does not load and goes on when one of the other two
does not.
-/

namespace Roomsync.Maxine.MaxinePipeline

open Roomsync.Lib

variable {Handle : Type} {nvafx : NvAFX Handle} {p q : MaxinePipeline Handle} {o : Outcomes}

def Ready (p : MaxinePipeline Handle) (h : Option Handle) : Prop :=
  ∃ x, h = some x ∧ x ∈ p.created ∧ some x ∈ p.loaded

/-- Where the flag is set the held effects are ready, and so is all that ran. -/
structure RunsLoaded (p : MaxinePipeline Handle) : Prop where
  active : p.gpuActive = true → p.Ready p.aecH ∧ p.Ready p.denoiserH ∧ p.Ready p.superresH
  ran : ∀ h ∈ p.ran, p.Ready h

/-- An attempt that gets as far as to load the first effect loads the other two as well. -/
def LoadsAll (p : MaxinePipeline Handle) (call : Call) : Prop :=
  ∀ o, p.attempt call = some o →
    (o.createAec && o.createDenoiser && o.createSuperres && o.loadAec) = true →
      o.loadDenoiser = true ∧ o.loadSuperres = true

theorem Ready.mono {h : Option Handle} (hcreated : p.created ⊆ q.created)
    (hloaded : p.loaded ⊆ q.loaded) (hp : p.Ready h) : q.Ready h := by
  obtain ⟨x, hx, hxc, hxl⟩ := hp
  exact ⟨x, hx, hcreated hxc, hloaded hxl⟩

theorem runsLoaded_new (start : ℤ) : RunsLoaded (new start : MaxinePipeline Handle) where
  active := by
    intro hactive
    exact absurd hactive Bool.false_ne_true
  ran := by
    intro h hran
    exact absurd hran List.not_mem_nil

theorem runsLoaded_runEffects_iff (hactive : p.gpuActive = true) (frame : Pointer ℝ)
    (nSamples : ℕ) : RunsLoaded (p.runEffects nvafx frame nSamples) ↔ RunsLoaded p := by
  constructor
  · intro h
    refine ⟨h.active, ?_⟩
    intro x hx
    exact h.ran x (List.mem_append_left _ hx)
  · intro h
    refine ⟨h.active, ?_⟩
    intro x hx
    obtain ⟨haec, hdenoiser, hsuperres⟩ := h.active hactive
    rcases List.mem_append.mp hx with hold | hnew
    · exact h.ran x hold
    · simp only [List.mem_cons, List.not_mem_nil, or_false] at hnew
      rcases hnew with rfl | rfl | rfl
      · exact haec
      · exact hdenoiser
      · exact hsuperres

theorem runsLoaded_step_iff (call : Call) :
    RunsLoaded (p.step nvafx call) ↔ RunsLoaded (p.rechecked nvafx call) := by
  rcases step_cases nvafx p call with hstep | ⟨frame, nSamples, hactive, hstep⟩
  · rw [hstep]
  · rw [hstep]
    exact runsLoaded_runEffects_iff hactive frame nSamples

theorem RunsLoaded.of_same (hp : RunsLoaded p) (h : SameHandles p q) : RunsLoaded q := by
  obtain ⟨hactive, hran⟩ := hp
  have hready : ∀ x, p.Ready x → q.Ready x := by
    intro x hx
    exact hx.mono (by rw [h.created]; exact List.Subset.refl _)
      (by rw [h.loaded]; exact List.Subset.refl _)
  constructor
  · rw [h.gpuActive, h.aecH, h.denoiserH, h.superresH]
    intro hflag
    obtain ⟨haec, hdenoiser, hsuperres⟩ := hactive hflag
    exact ⟨hready _ haec, hready _ hdenoiser, hready _ hsuperres⟩
  · rw [h.ran]
    intro x hx
    exact hready x (hran x hx)

/-! ## Attempts -/

structure Activated (nvafx : NvAFX Handle) (p : MaxinePipeline Handle) (o : Outcomes)
    (q : MaxinePipeline Handle) : Prop where
  aecH : q.aecH = some (nvafx.handle p.created.length)
  denoiserH : q.denoiserH = some (nvafx.handle (p.created.length + 1))
  superresH : q.superresH = some (nvafx.handle (p.created.length + 2))
  created : q.created = p.created ++ fresh nvafx p 3
  loaded : q.loaded = p.loaded ++ [q.aecH] ++ (if o.loadDenoiser then [q.denoiserH] else []) ++
    (if o.loadSuperres then [q.superresH] else [])

theorem Attempted.activated (h : Attempted nvafx p o q) (hactive : q.gpuActive = true) :
    Activated nvafx p o q := by
  have hflag := h.gpuActive.symm.trans hactive
  simp only [Bool.and_eq_true] at hflag
  obtain ⟨⟨⟨hAec, hDenoiser⟩, hSuperres⟩, -⟩ := hflag
  obtain ⟨haec, hdenoiser, hsuperres, -, hcreated, hloaded, -, -⟩ := h
  rw [hAec, if_pos rfl] at haec
  rw [hAec, hDenoiser, Bool.and_self, if_pos rfl] at hdenoiser
  rw [hAec, hDenoiser, hSuperres, Bool.and_self, Bool.and_self, if_pos rfl] at hsuperres
  rw [hactive, if_pos rfl] at hloaded
  refine ⟨haec, hdenoiser, hsuperres, ?_, hloaded⟩
  rw [hcreated, hAec, hDenoiser, hSuperres]
  simp [fresh, List.range_succ]

theorem Activated.mem_created (h : Activated nvafx p o q) {i : ℕ} (hi : i < 3) :
    nvafx.handle (p.created.length + i) ∈ q.created := by
  rw [h.created]
  exact List.mem_append_right _ (List.mem_map_of_mem (List.mem_range.mpr hi))

def LoadedCreated (p : MaxinePipeline Handle) : Prop := ∀ x, some x ∈ p.loaded → x ∈ p.created

theorem Activated.loaded_iff (h : Activated nvafx p o q) (hp : Sound nvafx p)
    (hloaded : LoadedCreated p) (hfresh : Function.Injective nvafx.handle) :
    (some (nvafx.handle (p.created.length + 1)) ∈ q.loaded ↔ o.loadDenoiser = true) ∧
      (some (nvafx.handle (p.created.length + 2)) ∈ q.loaded ↔ o.loadSuperres = true) := by
  have hold : ∀ i < 3, some (nvafx.handle (p.created.length + i)) ∉ p.loaded := by
    intro i hi hmem
    have hnew : nvafx.handle (p.created.length + i) ∈ fresh nvafx p 3 :=
      List.mem_map_of_mem (List.mem_range.mpr hi)
    exact hp.fresh_not_created hfresh hnew (hloaded _ hmem)
  rw [h.loaded, h.aecH, h.denoiserH, h.superresH]
  constructor
  · have hold := hold 1 (by omega)
    cases o.loadDenoiser <;> cases o.loadSuperres <;> simp [hold, hfresh.eq_iff]
  · have hold := hold 2 (by omega)
    cases o.loadDenoiser <;> cases o.loadSuperres <;> simp [hold, hfresh.eq_iff]

theorem Attempted.loadedCreated (h : Attempted nvafx p o q) (hp : LoadedCreated p) :
    LoadedCreated q := by
  intro x hx
  cases hactive : q.gpuActive with
  | false =>
      rw [h.loaded, hactive, if_neg Bool.false_ne_true] at hx
      obtain ⟨n, -, hcreated, -⟩ := h.slots_eq
      rw [hcreated]
      exact List.mem_append_left _ (hp x hx)
  | true =>
      have hq := h.activated hactive
      rw [hq.loaded, hq.aecH, hq.denoiserH, hq.superresH] at hx
      have hcases : some x ∈ p.loaded ∨ x = nvafx.handle p.created.length ∨
          x = nvafx.handle (p.created.length + 1) ∨
          x = nvafx.handle (p.created.length + 2) := by
        cases o.loadDenoiser <;> cases o.loadSuperres <;> simp at hx <;> tauto
      rcases hcases with hold | rfl | rfl | rfl
      · rw [hq.created]
        exact List.mem_append_left _ (hp x hold)
      · exact hq.mem_created (i := 0) (by omega)
      · exact hq.mem_created (by omega)
      · exact hq.mem_created (by omega)

theorem LoadedCreated.step (hp : LoadedCreated p) (call : Call) :
    LoadedCreated (p.step nvafx call) := by
  have hrechecked : LoadedCreated (p.rechecked nvafx call) := by
    rcases rechecked_cases nvafx p call with ⟨-, hsame⟩ | ⟨o, -, hattempted⟩
    · unfold LoadedCreated
      rw [hsame.loaded, hsame.created]
      exact hp
    · exact hattempted.loadedCreated hp
  rcases step_cases nvafx p call with hstep | ⟨frame, nSamples, -, hstep⟩
  · rw [hstep]
    exact hrechecked
  · rw [hstep]
    exact hrechecked

theorem Attempted.ran_ready (h : Attempted nvafx p o q) (hp : RunsLoaded p) :
    ∀ x ∈ q.ran, q.Ready x := by
  obtain ⟨n, -, hcreated, -⟩ := h.slots_eq
  have hloaded : p.loaded ⊆ q.loaded := by
    rw [h.loaded]
    split
    · simp only [List.append_assoc]
      exact List.subset_append_left _ _
    · exact List.Subset.refl _
  intro x hx
  rw [h.ran] at hx
  apply (hp.ran x hx).mono
  · rw [hcreated]
    exact List.subset_append_left _ _
  · exact hloaded

theorem Attempted.runsLoaded_iff (h : Attempted nvafx p o q) (hp : Sound nvafx p)
    (hloaded : LoadedCreated p) (hruns : RunsLoaded p)
    (hfresh : Function.Injective nvafx.handle) :
    RunsLoaded q ↔ ((o.createAec && o.createDenoiser && o.createSuperres && o.loadAec) = true →
      o.loadDenoiser = true ∧ o.loadSuperres = true) := by
  rw [← h.gpuActive]
  constructor
  · intro hq hactive
    have hnew := h.activated hactive
    obtain ⟨hden, hsup⟩ := hnew.loaded_iff hp hloaded hfresh
    obtain ⟨-, ⟨x, hx, -, hxl⟩, ⟨y, hy, -, hyl⟩⟩ := hq.active hactive
    rw [hnew.denoiserH] at hx
    rw [hnew.superresH] at hy
    rw [← hx] at hxl
    rw [← hy] at hyl
    exact ⟨hden.mp hxl, hsup.mp hyl⟩
  · intro hloads
    refine ⟨?_, h.ran_ready hruns⟩
    intro hactive
    have hnew := h.activated hactive
    obtain ⟨hden, hsup⟩ := hnew.loaded_iff hp hloaded hfresh
    have haec : q.aecH ∈ q.loaded := by
      rw [hnew.loaded]
      simp
    refine ⟨⟨_, hnew.aecH, hnew.mem_created (i := 0) (by omega), hnew.aecH ▸ haec⟩,
      ⟨_, hnew.denoiserH, hnew.mem_created (by omega), hden.mpr (hloads hactive).1⟩,
      ⟨_, hnew.superresH, hnew.mem_created (by omega), hsup.mpr (hloads hactive).2⟩⟩

/-- Nothing but loaded effects is held active or run, at any point of a run of the pipeline,
exactly when no attempt succeeds without the second and the third effect loaded. -/
theorem runs_loaded_iff (nvafx : NvAFX Handle) (hfresh : Function.Injective nvafx.handle)
    (start : ℤ) (calls : List Call) :
    (∀ n, RunsLoaded ((calls.take n).foldl (step nvafx) (new start))) ↔
      Along (step nvafx) LoadsAll (new start) calls := by
  apply forall_take_iff_along (K := fun p => Sound nvafx p ∧ LoadedCreated p)
  · intro p call hp
    exact ⟨hp.1.step hfresh call, hp.2.step call⟩
  · intro p call hp hruns
    rw [runsLoaded_step_iff call]
    unfold LoadsAll
    rcases rechecked_cases nvafx p call with ⟨hnone, hsame⟩ | ⟨o, hsome, hattempted⟩
    · rw [hnone]
      simp only [reduceCtorEq, false_implies, implies_true, iff_true]
      exact hruns.of_same hsame
    · rw [hsome, hattempted.runsLoaded_iff hp.1 hp.2 hruns hfresh]
      simp only [Option.some.injEq, forall_eq']
  · refine ⟨Sound.new nvafx start, ?_⟩
    intro x hx
    exact absurd hx List.not_mem_nil
  · exact runsLoaded_new start

theorem runs_loaded_iff_counting :
    (∀ n, RunsLoaded ((lateDenoiser.take n).foldl (step counting) (new 0))) ↔
      Along (step counting) LoadsAll (new 0) lateDenoiser :=
  runs_loaded_iff counting Function.injective_id 0 lateDenoiser

def denoiserNotLoaded : Outcomes where
  createAec := true
  createDenoiser := true
  createSuperres := true
  loadAec := true
  loadDenoiser := false
  loadSuperres := true

theorem denoiser_runs_without_model :
    ¬ ∀ n, RunsLoaded (([Call.init "sdk" denoiserNotLoaded,
      Call.process (some [0]) 1 0 denoiserNotLoaded].take n).foldl (step counting) (new 0)) := by
  intro hall
  obtain ⟨x, hx, -, hloaded⟩ := (hall 2).ran (some 1) (by decide)
  obtain rfl := Option.some.inj hx
  exact absurd hloaded (by decide)

end Roomsync.Maxine.MaxinePipeline
