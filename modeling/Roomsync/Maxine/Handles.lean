import Mathlib.Data.List.Nodup
import Mathlib.Data.List.Perm.Subperm
import Mathlib.Data.List.ReduceOption
import Roomsync.Maxine.Attempt
/-!
# The handles that are destroyed

The destructor sees the three handles that the fields hold last.  An attempt that creates
the first effect again overwrites what an attempt before it has left there.
-/

namespace Roomsync.Maxine.MaxinePipeline

open Roomsync.Lib

variable {Handle : Type} {nvafx : NvAFX Handle} {p q : MaxinePipeline Handle} {o : Outcomes}

def slots (p : MaxinePipeline Handle) : List (Option Handle) :=
  [p.aecH, p.denoiserH, p.superresH]

/-- What the destructor would destroy. -/
def held (p : MaxinePipeline Handle) : List Handle := p.slots.reduceOption

def fresh (nvafx : NvAFX Handle) (p : MaxinePipeline Handle) (n : ℕ) : List Handle :=
  (List.range n).map fun i => nvafx.handle (p.created.length + i)

theorem length_fresh (p : MaxinePipeline Handle) (n : ℕ) : (fresh nvafx p n).length = n := by
  unfold fresh
  rw [List.length_map, List.length_range]

theorem destroyed_destroy (p : MaxinePipeline Handle) :
    p.destroy.destroyed = p.destroyed ++ p.held := by
  unfold destroy held slots
  cases p.aecH <;> cases p.denoiserH <;> cases p.superresH <;> simp [List.reduceOption]

theorem SameHandles.slots_eq (h : SameHandles p q) : q.slots = p.slots := by
  unfold slots
  rw [h.aecH, h.denoiserH, h.superresH]

theorem SameHandles.held_eq (h : SameHandles p q) : q.held = p.held :=
  congrArg List.reduceOption h.slots_eq

theorem Attempted.slots_eq (h : Attempted nvafx p o q) :
    ∃ n, (o.createAec = true ↔ 0 < n) ∧ q.created = p.created ++ fresh nvafx p n ∧
      q.slots = (fresh nvafx p n).map some ++ p.slots.drop n := by
  obtain ⟨hAec, hDenoiser, hSuperres, -, hCreated, -, -, -⟩ := h
  unfold slots fresh
  rw [hAec, hDenoiser, hSuperres, hCreated]
  cases o.createAec with
  | false => exact ⟨0, by simp, by simp, by simp⟩
  | true =>
      cases o.createDenoiser with
      | false => exact ⟨1, by simp, by simp, by simp⟩
      | true =>
          cases o.createSuperres with
          | false =>
              exact ⟨2, by simp, by simp [List.range_succ], by simp [List.range_succ]⟩
          | true =>
              exact ⟨3, by simp, by simp [List.range_succ], by simp [List.range_succ]⟩

theorem Attempted.held_eq (h : Attempted nvafx p o q) :
    ∃ n, (o.createAec = true ↔ 0 < n) ∧ q.created = p.created ++ fresh nvafx p n ∧
      q.held = fresh nvafx p n ++ (p.slots.drop n).reduceOption := by
  obtain ⟨n, hn, hcreated, hslots⟩ := h.slots_eq
  refine ⟨n, hn, hcreated, ?_⟩
  have hnew : ((fresh nvafx p n).map some).reduceOption = fresh nvafx p n := by
    unfold List.reduceOption
    rw [List.filterMap_map]
    exact List.filterMap_some
  unfold held
  rw [hslots, List.reduceOption_append, hnew]

def AllHeld (p : MaxinePipeline Handle) : Prop := p.created.length = p.held.length

structure Sound (nvafx : NvAFX Handle) (p : MaxinePipeline Handle) : Prop where
  created : p.created = (List.range p.created.length).map nvafx.handle
  held_created : ∀ h ∈ p.held, h ∈ p.created
  nodup : p.held.Nodup
  held_nil : p.aecH = none → p.held = []
  destroyed : p.destroyed = []

namespace Sound

theorem new (nvafx : NvAFX Handle) (now : ℤ) : Sound nvafx (new now) where
  created := rfl
  held_created := by
    intro h hheld
    exact absurd hheld List.not_mem_nil
  nodup := List.nodup_nil
  held_nil := by
    intro _
    rfl
  destroyed := rfl

theorem created_nodup (hp : Sound nvafx p) (hfresh : Function.Injective nvafx.handle) :
    p.created.Nodup := by
  rw [hp.created]
  exact List.nodup_range.map hfresh

theorem fresh_nodup (hfresh : Function.Injective nvafx.handle) (n : ℕ) :
    (fresh nvafx p n).Nodup := by
  apply List.nodup_range.map
  intro i j hij
  have hsum := hfresh hij
  omega

theorem fresh_not_created (hp : Sound nvafx p) (hfresh : Function.Injective nvafx.handle)
    {n : ℕ} {h : Handle} (hnew : h ∈ fresh nvafx p n) : h ∉ p.created := by
  rw [hp.created]
  obtain ⟨i, -, rfl⟩ := List.mem_map.mp hnew
  intro hold
  obtain ⟨j, hj, heq⟩ := List.mem_map.mp hold
  have hij := hfresh heq
  have hlt := List.mem_range.mp hj
  omega

theorem of_same (hp : Sound nvafx p) (h : SameHandles p q) : Sound nvafx q where
  created := by
    rw [h.created]
    exact hp.created
  held_created := by
    rw [h.held_eq, h.created]
    exact hp.held_created
  nodup := by
    rw [h.held_eq]
    exact hp.nodup
  held_nil := by
    rw [h.held_eq, h.aecH]
    exact hp.held_nil
  destroyed := h.destroyed.trans hp.destroyed

theorem of_attempted (hp : Sound nvafx p) (hfresh : Function.Injective nvafx.handle)
    (h : Attempted nvafx p o q) : Sound nvafx q := by
  obtain ⟨n, hn, hcreated, hheld⟩ := h.held_eq
  have hrest : (p.slots.drop n).reduceOption.Sublist p.held :=
    (List.drop_sublist n p.slots).filterMap id
  refine ⟨?_, ?_, ?_, ?_, h.destroyed.trans hp.destroyed⟩
  · rw [hcreated, List.length_append, length_fresh, List.range_add, List.map_append,
      ← hp.created, List.map_map]
    rfl
  · intro x hx
    rw [hheld] at hx
    rw [hcreated]
    rcases List.mem_append.mp hx with hnew | hold
    · exact List.mem_append_right _ hnew
    · exact List.mem_append_left _ (hp.held_created x (hrest.subset hold))
  · rw [hheld]
    apply (fresh_nodup hfresh n).append (hp.nodup.sublist hrest)
    intro x hnew hold
    exact hp.fresh_not_created hfresh hnew (hp.held_created x (hrest.subset hold))
  · intro hnone
    rw [h.aecH] at hnone
    cases hAec : o.createAec with
    | true =>
        rw [hAec, if_pos rfl] at hnone
        exact absurd hnone (Option.some_ne_none _)
    | false =>
        have hzero : n = 0 := by
          by_contra hpos
          have htrue := hn.mpr (by omega)
          rw [hAec] at htrue
          exact Bool.false_ne_true htrue
        rw [hAec, if_neg Bool.false_ne_true] at hnone
        rw [hheld, hzero]
        exact hp.held_nil hnone

theorem step (hfresh : Function.Injective nvafx.handle) (hp : Sound nvafx p) (call : Call) :
    Sound nvafx (p.step nvafx call) := by
  have hrechecked : Sound nvafx (p.rechecked nvafx call) := by
    rcases rechecked_cases nvafx p call with ⟨-, hsame⟩ | ⟨o, -, hattempted⟩
    · exact hp.of_same hsame
    · exact hp.of_attempted hfresh hattempted
  rcases step_cases nvafx p call with hstep | ⟨frame, nSamples, -, hstep⟩
  · rw [hstep]
    exact hrechecked
  · rw [hstep]
    obtain ⟨hcreated, hheld, hnodup, hnil, hdestroyed⟩ := hrechecked
    exact ⟨hcreated, hheld, hnodup, hnil, hdestroyed⟩

theorem destroyed_once_iff [DecidableEq Handle] (hp : Sound nvafx p)
    (hfresh : Function.Injective nvafx.handle) :
    (∀ h ∈ p.destroy.created, p.destroy.destroyed.count h = 1) ↔ AllHeld p := by
  have hsub : p.held.Subperm p.created := hp.nodup.subperm hp.held_created
  rw [destroyed_destroy, hp.destroyed, List.nil_append]
  constructor
  · intro hcount
    have hback : p.created.Subperm p.held := by
      apply (hp.created_nodup hfresh).subperm
      intro h hh
      apply List.count_pos_iff.mp
      rw [hcount h hh]
      exact Nat.one_pos
    exact (hback.antisymm hsub).length_eq
  · intro hlength h hh
    have hperm : p.held.Perm p.created := hsub.perm_of_length_le hlength.le
    exact List.count_eq_one_of_mem hp.nodup (hperm.mem_iff.mpr hh)

end Sound

/-- An attempt that creates the first effect finds no handle to overwrite. -/
def FirstCreation (p : MaxinePipeline Handle) (call : Call) : Prop :=
  ∀ o, p.attempt call = some o → o.createAec = true → p.aecH = none

theorem length_held_of_some {h : Handle} (haec : p.aecH = some h) :
    p.held.length = (p.slots.drop 1).reduceOption.length + 1 := by
  unfold held slots
  rw [haec, List.reduceOption_cons_of_some, List.length_cons]
  rfl

/-- What an attempt overwrites is lost, and it does so once the first effect exists. -/
theorem Attempted.allHeld_iff (hp : Sound nvafx p) (h : Attempted nvafx p o q) :
    AllHeld q ↔ AllHeld p ∧ (o.createAec = true → p.aecH = none) := by
  obtain ⟨n, hn, hcreated, hheld⟩ := h.held_eq
  have hle : (p.slots.drop n).reduceOption.length ≤ p.held.length :=
    ((List.drop_sublist n p.slots).filterMap id).length_le
  have hsub : p.held.length ≤ p.created.length :=
    (hp.nodup.subperm hp.held_created).length_le
  unfold AllHeld
  rw [hcreated, hheld, List.length_append, List.length_append, length_fresh]
  cases haec : p.aecH with
  | none =>
      rw [hp.held_nil haec, List.length_nil] at *
      simp only [implies_true, and_true]
      omega
  | some x =>
      have hlength := length_held_of_some haec
      by_cases hpos : 0 < n
      · have hlt : (p.slots.drop n).reduceOption.length ≤
            (p.slots.drop 1).reduceOption.length :=
          ((List.drop_sublist_drop_left p.slots hpos).filterMap id).length_le
        simp only [hn.mpr hpos, reduceCtorEq, imp_false, not_true_eq_false, and_false,
          iff_false]
        omega
      · have hzero : n = 0 := by omega
        subst hzero
        have hfalse : o.createAec = false := by
          simpa using hn
        rw [hfalse, List.drop_zero]
        simp only [Bool.false_eq_true, false_implies, and_true]
        unfold held
        omega

theorem allHeld_step_iff (hp : Sound nvafx p) (call : Call) :
    AllHeld (p.step nvafx call) ↔ AllHeld p ∧ FirstCreation p call := by
  have hrechecked : AllHeld (p.step nvafx call) ↔ AllHeld (p.rechecked nvafx call) := by
    rcases step_cases nvafx p call with hstep | ⟨frame, nSamples, -, hstep⟩
    · rw [hstep]
    · rw [hstep]
      exact Iff.rfl
  rw [hrechecked]
  unfold FirstCreation
  rcases rechecked_cases nvafx p call with ⟨hnone, hsame⟩ | ⟨o, hsome, hattempted⟩
  · unfold AllHeld
    rw [hsame.created, hsame.held_eq, hnone]
    simp
  · rw [hattempted.allHeld_iff hp, hsome]
    simp

/-- Destruction destroys each handle that was created, once, exactly when no attempt created
the first effect on top of an earlier one. -/
theorem all_destroyed_iff [DecidableEq Handle] (nvafx : NvAFX Handle)
    (hfresh : Function.Injective nvafx.handle) (start : ℤ) (calls : List Call) :
    (∀ h ∈ (calls.foldl (step nvafx) (new start)).destroy.created,
      (calls.foldl (step nvafx) (new start)).destroy.destroyed.count h = 1) ↔
      Along (step nvafx) FirstCreation (new start) calls := by
  have hsound : Sound nvafx (calls.foldl (step nvafx) (new start)) :=
    List.foldlRecOn calls (step nvafx) (Sound.new nvafx start)
      fun _ hp call _ => hp.step hfresh call
  rw [hsound.destroyed_once_iff hfresh]
  have hrun := foldl_iff_along (I := AllHeld)
    (fun p call (hp : Sound nvafx p) => hp.step hfresh call)
    (fun p call hp => allHeld_step_iff hp call) (Sound.new nvafx start) calls
  rw [hrun]
  exact and_iff_right rfl

def counting : NvAFX ℕ where
  handle := id
  run _ _ _ out _ := out

def denoiserFails : Outcomes where
  createAec := true
  createDenoiser := false
  createSuperres := false
  loadAec := false
  loadDenoiser := false
  loadSuperres := false

def allSucceed : Outcomes where
  createAec := true
  createDenoiser := true
  createSuperres := true
  loadAec := true
  loadDenoiser := true
  loadSuperres := true

/-- The retry of the second frame, 31 seconds after the first, activates the GPU. -/
def lateDenoiser : List Call :=
  [.init "sdk" denoiserFails, .process (some [0]) 1 0 allSucceed,
    .process (some [0]) 1 (31 * 10 ^ 9) allSucceed, .process (some [0]) 1 (31 * 10 ^ 9) allSucceed]

theorem all_destroyed_iff_counting :
    (∀ h ∈ (lateDenoiser.foldl (step counting) (new 0)).destroy.created,
      (lateDenoiser.foldl (step counting) (new 0)).destroy.destroyed.count h = 1) ↔
      Along (step counting) FirstCreation (new 0) lateDenoiser :=
  all_destroyed_iff counting Function.injective_id 0 lateDenoiser

theorem handle_lost_on_retry :
    ¬ ∀ h ∈ (lateDenoiser.foldl (step counting) (new 0)).destroy.created,
      (lateDenoiser.foldl (step counting) (new 0)).destroy.destroyed.count h = 1 := by
  decide

end Roomsync.Maxine.MaxinePipeline
