import Roomsync.Pipeline.Aec.Nlms
/-!
# Two voices at the microphone

What the canceller makes of a mixture is the mixture of what it makes of the parts: its step
does not depend on the microphone, and its weights start from zero.
-/

namespace Roomsync.Pipeline.Aec

open Roomsync.Lib
open Noise (frameSize)

noncomputable section

/-- A call with two microphone frames to choose from. -/
inductive Pair where
  | pushReference (refFrame : Buffer frameSize ℝ)
  | process (micFrame micFrame' : Buffer frameSize ℝ)

namespace Pair

def first : Pair → Call
  | .pushReference refFrame => .pushReference refFrame
  | .process micFrame _ => .process micFrame

def second : Pair → Call
  | .pushReference refFrame => .pushReference refFrame
  | .process _ micFrame' => .process micFrame'

def mixed (a b : ℝ) : Pair → Call
  | .pushReference refFrame => .pushReference refFrame
  | .process micFrame micFrame' => .process fun n => a * micFrame n + b * micFrame' n

end Pair

def mix (a b : ℝ) (x y : List ℝ) : List ℝ := List.zipWith (fun x y => a * x + b * y) x y

def mixAnswer (a b : ℝ) (out out' : Option (List ℝ)) : Option (List ℝ) :=
  out.bind fun x => out'.map fun y => mix a b x y

variable (a b : ℝ)

theorem mix_ofFn {n : ℕ} (x y : Fin n → ℝ) :
    mix a b (List.ofFn x) (List.ofFn y) = List.ofFn fun i => a * x i + b * y i := by
  unfold mix
  apply List.ext_getElem
  · simp
  · intro i hi hi'
    simp

namespace Nlms

def mixed (t t' : Nlms) : Nlms := ⟨t.stream, fun k => a * t.w k + b * t'.w k⟩

theorem step_mixed {t t' : Nlms} (hstream : t'.stream = t.stream) (e : Pair) :
    (mixed a b t t').step (e.mixed a b) =
      (mixAnswer a b (t.step e.first).1 (t'.step e.second).1,
        mixed a b (t.step e.first).2 (t'.step e.second).2) := by
  cases e with
  | pushReference refFrame => rfl
  | process micFrame micFrame' =>
      have hmic : Buffer.getD (fun n => a * micFrame n + b * micFrame' n) 0 =
          fun n => a * micFrame.getD 0 n + b * micFrame'.getD 0 n := by
        ext n
        unfold Buffer.getD
        split <;> simp
      have hweights : ∀ n,
          (mixed a b t t').weightsAt (fun n => a * micFrame n + b * micFrame' n) n =
            fun k => a * t.weightsAt micFrame n k + b * t'.weightsAt micFrame' n k := by
        intro n
        unfold weightsAt
        rw [hmic, hstream]
        exact lmsWeights_combination _ a b _ _ _ _ _ n
      have herrors : ∀ n, (mixed a b t t').errorAt (fun n => a * micFrame n + b * micFrame' n) n =
          a * t.errorAt micFrame n + b * t'.errorAt micFrame' n := by
        intro n
        unfold errorAt
        rw [hmic, hstream]
        exact lmsErrors_combination _ a b _ _ _ _ _ n
      change (some (List.ofFn _), (⟨t.stream, _⟩ : Nlms)) = (some (mix a b _ _), ⟨t.stream, _⟩)
      rw [mix_ofFn, hweights]
      simp only [herrors]
      rfl

theorem run_mixed {t t' : Nlms} (hstream : t'.stream = t.stream) (es : List Pair) :
    Lib.run step (mixed a b t t') (es.map (Pair.mixed a b)) =
      (List.zipWith (mixAnswer a b) (Lib.run step t (es.map Pair.first)).1
          (Lib.run step t' (es.map Pair.second)).1,
        mixed a b (Lib.run step t (es.map Pair.first)).2
          (Lib.run step t' (es.map Pair.second)).2) := by
  induction es generalizing t t' with
  | nil => rfl
  | cons e es ih =>
      have hnext : (t'.step e.second).2.stream = (t.step e.first).2.stream := by
        cases e with
        | pushReference refFrame => exact congrArg (· ++ List.ofFn refFrame) hstream
        | process micFrame micFrame' => exact hstream
      rw [List.map_cons, List.map_cons, List.map_cons, run_cons, run_cons, run_cons,
        step_mixed a b hstream, ih hnext, List.zipWith_cons_cons]

end Nlms

/-- With the same reference frames between, the canceller answers to mixtures with the
mixtures of its answers, and so are its weights mixed. -/
theorem superposition (es : List Pair) :
    ∃ answers s answers' s' answers'' s'', run (es.map Pair.first) = some (answers, s) ∧
      run (es.map Pair.second) = some (answers', s') ∧
      run (es.map (Pair.mixed a b)) = some (answers'', s'') ∧
      answers'' = List.zipWith (mixAnswer a b) answers answers' ∧ s''.w = mix a b s.w s'.w := by
  have hrefines := runM_refines (R := Follows) (fun s t call h => h.step call)
    (Follows.init .new "")
  obtain ⟨s, hrun, hs⟩ := hrefines (es.map Pair.first)
  obtain ⟨s', hrun', hs'⟩ := hrefines (es.map Pair.second)
  obtain ⟨s'', hrun'', hs''⟩ := hrefines (es.map (Pair.mixed a b))
  have hzero : Nlms.mixed a b .new .new = .new := by
    unfold Nlms.mixed Nlms.new
    simp
  have hmixed := Nlms.run_mixed a b (rfl : Nlms.new.stream = Nlms.new.stream) es
  rw [hzero] at hmixed
  refine ⟨_, s, _, s', _, s'', hrun, hrun', hrun'', congrArg Prod.fst hmixed, ?_⟩
  rw [hs.w, hs'.w, hs''.w, mix_ofFn, hmixed]
  rfl

end

end Roomsync.Pipeline.Aec
