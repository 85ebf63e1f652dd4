import Mathlib.Data.Fin.VecNotation
import Roomsync.Lib.Levinson
import Roomsync.Pipeline.Plc.Processor
/-!
# The predictor that concealment uses

Each pass of `levinson_durbin` takes the coefficients one order up, by a reflection that is
clamped below one.
-/

namespace Roomsync.Pipeline.Plc

open Roomsync.Lib
open Finset

noncomputable section

variable {m p i : ℕ}

def reflection (R : Buffer m ℝ) (acc : ℝ × Buffer p ℝ) (i : ℕ) : ℝ :=
  reflectionOf (R.getD 0) (acc.2.getD 0) i acc.1

def clamped (ki : ℝ) : ℝ := max (-0.999) (min 0.999 ki)

theorem abs_clamped_lt_one (ki : ℝ) : |clamped ki| < 1 := by
  have hlower : -0.999 ≤ clamped ki := le_max_left _ _
  have hupper : clamped ki ≤ 0.999 := max_le (by norm_num) (min_le_left _ _)
  rw [abs_lt]
  constructor <;> linarith

theorem clamped_of_abs_le {ki : ℝ} (hki : |ki| ≤ 0.999) : clamped ki = ki := by
  obtain ⟨hlower, hupper⟩ := abs_le.mp hki
  unfold clamped
  rw [min_eq_right hupper, max_eq_right hlower]

/-! ## A pass -/

theorem reflectionLoop_eq_some (R : Buffer m ℝ) (a : Buffer p ℝ) (hi : i < p) (hm : p < m) :
    forLoop (· + 1) i (reflectionPass R a i) 0 (R.getD 0 (i + 1)) =
      some (R.getD 0 (i + 1) + ∑ j ∈ range i, a.getD 0 j * R.getD 0 (i - j)) := by
  apply forLoop_sum
  intro j ki hj
  unfold reflectionPass
  rw [(a.holds_getD 0).read (by omega), (R.holds_getD 0).read (by omega)]
  rfl

theorem combineLoop_spec (prev : Buffer p ℝ) (ki : ℝ) (hi : i < p) :
    ∃ a a', prev.write i ki = some a ∧
      forLoop (· + 1) i (combinePass prev ki i) 0 a = some a' ∧
      a'.getD 0 = stepUp ki i (prev.getD 0) := by
  obtain ⟨a, hwrite, ha⟩ := (prev.holds_getD 0).write hi ki
  have hpass : ∀ j b, j < i →
      b.read j = some (Function.update (prev.getD 0) i ki j) → combinePass prev ki i j b =
        b.write j (prev.getD 0 j + ki * prev.getD 0 (i - 1 - j)) := by
    intro j b hj _
    unfold combinePass
    rw [(prev.holds_getD 0).read (by omega), (prev.holds_getD 0).read (by omega)]
    rfl
  obtain ⟨a', hloop, ha'⟩ := Buffer.Holds.forLoop_write hi.le hpass ha
  refine ⟨a, a', hwrite, hloop, ?_⟩
  ext j
  rcases Nat.lt_or_ge j p with hj | hj
  · rw [Buffer.getD_of_lt _ _ hj, ha' j hj]
    dsimp only
    rcases Nat.lt_trichotomy j i with hlt | rfl | hgt
    · rw [if_pos hlt, stepUp_of_lt hlt]
    · rw [if_neg (Nat.lt_irrefl j), Function.update_self, stepUp_self]
    · rw [if_neg (by omega), Function.update_of_ne (by omega), stepUp_of_gt hgt]
  · rw [Buffer.getD_of_le _ _ hj, stepUp_of_gt (by omega), Buffer.getD_of_le _ _ hj]

theorem durbinPass_spec (R : Buffer m ℝ) (hi : i < p) (hm : p < m) (acc : ℝ × Buffer p ℝ)
    {ki err : ℝ} (hki : ki = clamped (reflection R acc i)) (herr : err = acc.1 * (1 - ki * ki)) :
    ∃ a, durbinPass R i acc = some ((err, a), !decide (err ≤ 1e-12)) ∧
      a.getD 0 = stepUp ki i (acc.2.getD 0) := by
  obtain ⟨a, a', hwrite, hcombine, ha'⟩ := combineLoop_spec acc.2 ki hi
  have hclamp : max (-0.999) (min 0.999 (-(R.getD 0 (i + 1) +
      ∑ j ∈ range i, acc.2.getD 0 j * R.getD 0 (i - j)) / acc.1)) = ki := hki.symm
  refine ⟨a', ?_, ha'⟩
  unfold durbinPass
  rw [(R.holds_getD 0).read (by omega), Option.bind_eq_bind, Option.bind_some,
    reflectionLoop_eq_some R acc.2 hi hm, Option.bind_eq_bind, Option.bind_some]
  dsimp only
  rw [hclamp, hwrite, Option.bind_some, hcombine, herr]
  rfl

/-! ## The loop -/

/-- The predictor of the code, the recursion with the code's clamp and threshold. -/
def predictor (R : ℕ → ℝ) (p : ℕ) : ℝ × (ℕ → ℝ) := (durbin clamped 1e-12 R p).1

theorem levinsonDurbin_spec (hm : p < m) (R : Buffer m ℝ) :
    ∃ err a, levinsonDurbin p R = some (err, a) ∧ (err, a.getD 0) = predictor (R.getD 0) p := by
  let view (acc : ℝ × Buffer p ℝ) : ℝ × (ℕ → ℝ) := (acc.1, acc.2.getD 0)
  have hpass : ∀ i acc, i < p → ∃ acc',
      durbinPass R i acc =
        some (acc', (durbinStep clamped 1e-12 (R.getD 0) i (view acc)).2) ∧
      view acc' = (durbinStep clamped 1e-12 (R.getD 0) i (view acc)).1 := by
    intro i acc hi
    obtain ⟨a, hstep, ha⟩ := durbinPass_spec R hi hm acc rfl rfl
    exact ⟨_, hstep, Prod.ext rfl ha⟩
  have hzero : Buffer.getD (fun _ => 0 : Buffer p ℝ) 0 = fun _ => 0 :=
    funext (Buffer.getD_of_const fun _ => rfl)
  unfold levinsonDurbin predictor
  rw [(R.holds_getD 0).read (by omega), Option.bind_eq_bind, Option.bind_some]
  by_cases hquiet : R.getD 0 0 < 1e-12
  · have hstopped : (durbin clamped 1e-12 (R.getD 0) 0).2 = false := by
      show (!decide (R.getD 0 0 < 1e-12)) = false
      rw [decide_eq_true hquiet]
      rfl
    refine ⟨R.getD 0 0, fun _ => 0, if_pos hquiet, ?_⟩
    unfold durbin at hstopped ⊢
    rw [passes_of_stopped hstopped (Nat.zero_le p), hzero]
    rfl
  · rw [if_neg hquiet]
    have hstart : durbin clamped 1e-12 (R.getD 0) 0 =
        (view (R.getD 0 0, fun _ => 0), true) := by
      show ((R.getD 0 0, fun _ => 0), !decide (R.getD 0 0 < 1e-12)) =
        ((R.getD 0 0, Buffer.getD (fun _ => 0 : Buffer p ℝ) 0), true)
      rw [decide_eq_false hquiet, hzero]
      rfl
    obtain ⟨⟨err, a⟩, hloop, hview⟩ := forLoopBreak_eq_passes hpass (Nat.zero_le p) hstart
    exact ⟨err, a, hloop, hview⟩

/-- `levinson_durbin` gets to iteration `i`, with `head j` the error and the coefficients at
the head of each iteration `j` up to it. -/
def Iterates (R : Buffer (p + 1) ℝ) (head : ℕ → ℝ × Buffer p ℝ) (i : ℕ) : Prop :=
  1e-12 ≤ R 0 ∧ GetsTo p (durbinPass R) (R 0, fun _ => 0) head i

namespace Iterates

variable {R : Buffer (p + 1) ℝ} {head : ℕ → ℝ × Buffer p ℝ}

theorem levinsonDurbin_eq (h : Iterates R head i) :
    levinsonDurbin p R = forLoopBreak p (durbinPass R) i (head i) := by
  have hread : R.read 0 = some (R 0) := dif_pos (Nat.succ_pos p)
  rw [← h.2.forLoopBreak_eq]
  unfold levinsonDurbin
  rw [hread, Option.bind_eq_bind, Option.bind_some, if_neg (not_lt.mpr h.1)]

theorem err_le (h : Iterates R head i) : 1e-12 ≤ (head i).1 := by
  apply h.2.invariant (I := fun _ acc => 1e-12 ≤ acc.1) h.1
  intro j acc hj _ hstep
  obtain ⟨a, hpass, -⟩ :=
    durbinPass_spec R (hj.trans h.2.lt) (Nat.lt_succ_self p) (head j) rfl rfl
  rw [hpass] at hstep
  obtain ⟨rfl, hmore⟩ := Prod.mk.inj (Option.some.inj hstep)
  have hgt := of_decide_eq_false (Bool.not_eq_true' _ ▸ hmore)
  exact (not_le.mp hgt).le

theorem err_ne_zero (h : Iterates R head i) : (head i).1 ≠ 0 := by
  have hpos : (0 : ℝ) < 1e-12 := by norm_num
  exact (hpos.trans_le h.err_le).ne'

end Iterates

/-- No iteration divides by zero, and whatever `R` is, the filter of the coefficients is
stable. -/
theorem levinsonDurbin_stable (p : ℕ) (R : Buffer (p + 1) ℝ) :
    (∀ head i, Iterates R head i → (head i).1 ≠ 0) ∧
      ∃ err a, levinsonDurbin p R = some (err, a) ∧
        ∀ z : ℂ, z ^ p + ∑ j : Fin p, (a j : ℂ) * z ^ (p - 1 - j) = 0 → ‖z‖ < 1 := by
  refine ⟨fun head i h => h.err_ne_zero, ?_⟩
  obtain ⟨err, a, hlevinson, hpredictor⟩ := levinsonDurbin_spec (Nat.lt_succ_self p) R
  have hdominates : Dominates (a.getD 0) p := by
    have hcoeff : a.getD 0 = (predictor (R.getD 0) p).2 := congrArg Prod.snd hpredictor
    rw [hcoeff]
    exact dominates_durbin abs_clamped_lt_one
  refine ⟨err, a, hlevinson, fun z hz => hdominates.norm_lt_one ?_⟩
  unfold predictorPoly
  rw [sum_range, ← hz]
  apply congrArg (z ^ p + ·)
  apply sum_congr rfl
  intro j _
  dsimp only
  rw [Buffer.getD_of_lt _ _ j.isLt]

/-! ## The normal equations -/

def Solved (R : Buffer m ℝ) (i : ℕ) (acc : ℝ × Buffer p ℝ) : Prop :=
  SolvesNormal (R.getD 0) (acc.2.getD 0) i acc.1 ∧ ∀ j, i ≤ j → acc.2.getD 0 j = 0

theorem durbinPass_solved (R : Buffer m ℝ) (hi : i < p) (hm : p < m) {acc : ℝ × Buffer p ℝ}
    (hacc : Solved R i acc) (herr : acc.1 ≠ 0) (hclamp : |reflection R acc i| ≤ 0.999) :
    ∃ acc' more, durbinPass R i acc = some (acc', more) ∧ Solved R (i + 1) acc' := by
  obtain ⟨a, hstep, ha⟩ :=
    durbinPass_spec R hi hm acc (clamped_of_abs_le hclamp).symm rfl
  refine ⟨_, _, hstep, ?_, ?_⟩
  · dsimp only
    rw [ha]
    exact hacc.1.stepUp herr rfl
  · intro j hj
    dsimp only
    rw [ha, stepUp_of_gt hj]
    exact hacc.2 j (by omega)

namespace Iterates

variable {R : Buffer (p + 1) ℝ} {head : ℕ → ℝ × Buffer p ℝ}

theorem of_le (h : Iterates R head i) {j : ℕ} (hj : j ≤ i) : Iterates R head j :=
  ⟨h.1, h.2.of_le hj⟩

theorem solved (h : Iterates R head i) (hclamp : ∀ j < i, |reflection R (head j) j| ≤ 0.999) :
    Solved R i (head i) := by
  apply h.2.invariant (I := Solved R)
  · have hfirst : R 0 = R.getD 0 0 := (R.getD_of_lt 0 (Nat.succ_pos p)).symm
    rw [hfirst]
    exact ⟨solvesNormal_zero _ _, fun j _ => Buffer.getD_of_const (fun _ => rfl) j⟩
  · intro j acc hj hsolved hstep
    obtain ⟨acc', more, hpass, hacc'⟩ := durbinPass_solved R (hj.trans h.2.lt)
      (Nat.lt_succ_self p) hsolved (h.of_le hj.le).err_ne_zero (hclamp j hj)
    rw [hpass] at hstep
    obtain ⟨rfl, -⟩ := Prod.mk.inj (Option.some.inj hstep)
    exact hacc'

end Iterates

/-- As long as no reflection was clamped, an iteration leaves the solution of the normal
equations of its order, which the rest of the run goes on from. -/
theorem normal_equations (R : Buffer (p + 1) ℝ) (head : ℕ → ℝ × Buffer p ℝ) (i : ℕ)
    (h : Iterates R head i) (hclamp : ∀ j ≤ i, |reflection R (head j) j| ≤ 0.999) :
    ∃ err a more, durbinPass R i (head i) = some ((err, a), more) ∧
      (levinsonDurbin p R =
        if more then forLoopBreak p (durbinPass R) (i + 1) (err, a) else some (err, a)) ∧
      (∀ m ≤ i, ∑ j ∈ range (i + 1), a.getD 0 j * R.getD 0 (m.dist j) = -R.getD 0 (m + 1)) ∧
      (∀ j, i < j → a.getD 0 j = 0) ∧
      err = R.getD 0 0 + ∑ j ∈ range (i + 1), a.getD 0 j * R.getD 0 (j + 1) := by
  have hbefore := h.solved fun j hj => hclamp j hj.le
  obtain ⟨⟨err, a⟩, more, hstep, hsolves, hzero⟩ := durbinPass_solved R h.2.lt
    (Nat.lt_succ_self p) hbefore h.err_ne_zero (hclamp i le_rfl)
  refine ⟨err, a, more, hstep, ?_, ?_, hzero, hsolves.error⟩
  · rw [h.levinsonDurbin_eq, forLoopBreak, if_pos h.2.lt, hstep, Option.bind_some]
  · intro m hm
    exact hsolves.equations m (Nat.lt_succ_of_le hm)

def halved : Buffer 3 ℝ := ![1, 0.5, 0.5]

def halvedHead : ℕ → ℝ × Buffer 2 ℝ
  | 0 => (1, fun _ => 0)
  | _ + 1 => (0.75, ![-0.5, 0])

theorem reflection_halved_zero : reflection halved (halvedHead 0) 0 = -0.5 := by
  have hR : halved.getD 0 1 = 0.5 := rfl
  unfold reflection reflectionOf lagResidual halvedHead
  rw [sum_range_zero, hR]
  norm_num

theorem reflection_halved_one : reflection halved (halvedHead 1) 1 = -1 / 3 := by
  have hR : halved.getD 0 1 = 0.5 := rfl
  have hR' : halved.getD 0 2 = 0.5 := rfl
  have ha : (halvedHead 1).2.getD 0 0 = -0.5 := rfl
  have herr : (halvedHead 1).1 = 0.75 := rfl
  unfold reflection reflectionOf lagResidual
  rw [sum_range_one, hR', hR, ha, herr]
  norm_num

theorem iterates_halved : Iterates halved halvedHead 1 := by
  refine ⟨?_, Nat.one_lt_two, rfl, ?_⟩
  · show (1e-12 : ℝ) ≤ 1
    norm_num
  · intro j hj
    obtain rfl := Nat.lt_one_iff.mp hj
    have hki : (-0.5 : ℝ) = clamped (reflection halved (halvedHead 0) 0) := by
      rw [reflection_halved_zero, clamped_of_abs_le (by norm_num [abs_le])]
    obtain ⟨a, hpass, ha⟩ :=
      durbinPass_spec halved Nat.zero_lt_two (Nat.lt_succ_self 2) (halvedHead 0) hki rfl
    have hcoeff : a = ![-0.5, 0] := by
      ext k
      have hk := congrFun ha k
      rw [Buffer.getD_of_lt _ _ k.isLt] at hk
      rw [hk]
      fin_cases k <;> simp [stepUp, halvedHead, Buffer.getD]
    rw [hpass, hcoeff]
    norm_num [halvedHead]

theorem normal_equations_halved :
    ∃ err a more, durbinPass halved 1 (0.75, ![-0.5, 0]) = some ((err, a), more) ∧
      (levinsonDurbin 2 halved =
        if more then forLoopBreak 2 (durbinPass halved) 2 (err, a) else some (err, a)) ∧
      (∀ m ≤ 1, ∑ j ∈ range 2, a.getD 0 j * halved.getD 0 (m.dist j) =
        -halved.getD 0 (m + 1)) ∧
      (∀ j, 1 < j → a.getD 0 j = 0) ∧
      err = halved.getD 0 0 + ∑ j ∈ range 2, a.getD 0 j * halved.getD 0 (j + 1) := by
  apply normal_equations halved halvedHead 1 iterates_halved
  intro j hj
  rcases Nat.le_one_iff_eq_zero_or_eq_one.mp hj with rfl | rfl
  · rw [reflection_halved_zero]
    norm_num [abs_le]
  · rw [reflection_halved_one]
    norm_num [abs_le]

end

end Roomsync.Pipeline.Plc
