import Mathlib.Algebra.BigOperators.Group.Finset.Basic
import Mathlib.Algebra.Group.Nat.Defs
import Mathlib.Data.Finset.Basic
import Mathlib.Logic.Function.Basic
import Mathlib.Tactic.Common
/-!
# Counting loops over buffers

`for (i = lo; i < hi; i = next(i))` with a body that may fail, and buffers of a fixed
length whose reads and writes fail out of range.  A proof about such code names what
holds at the head of each pass, and what the buffer holds as a function of the index.
-/

namespace Roomsync.Lib

/-! ## Loops -/

section Loop

variable {σ : Type*}

/-- `none` is a body that fails, or a counter that does not advance, so that the loop
would not end. -/
def forLoop (next : ℕ → ℕ) (hi : ℕ) (body : ℕ → σ → Option σ) (i : ℕ) (s : σ) : Option σ :=
  if i < hi then
    if i < next i then (body i s).bind fun s' => forLoop next hi body (next i) s'
    else none
  else some s
termination_by hi - i

variable {next : ℕ → ℕ} {hi : ℕ} {body : ℕ → σ → Option σ}

/-- If each pass takes `I` at its counter to `I` at the next one, the loop ends and `I`
holds at the counter that it ends with. -/
theorem forLoop_invariant {I : ℕ → σ → Prop}
    (hbody : ∀ i s, i < hi → I i s → i < next i ∧ ∃ s', body i s = some s' ∧ I (next i) s')
    {i : ℕ} {s : σ} (hs : I i s) :
    ∃ j s', hi ≤ j ∧ forLoop next hi body i s = some s' ∧ I j s' := by
  induction hn : hi - i using Nat.strong_induction_on generalizing i s with
  | _ n ih =>
      rw [forLoop]
      by_cases hi' : i < hi
      · obtain ⟨hnext, s', hs', hI⟩ := hbody i s hi' hs
        obtain ⟨j, t, hj, ht, hIt⟩ := ih (hi - next i) (by omega) hI rfl
        refine ⟨j, t, hj, ?_, hIt⟩
        rw [if_pos hi', if_pos hnext, hs', Option.bind_some, ht]
      · exact ⟨i, s, by omega, if_neg hi', hs⟩

theorem forLoop_succ_invariant {I : ℕ → σ → Prop}
    (hbody : ∀ i s, i < hi → I i s → ∃ s', body i s = some s' ∧ I (i + 1) s')
    {i : ℕ} {s : σ} (hi' : i ≤ hi) (hs : I i s) :
    ∃ s', forLoop (· + 1) hi body i s = some s' ∧ I hi s' := by
  have hpass : ∀ i s, i < hi → i ≤ hi ∧ I i s →
      i < i + 1 ∧ ∃ s', body i s = some s' ∧ i + 1 ≤ hi ∧ I (i + 1) s' := by
    intro i s hlt hs
    obtain ⟨s', hs', hI⟩ := hbody i s hlt hs.2
    exact ⟨by omega, s', hs', by omega, hI⟩
  obtain ⟨j, s', hj, hloop, hI⟩ := forLoop_invariant (I := fun i s => i ≤ hi ∧ I i s) hpass
    ⟨hi', hs⟩
  have hend : j = hi := by omega
  subst hend
  exact ⟨s', hloop, hI.2⟩

theorem forLoop_sum {M : Type*} [AddCommMonoid M] {body : ℕ → M → Option M} {f : ℕ → M}
    (hbody : ∀ i s, i < hi → body i s = some (s + f i)) (s : M) :
    forLoop (· + 1) hi body 0 s = some (s + ∑ i ∈ Finset.range hi, f i) := by
  let I (i : ℕ) (t : M) : Prop := t = s + ∑ j ∈ Finset.range i, f j
  have hpass : ∀ i t, i < hi → I i t → ∃ t', body i t = some t' ∧ I (i + 1) t' := by
    intro i t hlt ht
    subst ht
    refine ⟨_, hbody i _ hlt, ?_⟩
    show s + ∑ j ∈ Finset.range i, f j + f i = s + ∑ j ∈ Finset.range (i + 1), f j
    rw [Finset.sum_range_succ, add_assoc]
  have hstart : I 0 s := by
    show s = s + ∑ j ∈ Finset.range 0, f j
    rw [Finset.sum_range_zero, add_zero]
  obtain ⟨t, hloop, rfl⟩ := forLoop_succ_invariant hpass (Nat.zero_le hi) hstart
  exact hloop

/-! ### Counters of 32 bits -/

/-- The value of the low 32 bits of `z`, as an `int`. -/
def wrapInt (z : ℤ) : ℤ := z.bmod (2 ^ 32)

theorem wrapInt_of_lt {k : ℕ} (hk : k < 2 ^ 31) : wrapInt k = k := by
  unfold wrapInt
  rw [Int.bmod_eq_of_le (by omega) (by omega)]

/-- `for (int i = lo; i < hi; i = next(i))` from a counter that is not negative.  A counter
that does not advance, as one that has left the range of `int`, is `none` here too. -/
def intLoop (next : ℤ → ℤ) (hi : ℤ) (body : ℕ → σ → Option σ) (i : ℕ) (s : σ) : Option σ :=
  if i < hi then
    if i < next i then (body i s).bind fun s' => intLoop next hi body (next i).toNat s'
    else none
  else some s
termination_by (hi - i).toNat

theorem intLoop_eq_forLoop {nextInt : ℤ → ℤ} (hnext : ∀ i < hi, nextInt i = next i) (i : ℕ)
    (s : σ) : intLoop nextInt hi body i s = forLoop next hi body i s := by
  induction hn : hi - i using Nat.strong_induction_on generalizing i s with
  | _ n ih =>
      rw [intLoop, forLoop]
      by_cases hlt : i < hi
      · rw [if_pos (Int.ofNat_lt.mpr hlt), if_pos hlt, hnext i hlt, Int.toNat_natCast]
        by_cases hadvance : i < next i
        · rw [if_pos (Int.ofNat_lt.mpr hadvance), if_pos hadvance]
          congr 1
          ext s' : 1
          exact ih (hi - next i) (by omega) (next i) s' rfl
        · rw [if_neg (by omega), if_neg hadvance]
      · rw [if_neg (by omega), if_neg hlt]

theorem intLoop_succ (hhi : hi < 2 ^ 31) (i : ℕ) (s : σ) :
    intLoop (fun i => wrapInt (i + 1)) hi body i s = forLoop (· + 1) hi body i s := by
  apply intLoop_eq_forLoop
  intro i hi'
  rw [← Int.natCast_succ]
  exact wrapInt_of_lt (by omega)

theorem intLoop_of_le {next : ℤ → ℤ} {hi : ℤ} {i : ℕ} (h : hi ≤ i) (s : σ) :
    intLoop next hi body i s = some s := by
  rw [intLoop, if_neg (Int.not_lt.mpr h)]

theorem intLoop_of_not_lt {next : ℤ → ℤ} {hi : ℤ} {i : ℕ} (hlt : i < hi) (hnext : next i ≤ i)
    (s : σ) : intLoop next hi body i s = none := by
  rw [intLoop, if_pos hlt, if_neg (Int.not_lt.mpr hnext)]

theorem intLoop_eq_none {next : ℤ → ℤ} {hi : ℤ} {i j : ℕ} (hlt : i < hi) (hnext : next i = j)
    (h : ∀ s, intLoop next hi body j s = none) (s : σ) :
    intLoop next hi body i s = none := by
  rw [intLoop, if_pos hlt, hnext, Int.toNat_natCast]
  by_cases hadvance : (i : ℤ) < j
  · rw [if_pos hadvance]
    cases body i s with
    | none => rfl
    | some s' => exact h s'
  · exact if_neg hadvance

/-- A loop over a part of the state, which its passes compute from that part alone. -/
theorem intLoop_map {τ : Type*} {next : ℤ → ℤ} {hi : ℤ} {body' : ℕ → τ → Option τ} {view : σ → τ}
    (hbody : ∀ i s, (body i s).map view = body' i (view s)) (i : ℕ) (s : σ) :
    (intLoop next hi body i s).map view = intLoop next hi body' i (view s) := by
  induction hn : (hi - i).toNat using Nat.strong_induction_on generalizing i s with
  | _ n ih =>
      rw [intLoop, intLoop]
      by_cases hlt : i < hi
      · rw [if_pos hlt, if_pos hlt]
        by_cases hnext : i < next i
        · rw [if_pos hnext, if_pos hnext, ← hbody]
          cases hpass : body i s with
          | none => rfl
          | some s' => exact ih (hi - (next i).toNat).toNat (by omega) (next i).toNat s' rfl
        · rw [if_neg hnext, if_neg hnext, Option.map_none]
      · rw [if_neg hlt, if_neg hlt, Option.map_some]

/-- A loop that goes up by one and that its body may leave: the body says whether to go on. -/
def forLoopBreak (hi : ℕ) (body : ℕ → σ → Option (σ × Bool)) (i : ℕ) (s : σ) : Option σ :=
  if i < hi then
    (body i s).bind fun (s', more) =>
      if more then forLoopBreak hi body (i + 1) s' else some s'
  else some s
termination_by hi - i

/-- The loop gets to pass `i`, and `head j` is the state at the head of each pass `j` up to
that one. -/
structure GetsTo (hi : ℕ) (body : ℕ → σ → Option (σ × Bool)) (start : σ) (head : ℕ → σ)
    (i : ℕ) : Prop where
  lt : i < hi
  start : head 0 = start
  pass : ∀ j < i, body j (head j) = some (head (j + 1), true)

namespace GetsTo

variable {body : ℕ → σ → Option (σ × Bool)} {start : σ} {head : ℕ → σ} {i : ℕ}

theorem of_le (h : GetsTo hi body start head i) {j : ℕ} (hj : j ≤ i) :
    GetsTo hi body start head j where
  lt := hj.trans_lt h.lt
  start := h.start
  pass := by
    intro l hl
    exact h.pass l (hl.trans_le hj)

/-- What is left of the loop is the loop from that pass on. -/
theorem forLoopBreak_eq (h : GetsTo hi body start head i) :
    forLoopBreak hi body 0 start = forLoopBreak hi body i (head i) := by
  induction i with
  | zero => rw [h.start]
  | succ i ih =>
      have hprev := h.of_le (Nat.le_succ i)
      rw [ih hprev]
      conv_lhs => rw [forLoopBreak]
      rw [if_pos hprev.lt, h.pass i (Nat.lt_succ_self i), Option.bind_some]
      rfl

theorem invariant {I : ℕ → σ → Prop} (h : GetsTo hi body start head i) (hstart : I 0 start)
    (hpass : ∀ j s', j < i → I j (head j) → body j (head j) = some (s', true) →
      I (j + 1) s') : I i (head i) := by
  induction i with
  | zero =>
      rw [h.start]
      exact hstart
  | succ i ih =>
      have hI := ih (h.of_le (Nat.le_succ i)) fun j s' hj => hpass j s' (Nat.lt_succ_of_lt hj)
      exact hpass i _ (Nat.lt_succ_self i) hI (h.pass i (Nat.lt_succ_self i))

end GetsTo

/-! ### The loop without failures -/

section Passes

variable {τ : Type*} {spec : ℕ → τ → τ × Bool} {start : τ × Bool}

/-- The state after `n` passes, and whether the loop goes on; if not, it stays. -/
def passes (spec : ℕ → τ → τ × Bool) (start : τ × Bool) : ℕ → τ × Bool
  | 0 => start
  | n + 1 =>
      let s := passes spec start n
      if s.2 then spec n s.1 else s

theorem passes_succ_of_true {n : ℕ} (h : (passes spec start n).2 = true) :
    passes spec start (n + 1) = spec n (passes spec start n).1 := if_pos h

theorem passes_succ_of_false {n : ℕ} (h : (passes spec start n).2 = false) :
    passes spec start (n + 1) = passes spec start n :=
  if_neg (ne_of_eq_of_ne h Bool.false_ne_true)

theorem passes_of_stopped {n k : ℕ} (h : (passes spec start n).2 = false) (hk : n ≤ k) :
    passes spec start k = passes spec start n := by
  induction k, hk using Nat.le_induction with
  | base => rfl
  | succ k _ ih =>
      have hstopped : (passes spec start k).2 = false := by
        rw [ih]
        exact h
      rw [passes_succ_of_false hstopped, ih]

/-- A body that does not fail, seen through `view`, makes these passes. -/
theorem forLoopBreak_eq_passes {body : ℕ → σ → Option (σ × Bool)} {view : σ → τ}
    (hbody : ∀ i s, i < hi → ∃ s', body i s = some (s', (spec i (view s)).2) ∧
      view s' = (spec i (view s)).1) {i : ℕ} {s : σ} (hi' : i ≤ hi)
    (hs : passes spec start i = (view s, true)) :
    ∃ s', forLoopBreak hi body i s = some s' ∧ view s' = (passes spec start hi).1 := by
  induction hn : hi - i generalizing i s with
  | zero =>
      have hend : i = hi := by omega
      subst hend
      refine ⟨s, ?_, ?_⟩
      · rw [forLoopBreak, if_neg (Nat.lt_irrefl i)]
      · rw [hs]
  | succ n ih =>
      have hlt : i < hi := by omega
      obtain ⟨t, hstep, ht⟩ := hbody i s hlt
      have hgo : (passes spec start i).2 = true := by rw [hs]
      have hnext : passes spec start (i + 1) = (view t, (spec i (view s)).2) := by
        rw [passes_succ_of_true hgo, hs, ht]
      rw [forLoopBreak, if_pos hlt, hstep, Option.bind_some]
      cases hmore : (spec i (view s)).2 with
      | false =>
          rw [hmore] at hnext
          refine ⟨t, rfl, ?_⟩
          rw [passes_of_stopped (by rw [hnext]) hlt, hnext]
      | true =>
          rw [hmore] at hnext
          exact ih hlt hnext (by omega)

end Passes

end Loop

/-! ## Buffers -/

section Buffer

variable {α : Type*} {n : ℕ}

abbrev Buffer (n : ℕ) (α : Type*) := Fin n → α

namespace Buffer

def read (x : Buffer n α) (i : ℕ) : Option α := if h : i < n then some (x ⟨i, h⟩) else none

def write (x : Buffer n α) (i : ℕ) (v : α) : Option (Buffer n α) :=
  if h : i < n then some (Function.update x ⟨i, h⟩ v) else none

def swap (x : Buffer n α) (i j : ℕ) : Option (Buffer n α) := do
  let a ← x.read i
  let b ← x.read j
  let x ← x.write i b
  x.write j a

def getD (x : Buffer n α) (a : α) (i : ℕ) : α := if h : i < n then x ⟨i, h⟩ else a

def Holds (x : Buffer n α) (f : ℕ → α) : Prop := ∀ i (h : i < n), x ⟨i, h⟩ = f i

theorem getD_of_lt (x : Buffer n α) (a : α) {i : ℕ} (hi : i < n) : x.getD a i = x ⟨i, hi⟩ :=
  dif_pos hi

theorem getD_of_le (x : Buffer n α) (a : α) {i : ℕ} (hi : n ≤ i) : x.getD a i = a :=
  dif_neg (by omega)

theorem getD_of_const {x : Buffer n α} {a : α} (hx : ∀ i, x i = a) (i : ℕ) : x.getD a i = a := by
  unfold getD
  split
  · exact hx _
  · rfl

theorem getD_map {β : Type*} (f : α → β) (x : Buffer n α) (a : α) (i : ℕ) :
    Buffer.getD (fun j => f (x j)) (f a) i = f (x.getD a i) := by
  unfold getD
  split <;> rfl

theorem write_eq_some (x : Buffer n α) (a : α) {i : ℕ} (hi : i < n) (v : α) :
    ∃ x', x.write i v = some x' ∧ x'.getD a = Function.update (x.getD a) i v := by
  refine ⟨_, dif_pos hi, ?_⟩
  ext k
  rcases Nat.lt_or_ge k n with hk | hk
  · rw [getD_of_lt _ _ hk]
    by_cases hki : k = i
    · subst hki
      rw [Function.update_self, Function.update_self]
    · rw [Function.update_of_ne (fun h => hki (Fin.mk.inj h)), Function.update_of_ne hki,
        getD_of_lt _ _ hk]
  · rw [getD_of_le _ _ hk, Function.update_of_ne (by omega), getD_of_le _ _ hk]

theorem getD_injective (a : α) : Function.Injective fun x : Buffer n α => x.getD a := by
  intro x y h
  ext i
  have hi := congrFun h i.val
  dsimp only at hi
  rwa [getD_of_lt _ _ i.isLt, getD_of_lt _ _ i.isLt] at hi

theorem write_of_getD {x x' : Buffer n α} {a : α} {i : ℕ} (hi : i < n) {v : α}
    (h : x'.getD a = Function.update (x.getD a) i v) : x.write i v = some x' := by
  obtain ⟨y, hwrite, hy⟩ := x.write_eq_some a hi v
  rw [hwrite, getD_injective a (hy.trans h.symm)]

theorem holds_getD (x : Buffer n α) (a : α) : x.Holds (x.getD a) := by
  intro i hi
  exact (x.getD_of_lt a hi).symm

theorem write_of_read {x : Buffer n α} {i : ℕ} {v : α} (h : x.read i = some v) :
    x.write i v = some x := by
  unfold read at h
  unfold write
  split at h
  · rename_i hi
    obtain rfl := Option.some.inj h
    rw [dif_pos hi, Function.update_eq_self]
  · exact absurd h (Option.some_ne_none v).symm

namespace Holds

variable {x : Buffer n α} {f g : ℕ → α} {i j : ℕ}

theorem congr (hx : x.Holds f) (h : ∀ i < n, f i = g i) : x.Holds g := by
  intro i hi
  rw [hx i hi, h i hi]

theorem read (hx : x.Holds f) (hi : i < n) : x.read i = some (f i) := by
  unfold Buffer.read
  rw [dif_pos hi, hx i hi]

theorem write (hx : x.Holds f) (hi : i < n) (v : α) :
    ∃ x', x.write i v = some x' ∧ x'.Holds (Function.update f i v) := by
  refine ⟨_, dif_pos hi, ?_⟩
  intro k hk
  by_cases hki : k = i
  · subst hki
    rw [Function.update_self, Function.update_self]
  · rw [Function.update_of_ne (fun h => hki (Fin.mk.inj h)), Function.update_of_ne hki, hx k hk]

theorem swap (hx : x.Holds f) (hi : i < n) (hj : j < n) :
    ∃ x', x.swap i j = some x' ∧
      x'.Holds (Function.update (Function.update f i (f j)) j (f i)) := by
  obtain ⟨y, hy, hyHolds⟩ := hx.write hi (f j)
  obtain ⟨z, hz, hzHolds⟩ := hyHolds.write hj (f i)
  refine ⟨z, ?_, hzHolds⟩
  unfold Buffer.swap
  simp only [hx.read hi, hx.read hj, hy, hz, Option.bind_eq_bind, Option.bind_some]

theorem write_below (hx : x.Holds fun k => if k < i then g k else f k) (hi : i < n) :
    ∃ x', x.write i (g i) = some x' ∧ x'.Holds fun k => if k < i + 1 then g k else f k := by
  obtain ⟨x', hwrite, hx'⟩ := hx.write hi (g i)
  refine ⟨x', hwrite, hx'.congr fun k _ => ?_⟩
  by_cases hk : k = i
  · subst hk
    rw [Function.update_self, if_pos (by omega)]
  · rw [Function.update_of_ne hk]
    by_cases hki : k < i
    · rw [if_pos hki, if_pos (by omega)]
    · rw [if_neg hki, if_neg (by omega)]

theorem forLoop_write {hi : ℕ} (hhi : hi ≤ n) {body : ℕ → Buffer n α → Option (Buffer n α)}
    (hbody : ∀ i x, i < hi → x.read i = some (f i) → body i x = x.write i (g i))
    (hx : x.Holds f) :
    ∃ x', forLoop (· + 1) hi body 0 x = some x' ∧
      x'.Holds fun k => if k < hi then g k else f k := by
  let I (i : ℕ) (x : Buffer n α) : Prop := x.Holds fun k => if k < i then g k else f k
  have hpass : ∀ i x, i < hi → I i x → ∃ x', body i x = some x' ∧ I (i + 1) x' := by
    intro i x hlt hx
    have hread := hx.read (i := i) (by omega)
    rw [if_neg (by omega)] at hread
    rw [hbody i x hlt hread]
    exact hx.write_below (by omega)
  exact forLoop_succ_invariant hpass (Nat.zero_le hi) (hx.congr fun k _ => rfl)

theorem eq (hx : x.Holds f) : x = fun i : Fin n => f i := by
  ext i
  exact hx i i.isLt

theorem ofFn_eq (hx : x.Holds f) {m : ℕ} (hm : n = m) :
    List.ofFn x = List.ofFn fun i : Fin m => f i := by
  subst hm
  rw [hx.eq]

end Holds

end Buffer

end Buffer

end Roomsync.Lib
