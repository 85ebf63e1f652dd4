import Roomsync.Pipeline.Noise.Fft
import Mathlib.Data.Sym.Sym2
/-!
# The bit-reversal loop, watched

The first loop of `radix2_fft` with a record of its swap tests and of its swaps.  The
second counter runs through the reversals of the first, and of the two indices of a pair
the lower one comes first and exchanges them.
-/

namespace Roomsync.Pipeline.Noise

open Roomsync.Lib

section Code

variable {R : Type*} {size : ℕ}

/-- `i` and `j` at the swap tests and at the swaps, in their order. -/
structure SwapLog where
  tests : List (ℕ × ℕ)
  swaps : List (ℕ × ℕ)

def watchedPass (n i : ℕ) (s : SwapLog × ℕ × Buffer size R) :
    Option (SwapLog × ℕ × Buffer size R) := do
  let j := carryDown (n >>> 1) s.2.1
  let log := { s.1 with tests := s.1.tests ++ [(i, j)] }
  if i < j then
    let x ← s.2.2.swap i j
    return ({ log with swaps := log.swaps ++ [(i, j)] }, j, x)
  else
    return (log, j, s.2.2)

def watchedReversal (x : Buffer size R) : Option (SwapLog × Buffer size R) := do
  let n := wrapInt size
  let s ← intLoop (fun i => wrapInt (i + 1)) n (watchedPass n.toNat) 1 (⟨[], []⟩, 0, x)
  return (s.1, s.2.2)

end Code

/-! ## What the record adds -/

section Record

variable {R : Type*} {size : ℕ}

def SwapLog.record (log : SwapLog) (i j : ℕ) : SwapLog where
  tests := log.tests ++ [(i, j)]
  swaps := if i < j then log.swaps ++ [(i, j)] else log.swaps

theorem watchedPass_eq (n i : ℕ) (s : SwapLog × ℕ × Buffer size R) :
    watchedPass n i s = (reversalPass n i s.2).map fun r => (s.1.record i r.1, r) := by
  unfold watchedPass reversalPass SwapLog.record
  dsimp only
  by_cases hlt : i < carryDown (n >>> 1) s.2.1
  · rw [if_pos hlt, if_pos hlt]
    cases hswap : s.2.2.swap i (carryDown (n >>> 1) s.2.1) with
    | none => rfl
    | some x => simp [hlt]
  · simp [hlt]

theorem watchedReversal_snd (x : Buffer size R) :
    (watchedReversal x).map Prod.snd = bitReversal x := by
  have hpass : ∀ i (s : SwapLog × ℕ × Buffer size R),
      (watchedPass (wrapInt size).toNat i s).map Prod.snd =
        reversalPass (wrapInt size).toNat i s.2 := by
    intro i s
    rw [watchedPass_eq, Option.map_map]
    exact Option.map_id'
  have hloop : (intLoop (fun i => wrapInt (i + 1)) (wrapInt size)
      (watchedPass (wrapInt size).toNat) 1 (⟨[], []⟩, 0, x)).map Prod.snd =
        intLoop (fun i => wrapInt (i + 1)) (wrapInt size)
          (reversalPass (wrapInt size).toNat) 1 (0, x) := intLoop_map hpass 1 _
  unfold watchedReversal bitReversal
  dsimp only
  rw [← hloop]
  cases intLoop (fun i => wrapInt (i + 1)) (wrapInt size)
    (watchedPass (wrapInt size).toNat) 1 (⟨[], []⟩, 0, x) <;> rfl

end Record

/-! ## The order of the indices -/

section Order

variable {m i : ℕ}

def reversals (m k : ℕ) : List (ℕ × ℕ) := (List.range' 1 k).map fun i => (i, bitReverse m i)

/-- The record of these tests: the lower index of a pair swaps. -/
def SwapLog.ofTests (tests : List (ℕ × ℕ)) : SwapLog where
  tests := tests
  swaps := tests.filter fun p => p.1 < p.2

theorem reversals_succ (m k : ℕ) :
    reversals m (k + 1) = reversals m k ++ [(k + 1, bitReverse m (k + 1))] := by
  unfold reversals
  rw [List.range'_1_concat, List.map_append, List.map_singleton, Nat.add_comm 1 k]

theorem SwapLog.record_ofTests (tests : List (ℕ × ℕ)) (i j : ℕ) :
    (ofTests tests).record i j = ofTests (tests ++ [(i, j)]) := by
  unfold record ofTests
  by_cases hlt : i < j
  · simp [hlt]
  · simp [hlt]

theorem mem_swaps {k : ℕ} {p : ℕ × ℕ} :
    p ∈ (SwapLog.ofTests (reversals m k)).swaps ↔
      ∃ i, (0 < i ∧ i ≤ k) ∧ i < bitReverse m i ∧ p = (i, bitReverse m i) := by
  unfold SwapLog.ofTests reversals
  simp only [List.mem_filter, List.mem_map, List.mem_range'_1, decide_eq_true_eq]
  constructor
  · intro h
    obtain ⟨⟨i, hi, hp⟩, hlt⟩ := h
    rw [← hp] at hlt
    exact ⟨i, by omega, hlt, hp.symm⟩
  · intro h
    obtain ⟨i, hi, hlt, hp⟩ := h
    rw [hp]
    exact ⟨⟨i, by omega, rfl⟩, hlt⟩

theorem nodup_reversals (m k : ℕ) : (reversals m k).Nodup := by
  apply List.Nodup.map _ List.nodup_range'
  intro i j hij
  exact congrArg Prod.fst hij

/-- No pair is swapped twice: the other index of a swap is above its reversal. -/
theorem nodup_swaps (m k : ℕ) :
    ((SwapLog.ofTests (reversals m k)).swaps.map fun p => s(p.1, p.2)).Nodup := by
  apply List.Nodup.map_on _ ((nodup_reversals m k).filter _)
  intro p hp q hq hpq
  obtain ⟨i, hi, hlt, rfl⟩ := mem_swaps.mp hp
  obtain ⟨j, hj, hlt', rfl⟩ := mem_swaps.mp hq
  rcases Sym2.eq_iff.mp hpq with ⟨hsame, -⟩ | ⟨hij, hji⟩
  · have hij : i = j := hsame
    rw [hij]
  · omega

theorem mem_swaps_of_ne (hi : i < 2 ^ m) (hne : i ≠ bitReverse m i) :
    s(i, bitReverse m i) ∈
      (SwapLog.ofTests (reversals m (2 ^ m - 1))).swaps.map fun p => s(p.1, p.2) := by
  have hpos : ∀ {j}, j ≠ bitReverse m j → 0 < j := by
    intro j hj
    apply Nat.pos_of_ne_zero
    intro hzero
    rw [hzero, bitReverse_zero] at hj
    exact hj rfl
  have hback := bitReverse_bitReverse hi
  have hrev := bitReverse_lt m i
  apply List.mem_map.mpr
  rcases Nat.lt_or_gt_of_ne hne with hlt | hgt
  · have hi' := hpos hne
    exact ⟨(i, bitReverse m i), mem_swaps.mpr ⟨i, by omega, hlt, rfl⟩, rfl⟩
  · have hi' : 0 < bitReverse m i := hpos (by rw [hback]; exact hne.symm)
    refine ⟨(bitReverse m i, i), mem_swaps.mpr ⟨bitReverse m i, by omega, ?_, ?_⟩, Sym2.eq_swap⟩
    · rw [hback]
      exact hgt
    · rw [hback]

end Order

/-! ## The loop -/

section Loop

variable {R : Type*} {m : ℕ} {f : ℕ → R}

theorem watchedReversal_spec (hm : m ≤ 30) {x : Buffer (2 ^ m) R} (hx : x.Holds f) :
    ∃ y, watchedReversal x = some (SwapLog.ofTests (reversals m (2 ^ m - 1)), y) ∧
      y.Holds fun k => f (bitReverse m k) := by
  have hlt : 2 ^ m < 2 ^ 31 := two_pow_lt_of_le hm (by omega)
  let I (i : ℕ) (s : SwapLog × ℕ × Buffer (2 ^ m) R) : Prop :=
    AtPass f i s.2 ∧ s.1 = SwapLog.ofTests (reversals m (i - 1))
  have hpass : ∀ i s, i < 2 ^ m → I i s →
      ∃ s', watchedPass (2 ^ m) i s = some s' ∧ I (i + 1) s' := by
    intro i s hi hs
    obtain ⟨hat, hlog⟩ := hs
    obtain ⟨r, hr, hnext⟩ := hat.pass hi
    have hj : r.1 = bitReverse m i := hnext.counter
    have hlast := reversals_succ m (i - 1)
    rw [Nat.sub_add_cancel hat.pos] at hlast
    refine ⟨(s.1.record i r.1, r), ?_, hnext, ?_⟩
    · rw [watchedPass_eq, hr, Option.map_some]
    · rw [hlog, hj, SwapLog.record_ofTests, Nat.add_sub_cancel, hlast]
  obtain ⟨s, hloop, hs, hlog⟩ := forLoop_succ_invariant hpass Nat.one_le_two_pow
    (show I 1 (⟨[], []⟩, 0, x) from ⟨AtPass.start hx, rfl⟩)
  refine ⟨s.2.2, ?_, hs.finish⟩
  unfold watchedReversal
  dsimp only
  rw [wrapInt_of_lt hlt, Int.toNat_natCast, intLoop_succ hlt, hloop, Option.bind_eq_bind,
    Option.bind_some, hlog]
  rfl

/-- The loop ends, with no access out of range, and leaves at each index what stood at its
reversal.  The tests go through the indices in order, each with its reversal, and every
pair of two indices is swapped once. -/
theorem bitReversal_permutes {m : ℕ} (hm : m ≤ 30) (x : Buffer (2 ^ m) R) :
    ∃ log y, watchedReversal x = some (log, y) ∧ bitReversal x = some y ∧
      (∀ i : Fin (2 ^ m), y i = x ⟨bitReverse m i, bitReverse_lt m i⟩) ∧
      (∀ i, ∀ b < m, (bitReverse m i).testBit b = i.testBit (m - 1 - b)) ∧
      log.tests = (List.range' 1 (2 ^ m - 1)).map (fun i => (i, bitReverse m i)) ∧
      ∀ i < 2 ^ m, i ≠ bitReverse m i →
        (log.swaps.map fun p => s(p.1, p.2)).count s(i, bitReverse m i) = 1 := by
  obtain ⟨y, hwatched, hy⟩ := watchedReversal_spec hm (x.holds_getD (x ⟨0, Nat.two_pow_pos m⟩))
  have hreversal : bitReversal x = some y := by
    rw [← watchedReversal_snd, hwatched, Option.map_some]
  refine ⟨_, y, hwatched, hreversal, ?_, fun i b hb => testBit_bitReverse i hb, rfl, ?_⟩
  · intro i
    rw [hy i i.isLt]
    exact x.getD_of_lt _ (bitReverse_lt m i)
  · intro i hi hne
    exact List.count_eq_one_of_mem (nodup_swaps m _) (mem_swaps_of_ne hi hne)

theorem bitReversal_permutes_eight :
    ∃ log y, watchedReversal (fun k : Fin (2 ^ 3) => k.val) = some (log, y) ∧
      bitReversal (fun k : Fin (2 ^ 3) => k.val) = some y ∧
      (∀ i : Fin (2 ^ 3), y i = bitReverse 3 i) ∧
      (∀ i, ∀ b < 3, (bitReverse 3 i).testBit b = i.testBit (3 - 1 - b)) ∧
      log.tests = (List.range' 1 (2 ^ 3 - 1)).map (fun i => (i, bitReverse 3 i)) ∧
      ∀ i < 2 ^ 3, i ≠ bitReverse 3 i →
        (log.swaps.map fun p => s(p.1, p.2)).count s(i, bitReverse 3 i) = 1 :=
  bitReversal_permutes (show 3 ≤ 30 by omega) _

theorem bitReversal_of_thirty_one {m : ℕ} (hm : m = 31) (x : Buffer (2 ^ m) R) :
    bitReversal x = some x := by
  have hn : 2 ^ m = 2147483648 := by
    rw [hm]
    norm_num
  have hnegative : wrapInt (2 ^ m : ℕ) ≤ (1 : ℕ) := by
    rw [hn]
    decide
  unfold bitReversal
  dsimp only
  rw [intLoop_of_le hnegative]
  rfl

theorem bitReversal_fails_at_thirty_one :
    ¬ ∀ m (x : Buffer (2 ^ m) ℕ), ∃ y, bitReversal x = some y ∧
      ∀ i : Fin (2 ^ m), y i = x ⟨bitReverse m i, bitReverse_lt m i⟩ := by
  intro hreverses
  obtain ⟨y, hy, hreversed⟩ := hreverses 31 fun k => k.val
  rw [bitReversal_of_thirty_one rfl] at hy
  obtain rfl := Option.some.inj hy
  have hone := hreversed ⟨1, by norm_num⟩
  exact absurd hone (by decide)

end Loop

end Roomsync.Pipeline.Noise
