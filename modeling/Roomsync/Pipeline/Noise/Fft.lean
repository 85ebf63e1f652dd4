import Roomsync.Lib.BitReverse
import Roomsync.Lib.Fourier
import Roomsync.Lib.Loop
import Mathlib.Tactic.Ring
/-!
# The in-place transform of the noise suppressor

`radix2_fft` of `noise_suppressor.cpp`: a bit-reversal permutation and stages of
butterflies over blocks that double in length.  The arithmetic is that of any
commutative ring, and `wlen len` the factor that a stage over blocks of `len` entries
takes from its angle; `float` is then read as a real number.  The counters are those of
`int`: the last length for which `len` does not leave it is `2 ^ 29`.
-/

namespace Roomsync.Pipeline.Noise

open Roomsync.Lib
open ComplexConjugate

section Code

variable {R : Type*} {size : ℕ}

/-- `for (; j & bit; bit >>= 1) j ^= bit; j ^= bit;`: the digits that are set are
cleared from `bit` down, and the first one that is not is set. -/
def carryDown (bit j : ℕ) : ℕ :=
  if j &&& bit ≠ 0 then carryDown (bit >>> 1) (j ^^^ bit) else j ^^^ bit
termination_by bit
decreasing_by
  have hpos : bit ≠ 0 := by
    rintro rfl
    simp at *
  rw [Nat.shiftRight_eq_div_pow]
  omega

/-- One pass of the first loop: `j` counts in step with `i`, by its reversed digits. -/
def reversalPass (n i : ℕ) (s : ℕ × Buffer size R) : Option (ℕ × Buffer size R) := do
  let j := carryDown (n >>> 1) s.1
  if i < j then
    let x ← s.2.swap i j
    return (j, x)
  else
    return (j, s.2)

/-- There is a pass only where `n`, the length as an `int`, is above one. -/
def bitReversal (x : Buffer size R) : Option (Buffer size R) := do
  let n := wrapInt size
  let s ← intLoop (fun i => wrapInt (i + 1)) n (reversalPass n.toNat) 1 (0, x)
  return s.2

variable [CommRing R]

/-- One pass of the innermost loop, with `w` and the entries. -/
def butterfly (wlen : R) (len i j : ℕ) (s : R × Buffer size R) : Option (R × Buffer size R) := do
  let u ← s.2.read (i + j)
  let v ← s.2.read (i + j + len / 2)
  let v := v * s.1
  let x ← s.2.write (i + j) (u + v)
  let x ← x.write (i + j + len / 2) (u - v)
  return (s.1 * wlen, x)

def block (wlen : R) (len i : ℕ) (x : Buffer size R) : Option (Buffer size R) := do
  let s ← intLoop (fun j => wrapInt (j + 1)) (len / 2 : ℕ) (butterfly wlen len i) 0 (1, x)
  return s.2

def stage (wlen : ℕ → R) (n : ℤ) (len : ℕ) (x : Buffer size R) : Option (Buffer size R) :=
  intLoop (fun i => wrapInt (i + len)) n (block (wlen len) len) 0 x

/-- The stages go on while `len <= n`. -/
def radix2Fft (wlen : ℕ → R) (x : Buffer size R) : Option (Buffer size R) := do
  let n := wrapInt size
  let x ← bitReversal x
  intLoop (fun len => wrapInt (len <<< (1 : ℕ))) (n + 1) (stage wlen n) 2 x

end Code

/-! ## The bit-reversal permutation -/

theorem carryDown_bitReverse {m i : ℕ} (hi : i + 1 < 2 ^ (m + 1)) :
    carryDown (2 ^ m) (bitReverse (m + 1) i) = bitReverse (m + 1) (i + 1) := by
  induction m generalizing i with
  | zero =>
      have hzero : i = 0 := by
        rw [Nat.zero_add, Nat.pow_one] at hi
        omega
      subst hzero
      rw [carryDown]
      rfl
  | succ m ih =>
      have htail := bitReverse_lt (m + 1) (i / 2)
      rw [carryDown]
      rcases Nat.mod_two_eq_zero_or_one i with heven | hodd
      · have hj : bitReverse (m + 2) i = bitReverse (m + 1) (i / 2) := by
          rw [bitReverse, heven, Nat.zero_mul, Nat.zero_add]
        have hnext : bitReverse (m + 2) (i + 1) =
            2 ^ (m + 1) + bitReverse (m + 1) (i / 2) := by
          have hlow : (i + 1) % 2 = 1 := by omega
          have hhigh : (i + 1) / 2 = i / 2 := by omega
          rw [bitReverse, hlow, hhigh, Nat.one_mul]
        rw [hj, hnext, and_two_pow_of_lt htail, if_neg (not_not.mpr rfl), xor_two_pow htail]
      · have hj : bitReverse (m + 2) i = 2 ^ (m + 1) + bitReverse (m + 1) (i / 2) := by
          rw [bitReverse, hodd, Nat.one_mul]
        have hnext : bitReverse (m + 2) (i + 1) = bitReverse (m + 1) (i / 2 + 1) := by
          have hlow : (i + 1) % 2 = 0 := by omega
          have hhigh : (i + 1) / 2 = i / 2 + 1 := by omega
          rw [bitReverse, hlow, hhigh, Nat.zero_mul, Nat.zero_add]
        have hshift : 2 ^ (m + 1) >>> 1 = 2 ^ m := by
          rw [Nat.shiftRight_one, Nat.pow_succ]
          omega
        rw [hj, hnext, two_pow_add_and htail, if_pos (Nat.two_pow_pos _).ne',
          two_pow_add_xor htail, hshift]
        apply ih
        rw [Nat.pow_succ] at hi
        omega

section Reversal

variable {R : Type*} {m : ℕ} {f : ℕ → R}

/-- Before the pass of `i`: the pairs with a place below `i` have been exchanged. -/
def reversedBelow (m : ℕ) (f : ℕ → R) (i k : ℕ) : R :=
  if k < i ∨ bitReverse m k < i then f (bitReverse m k) else f k

theorem reversedBelow_one {k : ℕ} (hk : k < 2 ^ m) : reversedBelow m f 1 k = f k := by
  unfold reversedBelow
  split
  · rename_i hzero
    have hk0 : k = 0 := by
      rcases hzero with hlt | hlt
      · omega
      · have hrev : bitReverse m k = 0 := by omega
        rw [← bitReverse_bitReverse hk, hrev, bitReverse_zero]
    rw [hk0, bitReverse_zero]
  · rfl

theorem reversedBelow_succ_of_le {i k : ℕ} (hi : i < 2 ^ m) (hk : k < 2 ^ m)
    (hle : bitReverse m i ≤ i) :
    reversedBelow m f (i + 1) k = reversedBelow m f i k := by
  have hinv := bitReverse_bitReverse hk
  have hinvi := bitReverse_bitReverse hi
  unfold reversedBelow
  by_cases hold : k < i ∨ bitReverse m k < i
  · rw [if_pos hold, if_pos (by omega)]
  · rw [if_neg hold]
    split
    · rename_i hnew
      have hfix : bitReverse m k = k := by
        have hcases : k = i ∨ bitReverse m k = i := by omega
        rcases hcases with rfl | hki
        · omega
        · rw [← hki, hinv] at hle
          omega
      rw [hfix]
    · rfl

theorem reversedBelow_succ_of_lt {i k : ℕ} (hi : i < 2 ^ m) (hk : k < 2 ^ m)
    (hlt : i < bitReverse m i) :
    Function.update (Function.update (reversedBelow m f i) i
        (reversedBelow m f i (bitReverse m i))) (bitReverse m i) (reversedBelow m f i i) k =
      reversedBelow m f (i + 1) k := by
  have hinv := bitReverse_bitReverse hk
  have hinvi := bitReverse_bitReverse hi
  have hfirst : reversedBelow m f i i = f i := if_neg (by omega)
  have hsecond : reversedBelow m f i (bitReverse m i) = f (bitReverse m i) :=
    if_neg (by omega)
  rw [hfirst, hsecond]
  by_cases hkj : k = bitReverse m i
  · subst hkj
    rw [Function.update_self]
    unfold reversedBelow
    rw [if_pos (by omega), hinvi]
  · rw [Function.update_of_ne hkj]
    by_cases hki : k = i
    · subst hki
      rw [Function.update_self]
      unfold reversedBelow
      rw [if_pos (by omega)]
    · have hother : bitReverse m k ≠ i := by
        intro h
        rw [← h, hinv] at hkj
        exact hkj rfl
      rw [Function.update_of_ne hki]
      unfold reversedBelow
      by_cases hold : k < i ∨ bitReverse m k < i
      · rw [if_pos hold, if_pos (by omega)]
      · rw [if_neg hold, if_neg (by omega)]

theorem reversalPass_spec {i : ℕ} (hpos : 0 < i) (hi : i < 2 ^ m)
    {s : ℕ × Buffer (2 ^ m) R} (hj : s.1 = bitReverse m (i - 1))
    (hx : s.2.Holds (reversedBelow m f i)) :
    ∃ x, reversalPass (2 ^ m) i s = some (bitReverse m i, x) ∧
      x.Holds (reversedBelow m f (i + 1)) := by
  have hcarry : carryDown (2 ^ m >>> 1) s.1 = bitReverse m i := by
    obtain ⟨m, rfl⟩ : ∃ p, m = p + 1 := by
      cases m with
      | zero =>
          rw [Nat.pow_zero] at hi
          omega
      | succ p => exact ⟨p, rfl⟩
    have hshift : 2 ^ (m + 1) >>> 1 = 2 ^ m := by
      rw [Nat.shiftRight_one, Nat.pow_succ]
      omega
    rw [hj, hshift, carryDown_bitReverse (by omega), Nat.sub_add_cancel hpos]
  unfold reversalPass
  rw [hcarry]
  by_cases hlt : i < bitReverse m i
  · obtain ⟨x, hswap, hholds⟩ := hx.swap hi (bitReverse_lt m i)
    refine ⟨x, ?_, hholds.congr fun k hk => reversedBelow_succ_of_lt hi hk hlt⟩
    simp only [if_pos hlt, hswap, Option.bind_eq_bind, Option.bind_some, Option.pure_def]
  · refine ⟨s.2, ?_, hx.congr fun k hk => ?_⟩
    · simp only [if_neg hlt, Option.pure_def]
    · exact (reversedBelow_succ_of_le hi hk (by omega)).symm

/-- What stands at the head of the pass of `i`. -/
structure AtPass (f : ℕ → R) (i : ℕ) (s : ℕ × Buffer (2 ^ m) R) : Prop where
  pos : 0 < i
  counter : s.1 = bitReverse m (i - 1)
  holds : s.2.Holds (reversedBelow m f i)

namespace AtPass

variable {i : ℕ} {s : ℕ × Buffer (2 ^ m) R}

theorem start {x : Buffer (2 ^ m) R} (hx : x.Holds f) : AtPass f 1 (0, x) where
  pos := Nat.one_pos
  counter := (bitReverse_zero m).symm
  holds := hx.congr fun _ hk => (reversedBelow_one hk).symm

theorem pass (h : AtPass f i s) (hi : i < 2 ^ m) :
    ∃ s', reversalPass (2 ^ m) i s = some s' ∧ AtPass f (i + 1) s' := by
  obtain ⟨y, hy, hholds⟩ := reversalPass_spec h.pos hi h.counter h.holds
  exact ⟨_, hy, Nat.succ_pos i, rfl, hholds⟩

theorem finish (h : AtPass f (2 ^ m) s) : s.2.Holds fun k => f (bitReverse m k) :=
  h.holds.congr fun _ hk => if_pos (Or.inl hk)

end AtPass

theorem two_pow_lt_of_le {m k l : ℕ} (hm : m ≤ k) (hkl : k < l) : 2 ^ m < 2 ^ l :=
  Nat.pow_lt_pow_right (by omega) (hm.trans_lt hkl)

theorem bitReversal_spec (hm : m ≤ 30) {x : Buffer (2 ^ m) R} (hx : x.Holds f) :
    ∃ x', bitReversal x = some x' ∧ x'.Holds fun k => f (bitReverse m k) := by
  have hlt : 2 ^ m < 2 ^ 31 := two_pow_lt_of_le hm (by omega)
  obtain ⟨s, hloop, hs⟩ := forLoop_succ_invariant (fun i s hi (h : AtPass f i s) => h.pass hi)
    Nat.one_le_two_pow (AtPass.start hx)
  refine ⟨s.2, ?_, hs.finish⟩
  unfold bitReversal
  dsimp only
  rw [wrapInt_of_lt hlt, Int.toNat_natCast, intLoop_succ hlt, hloop]
  rfl

end Reversal

/-! ## A stage -/

section Stage

variable {R : Type*} [CommRing R] {n : ℕ} {f : ℕ → R} {wlen : R} {half : ℕ}

def joined (wlen : R) (half : ℕ) (f : ℕ → R) (k : ℕ) : R :=
  if k % (2 * half) < half then f k + f (k + half) * wlen ^ (k % (2 * half))
  else f (k - half) - f k * wlen ^ (k % (2 * half) - half)

theorem joined_low {q j : ℕ} (hj : j < half) :
    joined wlen half f (q * (2 * half) + j) =
      f (q * (2 * half) + j) + f (q * (2 * half) + j + half) * wlen ^ j := by
  have hmod : (q * (2 * half) + j) % (2 * half) = j := by
    rw [Nat.mul_comm, Nat.mul_add_mod, Nat.mod_eq_of_lt (by omega)]
  unfold joined
  rw [hmod, if_pos hj]

theorem joined_high {q j : ℕ} (hj : j < half) :
    joined wlen half f (q * (2 * half) + j + half) =
      f (q * (2 * half) + j) - f (q * (2 * half) + j + half) * wlen ^ j := by
  have hmod : (q * (2 * half) + j + half) % (2 * half) = j + half := by
    rw [Nat.add_assoc, Nat.mul_comm, Nat.mul_add_mod, Nat.mod_eq_of_lt (by omega)]
  unfold joined
  rw [hmod, if_neg (by omega), Nat.add_sub_cancel, Nat.add_sub_cancel]

def joinedUpTo (wlen : R) (half : ℕ) (f : ℕ → R) (i j k : ℕ) : R :=
  if k < i + j ∨ i + half ≤ k ∧ k < i + j + half then joined wlen half f k else f k

theorem joinedUpTo_succ {q j k : ℕ} (hj : j < half) :
    Function.update (Function.update (joinedUpTo wlen half f (q * (2 * half)) j)
        (q * (2 * half) + j)
        (f (q * (2 * half) + j) + f (q * (2 * half) + j + half) * wlen ^ j))
        (q * (2 * half) + j + half)
        (f (q * (2 * half) + j) - f (q * (2 * half) + j + half) * wlen ^ j) k =
      joinedUpTo wlen half f (q * (2 * half)) (j + 1) k := by
  rw [← joined_low hj, ← joined_high hj]
  generalize q * (2 * half) = i
  by_cases hhigh : k = i + j + half
  · subst hhigh
    rw [Function.update_self]
    unfold joinedUpTo
    rw [if_pos (by omega)]
  · rw [Function.update_of_ne hhigh]
    by_cases hlow : k = i + j
    · subst hlow
      rw [Function.update_self]
      unfold joinedUpTo
      rw [if_pos (by omega)]
    · rw [Function.update_of_ne hlow]
      unfold joinedUpTo
      by_cases hdone : k < i + j ∨ i + half ≤ k ∧ k < i + j + half
      · rw [if_pos hdone, if_pos (by omega)]
      · rw [if_neg hdone, if_neg (by omega)]

theorem butterfly_spec {q j : ℕ} (hj : j < half) (hblock : (q + 1) * (2 * half) ≤ n)
    {s : R × Buffer n R} (hw : s.1 = wlen ^ j)
    (hx : s.2.Holds (joinedUpTo wlen half f (q * (2 * half)) j)) :
    ∃ x, butterfly wlen (2 * half) (q * (2 * half)) j s = some (wlen ^ (j + 1), x) ∧
      x.Holds (joinedUpTo wlen half f (q * (2 * half)) (j + 1)) := by
  have hroom : q * (2 * half) + j + half < n := by
    rw [Nat.add_mul, Nat.one_mul] at hblock
    omega
  have hhalf : 2 * half / 2 = half := by omega
  have hlow : joinedUpTo wlen half f (q * (2 * half)) j (q * (2 * half) + j) =
      f (q * (2 * half) + j) := if_neg (by omega)
  have hhigh : joinedUpTo wlen half f (q * (2 * half)) j (q * (2 * half) + j + half) =
      f (q * (2 * half) + j + half) := if_neg (by omega)
  have hread := hx.read (i := q * (2 * half) + j) (by omega)
  have hread' := hx.read hroom
  obtain ⟨y, hy, hyHolds⟩ := hx.write (i := q * (2 * half) + j) (by omega)
    (f (q * (2 * half) + j) + f (q * (2 * half) + j + half) * wlen ^ j)
  obtain ⟨z, hz, hzHolds⟩ := hyHolds.write hroom
    (f (q * (2 * half) + j) - f (q * (2 * half) + j + half) * wlen ^ j)
  refine ⟨z, ?_, hzHolds.congr fun k _ => joinedUpTo_succ hj⟩
  unfold butterfly
  simp only [hhalf, hread, hread', hlow, hhigh, hw, hy, hz, pow_succ, Option.bind_eq_bind,
    Option.bind_some, Option.pure_def]

theorem block_spec (hn : n < 2 ^ 30) {q : ℕ} (hblock : (q + 1) * (2 * half) ≤ n)
    {x : Buffer n R}
    (hx : x.Holds (joinedUpTo wlen half f (q * (2 * half)) 0)) :
    ∃ x', block wlen (2 * half) (q * (2 * half)) x = some x' ∧
      x'.Holds (joinedUpTo wlen half f ((q + 1) * (2 * half)) 0) := by
  have hhalf : 2 * half / 2 = half := by omega
  let I (j : ℕ) (s : R × Buffer n R) : Prop :=
    s.1 = wlen ^ j ∧ s.2.Holds (joinedUpTo wlen half f (q * (2 * half)) j)
  have hpass : ∀ j s, j < half → I j s →
      ∃ s', butterfly wlen (2 * half) (q * (2 * half)) j s = some s' ∧ I (j + 1) s' := by
    intro j s hj hs
    obtain ⟨y, hy, hholds⟩ := butterfly_spec hj hblock hs.1 hs.2
    exact ⟨_, hy, rfl, hholds⟩
  have hstart : I 0 (1, x) := ⟨(pow_zero wlen).symm, hx⟩
  obtain ⟨s, hloop, -, hs⟩ := forLoop_succ_invariant hpass (Nat.zero_le half) hstart
  refine ⟨s.2, ?_, hs.congr fun k hk => ?_⟩
  · have hrange : half < 2 ^ 31 := by
      rw [Nat.add_mul, Nat.one_mul] at hblock
      omega
    unfold block
    rw [hhalf, intLoop_succ hrange, hloop]
    rfl
  · unfold joinedUpTo
    rw [Nat.add_mul, Nat.one_mul]
    by_cases hdone : k < q * (2 * half) + 2 * half
    · rw [if_pos (by omega), if_pos (by omega)]
    · rw [if_neg (by omega), if_neg (by omega)]

theorem stage_spec (wlen : ℕ → R) (hn : n < 2 ^ 30) (hpos : 0 < half) (hle : 2 * half ≤ n)
    (hdvd : 2 * half ∣ n) {x : Buffer n R} (hx : x.Holds f) :
    ∃ x', stage wlen n (2 * half) x = some x' ∧
      x'.Holds (joined (wlen (2 * half)) half f) := by
  obtain ⟨p, hp⟩ := hdvd
  let I (i : ℕ) (x : Buffer n R) : Prop :=
    ∃ q, i = q * (2 * half) ∧ x.Holds (joinedUpTo (wlen (2 * half)) half f i 0)
  have hpass : ∀ i x, i < n → I i x → i < i + 2 * half ∧
      ∃ x', block (wlen (2 * half)) (2 * half) i x = some x' ∧ I (i + 2 * half) x' := by
    rintro _ x hi ⟨q, rfl, hx⟩
    have hq : q < p := by
      rw [hp, Nat.mul_comm] at hi
      exact Nat.lt_of_mul_lt_mul_left hi
    have hblock : (q + 1) * (2 * half) ≤ n := by
      rw [hp, Nat.mul_comm]
      exact Nat.mul_le_mul_left _ hq
    have hnext : q * (2 * half) + 2 * half = (q + 1) * (2 * half) := by ring
    obtain ⟨y, hy, hholds⟩ := block_spec hn hblock hx
    refine ⟨by omega, y, hy, q + 1, hnext, ?_⟩
    rw [hnext]
    exact hholds
  have hstart : I 0 x := ⟨0, (Nat.zero_mul _).symm, hx.congr fun k _ => (if_neg (by omega)).symm⟩
  have hstage : stage wlen n (2 * half) x =
      forLoop (· + 2 * half) n (block (wlen (2 * half)) (2 * half)) 0 x := by
    apply intLoop_eq_forLoop
    intro i hi
    rw [← Int.natCast_add]
    exact wrapInt_of_lt (by omega)
  obtain ⟨i, x', hi, hloop, -, -, hx'⟩ := forLoop_invariant hpass hstart
  refine ⟨x', hstage.trans hloop, hx'.congr fun k hk => ?_⟩
  unfold joinedUpTo
  rw [if_pos (by omega)]

end Stage

/-! ## The whole transform -/

section Transform

variable {R : Type*} [CommRing R] {ω : ℕ → R}

theorem low_half {half q j : ℕ} (hj : j < half) :
    (q * (2 * half) + j) / half = 2 * q ∧ (q * (2 * half) + j) % half = j := by
  have hsplit : q * (2 * half) + j = half * (2 * q) + j := by ring
  rw [hsplit, Nat.mul_add_div (by omega), Nat.div_eq_of_lt hj, Nat.mul_add_mod,
    Nat.mod_eq_of_lt hj]
  exact ⟨rfl, rfl⟩

theorem high_half {half q j : ℕ} (hj : j < half) :
    (q * (2 * half) + j + half) / half = 2 * q + 1 ∧
      (q * (2 * half) + j + half) % half = j := by
  obtain ⟨hquot, hrem⟩ := low_half (q := q) hj
  rw [Nat.add_div_right _ (by omega), Nat.add_mod_right, hquot, hrem]
  exact ⟨rfl, rfl⟩

/-- A stage takes the transforms of length `2 ^ s` to those of length `2 ^ (s + 1)`. -/
theorem joined_partialDft (hω : Twiddles ω) (f : ℕ → R) (d s k : ℕ) :
    joined (ω (s + 1)) (2 ^ s)
        (fun k => partialDft ω f (d + 1) s (k / 2 ^ s) (k % 2 ^ s)) k =
      partialDft ω f d (s + 1) (k / 2 ^ (s + 1)) (k % 2 ^ (s + 1)) := by
  have hdouble : 2 ^ (s + 1) = 2 * 2 ^ s := Nat.pow_succ'
  have hpos : 0 < 2 * 2 ^ s := by
    have hone := Nat.two_pow_pos s
    omega
  have hk : k = k / (2 * 2 ^ s) * (2 * 2 ^ s) + k % (2 * 2 ^ s) := (Nat.div_add_mod' k _).symm
  have hr := Nat.mod_lt k hpos
  rw [hdouble]
  generalize k / (2 * 2 ^ s) = q at hk ⊢
  generalize k % (2 * 2 ^ s) = j at hk hr ⊢
  subst hk
  by_cases hlow : j < 2 ^ s
  · obtain ⟨hquot, hrem⟩ := low_half (q := q) hlow
    obtain ⟨hquot', hrem'⟩ := high_half (q := q) hlow
    rw [joined_low hlow, hquot, hrem, hquot', hrem', partialDft_succ hω]
  · obtain ⟨i, rfl⟩ : ∃ i, j = i + 2 ^ s := ⟨j - 2 ^ s, by omega⟩
    have hi : i < 2 ^ s := by omega
    obtain ⟨hquot, hrem⟩ := low_half (q := q) hi
    obtain ⟨hquot', hrem'⟩ := high_half (q := q) hi
    rw [← Nat.add_assoc, joined_high hi, hquot, hrem, hquot', hrem',
      partialDft_succ_add_half hω]

theorem radix2Fft_eq_some (hω : Twiddles ω) {wlen : ℕ → R} (hwlen : ∀ s, wlen (2 ^ s) = ω s)
    {m : ℕ} (hm : m ≤ 29) (x : Buffer (2 ^ m) R) : radix2Fft wlen x = some (dft (ω m) x) := by
  let f := x.getD 0
  let I (len : ℕ) (y : Buffer (2 ^ m) R) : Prop :=
    ∃ s ≤ m, len = 2 ^ (s + 1) ∧
      y.Holds fun k => partialDft ω f (m - s) s (k / 2 ^ s) (k % 2 ^ s)
  have hroom : 2 ^ m < 2 ^ 30 := two_pow_lt_of_le hm (by omega)
  have hint : 2 ^ m < 2 ^ 31 := two_pow_lt_of_le hm (by omega)
  have hpass : ∀ len y, len < 2 ^ m + 1 → I len y →
      len < len <<< 1 ∧ ∃ y', stage wlen (2 ^ m : ℕ) len y = some y' ∧ I (len <<< 1) y' := by
    rintro _ y hlen ⟨s, hs, rfl, hy⟩
    have hlt : s + 1 ≤ m := (Nat.pow_le_pow_iff_right (by omega)).mp (Nat.le_of_lt_succ hlen)
    have hshift : 2 ^ (s + 1) <<< 1 = 2 ^ (s + 2) := by
      rw [Nat.shiftLeft_eq, ← Nat.pow_add]
    have hdouble : 2 ^ (s + 1) = 2 * 2 ^ s := Nat.pow_succ'
    have hdvd : 2 * 2 ^ s ∣ 2 ^ m := hdouble ▸ Nat.pow_dvd_pow 2 hlt
    obtain ⟨y', hstage, hy'⟩ := stage_spec wlen hroom (Nat.two_pow_pos s)
      (Nat.le_of_dvd (Nat.two_pow_pos m) hdvd) hdvd hy
    rw [← hdouble] at hstage hy'
    refine ⟨?_, y', hstage, s + 1, hlt, hshift, hy'.congr fun k _ => ?_⟩
    · rw [hshift]
      exact Nat.pow_lt_pow_right (by omega) (by omega)
    · have hdepth : m - s = m - (s + 1) + 1 := by omega
      rw [hwlen, hdepth, joined_partialDft hω]
  obtain ⟨y, hreversal, hy⟩ := bitReversal_spec (by omega) (x.holds_getD 0)
  have hstart : I 2 y := by
    refine ⟨0, Nat.zero_le m, rfl, hy.congr fun k _ => ?_⟩
    rw [Nat.sub_zero, partialDft_zero, Nat.pow_zero, Nat.div_one]
  obtain ⟨len, z, hlen, hloop, s, hs, rfl, hz⟩ := forLoop_invariant hpass hstart
  have hend : s = m := by
    have hle : 2 ^ m < 2 ^ (s + 1) := by omega
    have hlt := (Nat.pow_lt_pow_iff_right (by omega)).mp hle
    omega
  subst hend
  have hstages : intLoop (fun len => wrapInt (len <<< (1 : ℕ))) (2 ^ s + 1 : ℕ)
      (stage wlen (2 ^ s : ℕ)) 2 y =
        forLoop (· <<< 1) (2 ^ s + 1) (stage wlen (2 ^ s : ℕ)) 2 y := by
    apply intLoop_eq_forLoop
    intro len hlen
    have hrange : len <<< 1 < 2 ^ 31 := by
      rw [Nat.shiftLeft_eq]
      omega
    rw [← Int.natCast_shiftLeft]
    exact wrapInt_of_lt hrange
  unfold radix2Fft
  dsimp only
  rw [wrapInt_of_lt hint, hreversal, Option.bind_eq_bind, Option.bind_some, ← Int.natCast_succ,
    hstages, hloop, hz.eq]
  congr 1
  ext k
  rw [Nat.sub_self, partialDft_full]
  congr 1
  exact ((x.holds_getD 0).eq).symm

/-- For `2 ^ 30` entries the last `len <<= 1` leaves `int`. -/
theorem radix2Fft_of_thirty (wlen : ℕ → R) {m : ℕ} (hm : m = 30) (x : Buffer (2 ^ m) R) :
    radix2Fft wlen x = none := by
  have hn : 2 ^ m = 1073741824 := by
    rw [hm]
    norm_num
  have hlast : wrapInt (((2 ^ m : ℕ) : ℤ) <<< (1 : ℕ)) ≤ (2 ^ m : ℕ) := by
    rw [hn]
    decide
  have hloop : ∀ k < m, ∀ y : Buffer (2 ^ m) R,
      intLoop (fun len => wrapInt (len <<< (1 : ℕ))) (2 ^ m + 1 : ℕ) (stage wlen (2 ^ m : ℕ))
        (2 ^ (m - k)) y = none := by
    intro k hk
    induction k with
    | zero => exact intLoop_of_not_lt (by rw [Nat.sub_zero]; omega) hlast
    | succ k ih =>
        have hlt : 2 ^ (m - (k + 1)) < 2 ^ m := Nat.pow_lt_pow_right (by omega) (by omega)
        have hdouble : 2 ^ (m - (k + 1)) <<< 1 = 2 ^ (m - k) := by
          rw [Nat.shiftLeft_eq, ← Nat.pow_add]
          congr 1
          omega
        have hrange : 2 ^ (m - k) < 2 ^ 31 := Nat.pow_lt_pow_right (by omega) (by omega)
        have hnext : wrapInt (((2 ^ (m - (k + 1)) : ℕ) : ℤ) <<< (1 : ℕ)) = (2 ^ (m - k) : ℕ) := by
          rw [← Int.natCast_shiftLeft, hdouble]
          exact wrapInt_of_lt hrange
        exact intLoop_eq_none (by omega) hnext (ih (by omega))
  obtain ⟨y, hreversal, -⟩ := bitReversal_spec hm.le (x.holds_getD 0)
  have hstages := hloop (m - 1) (by omega) y
  have htwo : m - (m - 1) = 1 := by omega
  rw [htwo] at hstages
  unfold radix2Fft
  dsimp only
  rw [wrapInt_of_lt (by omega), hreversal, Option.bind_eq_bind, Option.bind_some,
    ← Int.natCast_succ]
  exact hstages

end Transform

/-! ## Over the complex numbers -/

/-- `wlen`, of the angle `-2π / len`. -/
noncomputable def twiddle (len : ℕ) : ℂ :=
  let ang : ℝ := -2.0 * Real.pi / len
  ⟨Real.cos ang, Real.sin ang⟩

noncomputable def radix2Ifft {n : ℕ} (x : Buffer n ℂ) : Option (Buffer n ℂ) := do
  let y ← radix2Fft twiddle fun i => conj (x i)
  let inv : ℂ := 1 / n
  return fun i => conj (y i) * inv

theorem twiddle_eq (len : ℕ) : twiddle len = rootOf len := by
  have htwo : (-2.0 : ℝ) = -2 := by norm_num
  have hangle : -2 * Real.pi * Complex.I / len = (-2.0 * Real.pi / len : ℝ) * Complex.I := by
    rw [htwo]
    push_cast
    ring
  unfold rootOf
  rw [hangle, Complex.exp_mul_I, ← Complex.ofReal_cos, ← Complex.ofReal_sin]
  exact Complex.mk_eq_add_mul_I _ _

theorem radix2Fft_twiddle {n m : ℕ} (hn : n = 2 ^ m) (hm : m ≤ 29) (x : Buffer n ℂ) :
    radix2Fft twiddle x = some (dft (rootOf n) x) := by
  subst hn
  exact radix2Fft_eq_some twiddles_rootOf (fun s => twiddle_eq (2 ^ s)) hm x

theorem radix2Ifft_eq_some {n m : ℕ} (hn : n = 2 ^ m) (hm : m ≤ 29) (x : Buffer n ℂ) :
    radix2Ifft x = some (idft x) := by
  unfold radix2Ifft
  rw [radix2Fft_twiddle hn hm, Option.bind_eq_bind, Option.bind_some]
  simp only [Option.pure_def, conj_dft_conj]
  rfl

/-- Each of the two transforms undoes the other. -/
theorem radix2_round_trip {m : ℕ} (hm : m ≤ 29) (x : Buffer (2 ^ m) ℂ) :
    (radix2Fft twiddle x).bind radix2Ifft = some x ∧
      (radix2Ifft x).bind (radix2Fft twiddle) = some x := by
  constructor
  · rw [radix2Fft_twiddle rfl hm, Option.bind_some, radix2Ifft_eq_some rfl hm]
    exact congrArg some (funext (idft_dft x))
  · rw [radix2Ifft_eq_some rfl hm, Option.bind_some, radix2Fft_twiddle rfl hm]
    exact congrArg some (funext (dft_idft x))

theorem radix2_round_trip_eight :
    (radix2Fft twiddle fun k : Fin (2 ^ 3) => (k.val : ℂ)).bind radix2Ifft =
        some (fun k : Fin (2 ^ 3) => (k.val : ℂ)) ∧
      (radix2Ifft fun k : Fin (2 ^ 3) => (k.val : ℂ)).bind (radix2Fft twiddle) =
        some (fun k : Fin (2 ^ 3) => (k.val : ℂ)) :=
  radix2_round_trip (show 3 ≤ 29 by omega) _

theorem radix2_round_trip_fails_at_thirty :
    ¬ ∀ m (x : Buffer (2 ^ m) ℂ), (radix2Fft twiddle x).bind radix2Ifft = some x := by
  intro hback
  have hsome := hback 30 fun _ => 0
  rw [radix2Fft_of_thirty twiddle rfl] at hsome
  exact absurd hsome.symm (Option.some_ne_none _)

/-- `x[k]` becomes the sum of `x[j] * exp (-2πijk / n)`. -/
theorem radix2Fft_eq_sum_exp {m : ℕ} (hm : m ≤ 29) (x : Buffer (2 ^ m) ℂ) :
    radix2Fft twiddle x = some fun k =>
      ∑ j : Fin (2 ^ m), x j *
        Complex.exp (-2 * Real.pi * Complex.I * j.val * k.val / (2 ^ m : ℕ)) := by
  rw [radix2Fft_twiddle rfl hm]
  congr 1
  ext k
  apply Finset.sum_congr rfl
  intro j _
  rw [rootOf_pow, Nat.cast_mul, ← mul_assoc]

theorem radix2Fft_eq_sum_exp_eight :
    radix2Fft twiddle (fun k : Fin (2 ^ 3) => (k.val : ℂ)) = some fun k : Fin (2 ^ 3) =>
      ∑ j : Fin (2 ^ 3), (j.val : ℂ) *
        Complex.exp (-2 * Real.pi * Complex.I * j.val * k.val / (2 ^ 3 : ℕ)) :=
  radix2Fft_eq_sum_exp (show 3 ≤ 29 by omega) _

theorem radix2Fft_fails_at_thirty :
    ¬ ∀ m (x : Buffer (2 ^ m) ℂ), radix2Fft twiddle x = some fun k =>
      ∑ j : Fin (2 ^ m), x j *
        Complex.exp (-2 * Real.pi * Complex.I * j.val * k.val / (2 ^ m : ℕ)) := by
  intro htransform
  have hsome := htransform 30 fun _ => 0
  rw [radix2Fft_of_thirty twiddle rfl] at hsome
  exact absurd hsome.symm (Option.some_ne_none _)

end Roomsync.Pipeline.Noise
