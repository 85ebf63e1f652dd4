import Mathlib.Algebra.Order.Ring.Nat
import Mathlib.Data.Nat.Bitwise
import Mathlib.Tactic.Common
import Mathlib.Tactic.Ring
/-!
# Bit reversal

`bitReverse m i` is the number whose `m` binary digits are those of `i` in the
opposite order.  It is its own inverse, and takes the lowest digit of a number to the
highest of its image and the other way round.
-/

namespace Roomsync.Lib

/-- The lowest digit of `i` becomes the highest. -/
def bitReverse : ℕ → ℕ → ℕ
  | 0, _ => 0
  | m + 1, i => i % 2 * 2 ^ m + bitReverse m (i / 2)

theorem bitReverse_lt (m i : ℕ) : bitReverse m i < 2 ^ m := by
  induction m generalizing i with
  | zero => exact Nat.one_pos
  | succ m ih =>
      have htail := ih (i / 2)
      rw [bitReverse, Nat.pow_succ]
      rcases Nat.mod_two_eq_zero_or_one i with h | h <;> rw [h] <;> omega

theorem bitReverse_zero (m : ℕ) : bitReverse m 0 = 0 := by
  induction m with
  | zero => rfl
  | succ m ih => rw [bitReverse, Nat.zero_div, ih, Nat.zero_mod, Nat.zero_mul]

theorem bitReverse_high (m c : ℕ) {i : ℕ} (hc : c < 2) (hi : i < 2 ^ m) :
    bitReverse (m + 1) (c * 2 ^ m + i) = 2 * bitReverse m i + c := by
  induction m generalizing i with
  | zero =>
      have hzero : i = 0 := by
        rw [Nat.pow_zero] at hi
        omega
      subst hzero
      simp only [bitReverse, Nat.pow_zero]
      omega
  | succ m ih =>
      have hdouble : c * 2 ^ (m + 1) = 2 * (c * 2 ^ m) := by
        rw [Nat.pow_succ]
        ring
      have hlow : (c * 2 ^ (m + 1) + i) % 2 = i % 2 := by omega
      have hhigh : (c * 2 ^ (m + 1) + i) / 2 = c * 2 ^ m + i / 2 := by omega
      have htail := ih (i := i / 2) (by
        rw [Nat.pow_succ] at hi
        omega)
      calc bitReverse (m + 2) (c * 2 ^ (m + 1) + i)
          = i % 2 * 2 ^ (m + 1) + bitReverse (m + 1) (c * 2 ^ m + i / 2) := by
            rw [bitReverse, hlow, hhigh]
        _ = 2 * (i % 2 * 2 ^ m + bitReverse m (i / 2)) + c := by
            rw [htail, Nat.pow_succ]
            ring
        _ = 2 * bitReverse (m + 1) i + c := by rw [bitReverse]

theorem bitReverse_low (m b : ℕ) {c : ℕ} (hc : c < 2) :
    bitReverse (m + 1) (2 * b + c) = c * 2 ^ m + bitReverse m b := by
  have hlow : (2 * b + c) % 2 = c := by omega
  have hhigh : (2 * b + c) / 2 = b := by omega
  rw [bitReverse, hlow, hhigh]

theorem bitReverse_bitReverse {m i : ℕ} (hi : i < 2 ^ m) :
    bitReverse m (bitReverse m i) = i := by
  induction m generalizing i with
  | zero =>
      rw [Nat.pow_zero] at hi
      show 0 = i
      omega
  | succ m ih =>
      have hhalf : i / 2 < 2 ^ m := by
        rw [Nat.pow_succ] at hi
        omega
      have hinner : bitReverse (m + 1) i = i % 2 * 2 ^ m + bitReverse m (i / 2) := rfl
      rw [hinner, bitReverse_high m (i % 2) (Nat.mod_lt i (by omega)) (bitReverse_lt m _),
        ih hhalf]
      omega

theorem testBit_bitReverse {m b : ℕ} (i : ℕ) (hb : b < m) :
    (bitReverse m i).testBit b = i.testBit (m - 1 - b) := by
  induction m generalizing i with
  | zero => omega
  | succ m ih =>
      have hsplit : bitReverse (m + 1) i = 2 ^ m * (i % 2) + bitReverse m (i / 2) := by
        rw [bitReverse, Nat.mul_comm]
      rw [hsplit, Nat.testBit_two_pow_mul_add _ (bitReverse_lt m (i / 2))]
      by_cases hlow : b < m
      · have hplace : m - 1 - b + 1 = m + 1 - 1 - b := by omega
        rw [if_pos hlow, ih (i / 2) hlow, Nat.testBit_div_two, hplace]
      · have hplace : m + 1 - 1 - b = 0 := by omega
        have hdigit : b - m = 0 := by omega
        rw [if_neg hlow, hplace, hdigit, Nat.testBit_zero, Nat.testBit_zero, Nat.mod_mod]

/-! ## A single digit set or cleared -/

theorem xor_two_pow {m r : ℕ} (hr : r < 2 ^ m) : r ^^^ 2 ^ m = 2 ^ m + r := by
  have hor := Nat.two_pow_add_eq_or_of_lt hr 1
  rw [Nat.mul_one] at hor
  rw [hor]
  apply Nat.eq_of_testBit_eq
  intro i
  rw [Nat.testBit_xor, Nat.testBit_or, Nat.testBit_two_pow]
  by_cases hi : m = i
  · subst hi
    simp [Nat.testBit_lt_two_pow hr]
  · simp [hi]

theorem and_two_pow_of_lt {m r : ℕ} (hr : r < 2 ^ m) : r &&& 2 ^ m = 0 := by
  rw [Nat.and_two_pow, Nat.testBit_lt_two_pow hr, Bool.toNat_false, Nat.zero_mul]

theorem two_pow_add_xor {m r : ℕ} (hr : r < 2 ^ m) : (2 ^ m + r) ^^^ 2 ^ m = r := by
  rw [← xor_two_pow hr, Nat.xor_assoc, Nat.xor_self, Nat.xor_zero]

theorem two_pow_add_and {m r : ℕ} (hr : r < 2 ^ m) : (2 ^ m + r) &&& 2 ^ m = 2 ^ m := by
  rw [Nat.and_two_pow, Nat.testBit_two_pow_add_eq, Nat.testBit_lt_two_pow hr, Bool.not_false,
    Bool.toNat_true, Nat.one_mul]

end Roomsync.Lib
