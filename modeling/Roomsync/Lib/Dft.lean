import Roomsync.Lib.BitReverse
import Mathlib.Algebra.BigOperators.Fin
import Mathlib.Algebra.BigOperators.Intervals
import Mathlib.Algebra.BigOperators.Ring.Finset
/-!
# The discrete Fourier transform of a power of two

Over any commutative ring with a chain of roots `ω s`, each the square of the next,
the transform of length `2 ^ (s + 1)` is put together from two of length `2 ^ s`, over
the entries at even and at odd places.  Done from the shortest transforms up, this
meets the entries in bit-reversed order.
-/

namespace Roomsync.Lib

open Finset

variable {R : Type*} [CommRing R]

/-- `ω s` is a root of order `2 ^ s`, the square of the next one. -/
structure Twiddles (ω : ℕ → R) : Prop where
  sq : ∀ s, ω (s + 1) ^ 2 = ω s
  half : ∀ s, ω (s + 1) ^ 2 ^ s = -1

namespace Twiddles

variable {ω : ℕ → R}

theorem pow_eq_one (h : Twiddles ω) (s : ℕ) : ω s ^ 2 ^ s = 1 := by
  calc ω s ^ 2 ^ s = (ω (s + 1) ^ 2 ^ s) ^ 2 := by
        rw [← h.sq s, ← pow_mul, ← pow_mul, Nat.mul_comm]
    _ = 1 := by
        rw [h.half s]
        ring

theorem pow_double (h : Twiddles ω) (s k : ℕ) : ω (s + 1) ^ (2 * k) = ω s ^ k := by
  rw [pow_mul, h.sq]

end Twiddles

/-! ## Half-way transforms -/

/-- `∑ j, x j * ω ^ (j * k)`: the transform of `x`, for `ω` a root of order `n`. -/
def dft {n : ℕ} (ω : R) (x : Fin n → R) (k : Fin n) : R := ∑ j, x j * ω ^ (j.val * k.val)

theorem dft_sub {n : ℕ} (ω : R) (x y : Fin n → R) (k : Fin n) :
    dft ω (fun j => x j - y j) k = dft ω x k - dft ω y k := by
  unfold dft
  rw [← sum_sub_distrib]
  apply sum_congr rfl
  intro j _
  rw [sub_mul]

theorem dft_mul_left {n : ℕ} (ω c : R) (x : Fin n → R) (k : Fin n) :
    dft ω (fun j => c * x j) k = c * dft ω x k := by
  unfold dft
  rw [mul_sum]
  apply sum_congr rfl
  intro j _
  rw [mul_assoc]

theorem dft_zero {n : ℕ} (ω : R) (k : Fin n) : dft ω (fun _ => 0) k = 0 := by
  unfold dft
  exact sum_eq_zero fun j _ => zero_mul _

/-- The transform of the `2 ^ s` entries of `x` that lie `2 ^ d` apart, from the one
on that the digits of `b`, reversed, count to. -/
def partialDft (ω : ℕ → R) (x : ℕ → R) (d s b k : ℕ) : R :=
  ∑ j ∈ range (2 ^ s), x (j * 2 ^ d + bitReverse d b) * ω s ^ (j * k)

theorem partialDft_zero (ω : ℕ → R) (x : ℕ → R) (d b k : ℕ) :
    partialDft ω x d 0 b k = x (bitReverse d b) := by
  simp [partialDft]

theorem partialDft_full (ω : ℕ → R) (x : ℕ → R) {s : ℕ} (k : Fin (2 ^ s)) :
    partialDft ω x 0 s (k / 2 ^ s) (k % 2 ^ s) =
      dft (ω s) (fun j : Fin (2 ^ s) => x j) k := by
  have hterm : ∀ j, j * 2 ^ 0 + bitReverse 0 (k / 2 ^ s) = j := by
    intro j
    rw [bitReverse, Nat.pow_zero, Nat.mul_one, Nat.add_zero]
  simp only [partialDft, dft, hterm, Nat.mod_eq_of_lt k.isLt]
  rw [sum_range]

theorem sum_range_two_mul (f : ℕ → R) (n : ℕ) :
    ∑ j ∈ range (2 * n), f j = ∑ j ∈ range n, f (2 * j) + ∑ j ∈ range n, f (2 * j + 1) := by
  induction n with
  | zero => simp
  | succ n ih =>
      have hdouble : 2 * (n + 1) = 2 * n + 1 + 1 := by ring
      rw [hdouble, sum_range_succ, sum_range_succ, ih, sum_range_succ, sum_range_succ]
      ring

variable {ω : ℕ → R}

theorem partialDft_periodic (h : Twiddles ω) (x : ℕ → R) (d s b k : ℕ) :
    partialDft ω x d s b (k + 2 ^ s) = partialDft ω x d s b k := by
  unfold partialDft
  apply sum_congr rfl
  intro j _
  have hperiod : ω s ^ (j * (k + 2 ^ s)) = ω s ^ (j * k) := by
    rw [Nat.mul_add, pow_add, Nat.mul_comm j (2 ^ s), pow_mul (ω s) (2 ^ s), h.pow_eq_one,
      one_pow, mul_one]
  rw [hperiod]

/-- The butterfly: a transform from those of its even and its odd entries. -/
theorem partialDft_succ (h : Twiddles ω) (x : ℕ → R) (d s b k : ℕ) :
    partialDft ω x d (s + 1) b k =
      partialDft ω x (d + 1) s (2 * b) k +
        partialDft ω x (d + 1) s (2 * b + 1) k * ω (s + 1) ^ k := by
  have heven : bitReverse (d + 1) (2 * b) = bitReverse d b := by
    have hlow := bitReverse_low d b (c := 0) (by omega)
    rwa [Nat.zero_mul, Nat.zero_add] at hlow
  have hodd : bitReverse (d + 1) (2 * b + 1) = 2 ^ d + bitReverse d b := by
    have hlow := bitReverse_low d b (c := 1) (by omega)
    rwa [Nat.one_mul] at hlow
  unfold partialDft
  rw [Nat.pow_succ', sum_range_two_mul, sum_mul]
  congr 1
  · apply sum_congr rfl
    intro j _
    have hindex : 2 * j * 2 ^ d + bitReverse d b = j * 2 ^ (d + 1) + bitReverse d b := by ring
    rw [heven, hindex, Nat.mul_assoc, h.pow_double]
  · apply sum_congr rfl
    intro j _
    have hindex : (2 * j + 1) * 2 ^ d + bitReverse d b =
        j * 2 ^ (d + 1) + (2 ^ d + bitReverse d b) := by ring
    have hpower : (2 * j + 1) * k = 2 * (j * k) + k := by ring
    rw [hodd, hindex, hpower, pow_add (ω (s + 1)), h.pow_double, mul_assoc]

theorem partialDft_succ_add_half (h : Twiddles ω) (x : ℕ → R) (d s b k : ℕ) :
    partialDft ω x d (s + 1) b (k + 2 ^ s) =
      partialDft ω x (d + 1) s (2 * b) k -
        partialDft ω x (d + 1) s (2 * b + 1) k * ω (s + 1) ^ k := by
  rw [partialDft_succ h, partialDft_periodic h, partialDft_periodic h, pow_add, h.half]
  ring

end Roomsync.Lib
