import Mathlib.Algebra.Ring.Nat
import Mathlib.Data.List.Induction
import Mathlib.Tactic.Common
import Mathlib.Tactic.Ring
/-!
# Byte strings

Byte strings are lists of octets.  `bigEndian` is the fixed-width unsigned
encoding of wire headers and nonces, `ofBigEndian` reads it back.
-/

namespace Roomsync.Lib

abbrev Bytes := List UInt8

/-- The `width` low-order base-256 digits of `n`, most significant first. -/
def bigEndian : ℕ → ℕ → Bytes
  | 0, _ => []
  | width + 1, n => bigEndian width (n / 256) ++ [UInt8.ofNat (n % 256)]

@[simp] theorem length_bigEndian (width n : ℕ) : (bigEndian width n).length = width := by
  induction width generalizing n with
  | zero => rfl
  | succ width ih => simp [bigEndian, ih]

theorem bigEndian_inj {width m n : ℕ} (hm : m < 256 ^ width) (hn : n < 256 ^ width)
    (h : bigEndian width m = bigEndian width n) : m = n := by
  induction width generalizing m n with
  | zero =>
      rw [Nat.pow_zero] at hm hn
      omega
  | succ width ih =>
      have hparts := List.append_inj' h rfl
      have hhigh : m / 256 = n / 256 := by
        rw [Nat.pow_succ] at hm hn
        exact ih (by omega) (by omega) hparts.1
      have hlow : m % 256 = n % 256 := by
        have hdigit := congrArg UInt8.toNat (List.singleton_inj.mp hparts.2)
        simpa using hdigit
      omega

def ofBigEndian (b : Bytes) : ℕ := b.foldl (fun acc octet => acc * 256 + octet.toNat) 0

@[simp] theorem ofBigEndian_nil : ofBigEndian [] = 0 := rfl

theorem ofBigEndian_concat (b : Bytes) (octet : UInt8) :
    ofBigEndian (b ++ [octet]) = ofBigEndian b * 256 + octet.toNat := by
  unfold ofBigEndian
  rw [List.foldl_append, List.foldl_cons, List.foldl_nil]

theorem ofBigEndian_bigEndian {width n : ℕ} (hn : n < 256 ^ width) :
    ofBigEndian (bigEndian width n) = n := by
  induction width generalizing n with
  | zero =>
      rw [Nat.pow_zero] at hn
      have hzero : n = 0 := by omega
      rw [hzero]
      rfl
  | succ width ih =>
      have hhigh : ofBigEndian (bigEndian width (n / 256)) = n / 256 := by
        rw [Nat.pow_succ] at hn
        exact ih (by omega)
      have hlow : (UInt8.ofNat (n % 256)).toNat = n % 256 := by simp
      rw [bigEndian, ofBigEndian_concat, hhigh, hlow]
      omega

/-! ## Order

Byte strings are compared octet by octet from the left.  Among those of one length
that is the order of the numbers they spell.
-/

theorem ofBigEndian_append (a b : Bytes) :
    ofBigEndian (a ++ b) = ofBigEndian a * 256 ^ b.length + ofBigEndian b := by
  induction b using List.reverseRecOn with
  | nil => simp
  | append_singleton b octet ih =>
      rw [← List.append_assoc, ofBigEndian_concat, ih, ofBigEndian_concat, List.length_append,
        List.length_singleton, pow_succ]
      ring

theorem ofBigEndian_lt (b : Bytes) : ofBigEndian b < 256 ^ b.length := by
  induction b using List.reverseRecOn with
  | nil => simp
  | append_singleton b octet ih =>
      have hoctet := octet.toNat_lt
      rw [ofBigEndian_concat, List.length_append, List.length_singleton, pow_succ]
      omega

theorem placeValue_lt_iff {base high high' low low' : ℕ} (hlow : low < base)
    (hlow' : low' < base) :
    high * base + low < high' * base + low' ↔ high < high' ∨ high = high' ∧ low < low' := by
  rcases Nat.lt_trichotomy high high' with h | h | h
  · have hstep : (high + 1) * base ≤ high' * base := Nat.mul_le_mul_right base h
    rw [Nat.add_mul] at hstep
    simp only [h, true_or, iff_true]
    omega
  · subst h
    simp
  · have hstep : (high' + 1) * base ≤ high * base := Nat.mul_le_mul_right base h
    rw [Nat.add_mul] at hstep
    omega

theorem ofBigEndian_lt_iff {a b : Bytes} (h : a.length = b.length) :
    ofBigEndian a < ofBigEndian b ↔ a < b := by
  induction a generalizing b with
  | nil =>
      rw [List.eq_nil_of_length_eq_zero h.symm]
      simp
  | cons x a ih =>
      cases b with
      | nil => exact absurd h (by simp)
      | cons y b =>
          have hlength : a.length = b.length := Nat.succ.inj h
          have hvalue : ∀ (octet : UInt8) (c : Bytes), ofBigEndian (octet :: c) =
              octet.toNat * 256 ^ c.length + ofBigEndian c := by
            intro octet c
            rw [← List.singleton_append, ofBigEndian_append]
            simp [ofBigEndian]
          rw [hvalue, hvalue, ← hlength,
            placeValue_lt_iff (ofBigEndian_lt a) (hlength ▸ ofBigEndian_lt b), ih hlength,
            List.cons_lt_cons_iff, UInt8.lt_iff_toNat_lt, UInt8.toNat_inj]

end Roomsync.Lib
