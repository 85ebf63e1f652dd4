import Roomsync.Lib.Dft
import Mathlib.RingTheory.RootsOfUnity.Complex
/-!
# The discrete Fourier transform over the complex numbers

The root of unity is `exp (-2πi / n)`.  The transform multiplies the energy of its input
by `n`, and takes real entries to a spectrum whose upper half mirrors the lower one.
-/

namespace Roomsync.Lib

open Complex ComplexConjugate

noncomputable def rootOf (n : ℕ) : ℂ := exp (-2 * Real.pi * I / n)

theorem rootOf_pow (n k : ℕ) : rootOf n ^ k = exp (-2 * Real.pi * I * k / n) := by
  unfold rootOf
  rw [← Complex.exp_nat_mul]
  congr 1
  ring

theorem twiddles_rootOf : Twiddles fun s => rootOf (2 ^ s) where
  sq := by
    intro s
    rw [rootOf_pow, rootOf]
    congr 1
    push_cast
    rw [pow_succ]
    field_simp
  half := by
    intro s
    have hangle : -2 * Real.pi * I * ((2 ^ s : ℕ) : ℂ) / ((2 ^ (s + 1) : ℕ) : ℂ) =
        -(Real.pi * I) := by
      push_cast
      rw [pow_succ]
      field_simp
    rw [rootOf_pow, hangle, Complex.exp_neg, Complex.exp_pi_mul_I]
    norm_num

theorem isPrimitiveRoot_rootOf {n : ℕ} (hn : n ≠ 0) : IsPrimitiveRoot (rootOf n) n := by
  have hinv : rootOf n = (exp (2 * Real.pi * I / n))⁻¹ := by
    unfold rootOf
    rw [← Complex.exp_neg]
    congr 1
    ring
  rw [hinv]
  exact (isPrimitiveRoot_exp n hn).inv

theorem conj_rootOf (n : ℕ) : conj (rootOf n) = (rootOf n)⁻¹ := by
  unfold rootOf
  rw [← Complex.exp_conj, ← Complex.exp_neg]
  congr 1
  simp only [map_div₀, map_mul, map_neg, map_ofNat, map_natCast, conj_I, conj_ofReal]
  ring

theorem sum_rootOf_pow {n : ℕ} (a b : Fin n) :
    ∑ k : Fin n, rootOf n ^ (a.val * k.val) * conj (rootOf n ^ (b.val * k.val)) =
      if a = b then (n : ℂ) else 0 := by
  have hn : n ≠ 0 := Nat.ne_of_gt a.pos
  have hroot := isPrimitiveRoot_rootOf hn
  have hne : rootOf n ≠ 0 := Complex.exp_ne_zero _
  let ζ := rootOf n ^ a.val * (rootOf n ^ b.val)⁻¹
  have hterm : ∀ k : Fin n,
      rootOf n ^ (a.val * k.val) * conj (rootOf n ^ (b.val * k.val)) = ζ ^ k.val := by
    intro k
    rw [map_pow, conj_rootOf, inv_pow, mul_pow, inv_pow, ← pow_mul, ← pow_mul]
  have hsum : ∑ k : Fin n, ζ ^ k.val = ∑ k ∈ Finset.range n, ζ ^ k :=
    (Finset.sum_range fun k => ζ ^ k).symm
  rw [Finset.sum_congr rfl fun k _ => hterm k, hsum]
  by_cases hab : a = b
  · subst hab
    have hone : ζ = 1 := mul_inv_cancel₀ (pow_ne_zero _ hne)
    simp [hone]
  · have hζ : ζ ≠ 1 := by
      intro hone
      have hpow : rootOf n ^ a.val = rootOf n ^ b.val :=
        eq_of_mul_inv_eq_one hone
      exact hab (Fin.ext (hroot.pow_inj a.isLt b.isLt hpow))
    have hperiod : ζ ^ n = 1 := by
      rw [mul_pow, inv_pow, ← pow_mul, ← pow_mul, Nat.mul_comm, pow_mul, hroot.pow_eq_one,
        Nat.mul_comm, pow_mul, hroot.pow_eq_one, one_pow, one_pow, inv_one, mul_one]
    rw [if_neg hab, geom_sum_eq hζ, hperiod, sub_self, zero_div]

theorem sum_normSq_dft {n : ℕ} (x : Fin n → ℂ) :
    ∑ k, normSq (dft (rootOf n) x k) = n * ∑ j, normSq (x j) := by
  have hsquare : ∀ z : ℂ, (normSq z : ℂ) = z * conj z := fun z => (mul_conj z).symm
  apply Complex.ofReal_injective
  push_cast
  simp only [hsquare]
  calc ∑ k, dft (rootOf n) x k * conj (dft (rootOf n) x k)
      = ∑ k : Fin n, ∑ a : Fin n, ∑ b : Fin n, x a * conj (x b) *
          (rootOf n ^ (a.val * k.val) * conj (rootOf n ^ (b.val * k.val))) := by
        apply Finset.sum_congr rfl
        intro k _
        rw [dft, map_sum, Finset.sum_mul_sum]
        simp only [map_mul]
        apply Finset.sum_congr rfl
        intro a _
        apply Finset.sum_congr rfl
        intro b _
        ring
    _ = ∑ a : Fin n, ∑ b : Fin n, x a * conj (x b) *
          ∑ k : Fin n, rootOf n ^ (a.val * k.val) * conj (rootOf n ^ (b.val * k.val)) := by
        rw [Finset.sum_comm]
        apply Finset.sum_congr rfl
        intro a _
        rw [Finset.sum_comm]
        simp only [Finset.mul_sum]
    _ = n * ∑ j, x j * conj (x j) := by
        rw [Finset.mul_sum]
        apply Finset.sum_congr rfl
        intro a _
        simp only [sum_rootOf_pow, mul_ite, mul_zero, Finset.sum_ite_eq, Finset.mem_univ, if_true]
        ring

/-- The places `k` and `n - k` are conjugate, and the first is real. -/
def ConjSymmetric {n : ℕ} (x : Fin n → ℂ) : Prop :=
  ∀ k l : Fin n, n ∣ k.val + l.val → conj (x k) = x l

theorem conjSymmetric_dft {n : ℕ} {x : Fin n → ℂ} (hx : ∀ j, conj (x j) = x j) :
    ConjSymmetric (dft (rootOf n) x) := by
  intro k l ⟨c, hc⟩
  have hn : n ≠ 0 := Nat.ne_of_gt k.pos
  have hpow : ∀ j : Fin n, conj (rootOf n ^ (j.val * k.val)) = rootOf n ^ (j.val * l.val) := by
    intro j
    have hturn : rootOf n ^ (j.val * l.val) * rootOf n ^ (j.val * k.val) = 1 := by
      rw [← pow_add, ← Nat.mul_add, Nat.add_comm, hc, Nat.mul_left_comm, pow_mul,
        (isPrimitiveRoot_rootOf hn).pow_eq_one, one_pow]
    rw [map_pow, conj_rootOf, inv_pow]
    exact (eq_inv_of_mul_eq_one_left hturn).symm
  unfold dft
  rw [map_sum]
  apply Finset.sum_congr rfl
  intro j _
  rw [map_mul, hx, hpow]

/-- The lower half of what is symmetric about `m`, with the places `0` and `m` that have
no mirror image, makes up the whole. -/
theorem two_mul_sum_lower {f : ℕ → ℝ} {m : ℕ}
    (hf : ∀ k l, 0 < k → 0 < l → k + l = 2 * m → f k = f l) :
    2 * ∑ k ∈ Finset.range (m + 1), f k = ∑ k ∈ Finset.range (2 * m), f k + f 0 + f m := by
  have hmirror : ∑ i ∈ Finset.range m, f (m + i) = ∑ i ∈ Finset.range m, f (i + 1) := by
    rw [← Finset.sum_range_reflect (fun i => f (i + 1))]
    apply Finset.sum_congr rfl
    intro i hi
    rw [Finset.mem_range] at hi
    exact hf _ _ (by omega) (by omega) (by omega)
  have hupper := Finset.sum_range_add f m m
  have hfirst := Finset.sum_range_succ' f m
  have hlast := Finset.sum_range_succ f m
  rw [← Nat.two_mul, hmirror] at hupper
  linarith

/-! ## The inverse transform -/

noncomputable def idft {n : ℕ} (x : Fin n → ℂ) (i : Fin n) : ℂ :=
  dft (rootOf n)⁻¹ x i * (1 / n)

theorem conj_dft_conj {n : ℕ} (x : Fin n → ℂ) (i : Fin n) :
    conj (dft (rootOf n) (fun j => conj (x j)) i) = dft (rootOf n)⁻¹ x i := by
  unfold dft
  rw [map_sum]
  apply Finset.sum_congr rfl
  intro j _
  rw [map_mul, map_pow, conj_rootOf, conj_conj]

theorem idft_sub {n : ℕ} (x y : Fin n → ℂ) (i : Fin n) :
    idft (fun k => x k - y k) i = idft x i - idft y i := by
  unfold idft
  rw [dft_sub, sub_mul]

theorem idft_mul_left {n : ℕ} (c : ℂ) (x : Fin n → ℂ) (i : Fin n) :
    idft (fun k => c * x k) i = c * idft x i := by
  unfold idft
  rw [dft_mul_left, mul_assoc]

theorem idft_zero {n : ℕ} (i : Fin n) : idft (fun _ => 0) i = 0 := by
  unfold idft
  rw [dft_zero, zero_mul]

theorem idft_dft {n : ℕ} (x : Fin n → ℂ) (i : Fin n) : idft (dft (rootOf n) x) i = x i := by
  have hne : (n : ℂ) ≠ 0 := Nat.cast_ne_zero.mpr (Nat.ne_of_gt i.pos)
  have hpow : ∀ k : Fin n,
      (rootOf n)⁻¹ ^ (k.val * i.val) = conj (rootOf n ^ (i.val * k.val)) := by
    intro k
    rw [map_pow, conj_rootOf, Nat.mul_comm]
  have hsum : dft (rootOf n)⁻¹ (dft (rootOf n) x) i = x i * n := by
    calc dft (rootOf n)⁻¹ (dft (rootOf n) x) i
        = ∑ k : Fin n, ∑ j : Fin n, x j *
            (rootOf n ^ (j.val * k.val) * conj (rootOf n ^ (i.val * k.val))) := by
          apply Finset.sum_congr rfl
          intro k _
          rw [hpow, dft, Finset.sum_mul]
          apply Finset.sum_congr rfl
          intro j _
          ring
      _ = ∑ j : Fin n, x j *
            ∑ k : Fin n, rootOf n ^ (j.val * k.val) * conj (rootOf n ^ (i.val * k.val)) := by
          rw [Finset.sum_comm]
          simp only [Finset.mul_sum]
      _ = x i * n := by
          simp only [sum_rootOf_pow, mul_ite, mul_zero, Finset.sum_ite_eq', Finset.mem_univ,
            if_true]
  unfold idft
  rw [hsum]
  field_simp

theorem conj_idft_of_symmetric {n : ℕ} {x : Fin n → ℂ} (hx : ConjSymmetric x) (i : Fin n) :
    conj (idft x i) = idft x i := by
  have hn : NeZero n := ⟨Nat.ne_of_gt i.pos⟩
  have hne : rootOf n ≠ 0 := Complex.exp_ne_zero _
  have hperiod : rootOf n ^ n = 1 := (isPrimitiveRoot_rootOf hn.ne).pow_eq_one
  have hmirror : ∀ k : Fin n, n ∣ k.val + (-k).val := by
    intro k
    rw [Fin.val_neg']
    rcases Nat.eq_zero_or_pos k.val with hzero | hpos
    · simp [hzero]
    · rw [Nat.mod_eq_of_lt (by omega)]
      exact ⟨1, by omega⟩
  have hterm : ∀ k : Fin n, conj (x k * (rootOf n)⁻¹ ^ (k.val * i.val)) =
      x (-k) * (rootOf n)⁻¹ ^ ((-k).val * i.val) := by
    intro k
    obtain ⟨c, hc⟩ := hmirror k
    have hturn : rootOf n ^ (k.val * i.val) * rootOf n ^ ((-k).val * i.val) = 1 := by
      rw [← pow_add, ← Nat.add_mul, hc, Nat.mul_assoc, pow_mul, hperiod, one_pow]
    rw [map_mul, hx k (-k) (hmirror k), map_pow, map_inv₀, conj_rootOf, inv_inv, inv_pow]
    rw [eq_inv_of_mul_eq_one_left hturn]
  have hsum : conj (dft (rootOf n)⁻¹ x i) = dft (rootOf n)⁻¹ x i := by
    calc conj (dft (rootOf n)⁻¹ x i)
        = ∑ k : Fin n, x (-k) * (rootOf n)⁻¹ ^ ((-k).val * i.val) := by
          unfold dft
          rw [map_sum]
          exact Finset.sum_congr rfl fun k _ => hterm k
      _ = dft (rootOf n)⁻¹ x i :=
          Equiv.sum_comp (Equiv.neg (Fin n)) fun k => x k * (rootOf n)⁻¹ ^ (k.val * i.val)
  unfold idft
  rw [map_mul, hsum, map_div₀, map_one, map_natCast]

theorem dft_idft {n : ℕ} (x : Fin n → ℂ) (i : Fin n) : dft (rootOf n) (idft x) i = x i := by
  let z : Fin n → ℂ := fun j => conj (x j)
  have hback : idft (dft (rootOf n) z) i = z i := idft_dft z i
  have hturn : dft (rootOf n) (fun j => conj (dft (rootOf n) z j)) i =
      conj (dft (rootOf n)⁻¹ (dft (rootOf n) z) i) := by
    rw [← conj_dft_conj, conj_conj]
  have hscale : ∀ j, idft x j = conj (dft (rootOf n) z j) * (1 / n) := by
    intro j
    unfold idft
    rw [← conj_dft_conj]
  calc dft (rootOf n) (idft x) i
      = dft (rootOf n) (fun j => conj (dft (rootOf n) z j)) i * (1 / n) := by
        unfold dft
        rw [Finset.sum_mul]
        apply Finset.sum_congr rfl
        intro j _
        rw [hscale, mul_right_comm]
        rfl
    _ = conj (idft (dft (rootOf n) z) i) := by
        unfold idft
        rw [hturn, map_mul, map_div₀, map_one, map_natCast]
    _ = x i := by
        rw [hback]
        exact conj_conj (x i)

theorem sum_normSq_idft {n : ℕ} (hn : n ≠ 0) (x : Fin n → ℂ) :
    n * ∑ i, normSq (idft x i) = ∑ j, normSq (x j) := by
  have hne : (n : ℝ) ≠ 0 := Nat.cast_ne_zero.mpr hn
  have hterm : ∀ i, normSq (idft x i) =
      normSq (dft (rootOf n) (fun j => conj (x j)) i) * (1 / (n * n)) := by
    intro i
    unfold idft
    rw [← conj_dft_conj, normSq_mul, normSq_conj, normSq_div, normSq_one, normSq_natCast]
  rw [Finset.sum_congr rfl fun i _ => hterm i, ← Finset.sum_mul, sum_normSq_dft]
  simp only [normSq_conj]
  field_simp

/-! ## Multipliers

A real factor for each place of the spectrum, between the transform and its inverse.
-/

section Multiplier

variable {n : ℕ}

noncomputable def multiplier (g : Fin n → ℝ) (x : Fin n → ℂ) : Fin n → ℂ :=
  idft fun k => dft (rootOf n) x k * g k

theorem multiplier_const (c : ℝ) (x : Fin n → ℂ) (i : Fin n) :
    multiplier (fun _ => c) x i = c * x i := by
  have hscale : dft (rootOf n)⁻¹ (fun k => dft (rootOf n) x k * (c : ℂ)) i =
      c * dft (rootOf n)⁻¹ (dft (rootOf n) x) i := by
    unfold dft
    rw [Finset.mul_sum]
    apply Finset.sum_congr rfl
    intro k _
    ring
  have hinverse := idft_dft x i
  unfold idft at hinverse
  unfold multiplier idft
  rw [hscale, mul_assoc, hinverse]

theorem multiplier_one_sub (g : Fin n → ℝ) (x : Fin n → ℂ) (i : Fin n) :
    multiplier (fun k => 1 - g k) x i = x i - multiplier g x i := by
  have hone := multiplier_const 1 x i
  rw [ofReal_one, one_mul] at hone
  rw [← hone]
  unfold multiplier
  rw [← idft_sub]
  congr 1
  ext k
  push_cast
  ring

end Multiplier

end Roomsync.Lib
