import Mathlib
import PhaseVocoder.Signal.Sample
import PhaseVocoder.Proofs.Basic
import PhaseVocoder.Spectrum.Phase
import PhaseVocoder.Frame.Window

/-!
# Exact arithmetic

Read over the real numbers, the scalars and samples of the spectral stages are exact: `ofNat`
and `ofInt` are the casts, π and its reciprocal are exact, sine and cosine are the real
functions, `hypot` is `√(x² + y²)`, the argument is the principal argument of the complex
number (with `arg 0 = 0`), and truncation goes toward zero, saturating as on the machine.
Samples are the reals and widening is the identity.

In these terms a phasor is a complex number (`Phasor.toComplex`): `norm` and `arg` are its
modulus and principal argument, and a phasor built by `polar` from its own modulus and an angle
equal to its argument up to whole turns is the phasor itself (`polar_norm_of_angle`). The phase
wraps subtract whole even numbers of half turns (`halfTurns_exact`, `radians_exact`), so they
keep every angle up to whole turns; with the machine's 64-bit turn count they succeed for every
argument below `2^60`. The window is `sin²((j + ½) π / 1024)` at every place, and its squares
over the four frames covering a sample add up to `3/2` (`sum_sq_sin_sq`).
-/

namespace PhaseVocoder

open Real

/-- Exact scalars. -/
noncomputable instance : Scalar ℝ where
  ofNat n := n
  ofInt n := n
  pi := π
  invPi := π⁻¹
  sin := Real.sin
  cos := Real.cos
  hypot x y := √(x ^ 2 + y ^ 2)
  arg y x := Complex.arg ⟨x, y⟩
  truncate x := max (-9223372036854775808) (min 9223372036854775807 (if 0 ≤ x then ⌊x⌋ else ⌈x⌉))
  lt a b := decide (a < b)
  le a b := decide (a ≤ b)

/-- Exact samples; the epsilon of the ramps keeps its binary32 value. -/
noncomputable instance : SampleArith ℝ where
  ofNat n := n
  abs x := |x|
  lt a b := decide (a < b)
  le a b := decide (a ≤ b)
  epsilon := 2⁻¹ ^ 23

/-- Real samples are the scalars themselves. -/
instance : Widening ℝ ℝ := ⟨id, id⟩

namespace Exact

@[simp] theorem ofNat_eq (n : ℕ) : (Scalar.ofNat n : ℝ) = n := rfl
@[simp] theorem ofInt_eq (n : ℤ) : (Scalar.ofInt n : ℝ) = n := rfl
@[simp] theorem numeral_zero : (@OfNat.ofNat ℝ 0 (Scalar.instOfNat 0) : ℝ) = 0 := Nat.cast_zero
@[simp] theorem numeral_one : (@OfNat.ofNat ℝ 1 (Scalar.instOfNat 1) : ℝ) = 1 := Nat.cast_one
@[simp] theorem numeral_ofNat (n : ℕ) [n.AtLeastTwo] :
    (@OfNat.ofNat ℝ n (Scalar.instOfNat n) : ℝ) = OfNat.ofNat n := rfl
@[simp] theorem pi_eq : (Scalar.pi : ℝ) = π := rfl
@[simp] theorem invPi_eq : (Scalar.invPi : ℝ) = π⁻¹ := rfl
@[simp] theorem sin_eq (x : ℝ) : Scalar.sin x = Real.sin x := rfl
@[simp] theorem cos_eq (x : ℝ) : Scalar.cos x = Real.cos x := rfl
@[simp] theorem le_eq (a b : ℝ) : Scalar.le a b = decide (a ≤ b) := rfl
@[simp] theorem lt_eq (a b : ℝ) : Scalar.lt a b = decide (a < b) := rfl

end Exact

/-! ## Phasors as complex numbers -/

namespace Phasor

/-- A phasor of reals as a complex number. -/
def toComplex (z : Phasor ℝ) : ℂ := ⟨z.re, z.im⟩

/-- A complex number as a phasor. -/
def ofComplex (z : ℂ) : Phasor ℝ := ⟨z.re, z.im⟩

@[simp] theorem toComplex_ofComplex (z : ℂ) : (ofComplex z).toComplex = z := rfl

@[simp] theorem ofComplex_toComplex (z : Phasor ℝ) : ofComplex z.toComplex = z := rfl

@[simp] theorem toComplex_re (z : Phasor ℝ) : z.toComplex.re = z.re := rfl

@[simp] theorem toComplex_im (z : Phasor ℝ) : z.toComplex.im = z.im := rfl

theorem toComplex_injective : Function.Injective toComplex := fun z w h => by
  rw [← ofComplex_toComplex z, h, ofComplex_toComplex]

@[simp] theorem toComplex_conj (z : Phasor ℝ) : z.conj.toComplex = (starRingEnd ℂ) z.toComplex := by
  apply Complex.ext <;> simp [conj, toComplex]

@[simp] theorem toComplex_zero : (zero : Phasor ℝ).toComplex = 0 := by
  apply Complex.ext <;> simp [zero, toComplex]

theorem norm_eq (z : Phasor ℝ) : z.norm = ‖z.toComplex‖ := by
  rw [Complex.norm_eq_sqrt_sq_add_sq]; rfl

theorem arg_eq (z : Phasor ℝ) : z.arg = z.toComplex.arg := rfl

/-- A phasor rebuilt from its own modulus at an angle equal to its argument up to whole turns
is itself. -/
theorem polar_norm_of_angle (z : Phasor ℝ) {θ : ℝ} (h : (θ : Real.Angle) = (z.arg : Real.Angle)) :
    polar z.norm θ = z := by
  have hc : Real.cos θ = Real.cos z.arg := by
    simpa only [Real.Angle.cos_coe] using congrArg Real.Angle.cos h
  have hs : Real.sin θ = Real.sin z.arg := by
    simpa only [Real.Angle.sin_coe] using congrArg Real.Angle.sin h
  apply toComplex_injective
  apply Complex.ext
  · change z.norm * Real.cos θ = z.re
    rw [hc, norm_eq, arg_eq, Complex.norm_mul_cos_arg]; rfl
  · change z.norm * Real.sin θ = z.im
    rw [hs, norm_eq, arg_eq, Complex.norm_mul_sin_arg]; rfl

theorem eq_zero_of_norm (z : Phasor ℝ) (h : z.norm = 0) : z = zero := by
  apply toComplex_injective
  rw [toComplex_zero, ← norm_eq_zero, ← norm_eq, h]

theorem abs_arg_le (z : Phasor ℝ) : |z.arg| ≤ π := by
  rw [arg_eq, abs_le]
  exact ⟨(Complex.neg_pi_lt_arg _).le, Complex.arg_le_pi _⟩

end Phasor

/-! ## Wrapping phases -/

namespace Exact

theorem truncate_eq (x : ℝ) : Scalar.truncate x =
    max (-9223372036854775808) (min 9223372036854775807 (if 0 ≤ x then ⌊x⌋ else ⌈x⌉)) := rfl

/-- Truncation of a real of magnitude at most `2^62` does not saturate and lands within one
of it. -/
theorem truncate_spec {x : ℝ} (hx : |x| ≤ 2 ^ 62) :
    |x - Scalar.truncate x| < 1 ∧ |(Scalar.truncate x : ℝ)| ≤ 2 ^ 62 := by
  rw [abs_le] at hx
  obtain ⟨q, hq, h₁, h₂⟩ : ∃ q : ℤ, (if 0 ≤ x then ⌊x⌋ else ⌈x⌉) = q ∧
      |x - q| < 1 ∧ |(q : ℝ)| ≤ 2 ^ 62 := by
    refine ⟨_, rfl, ?_⟩
    split
    · rename_i h0
      have := Int.floor_le x
      have := Int.lt_floor_add_one x
      have : (0 : ℝ) ≤ ⌊x⌋ := by exact_mod_cast Int.floor_nonneg.mpr h0
      exact ⟨by rw [abs_lt]; constructor <;> linarith, by rw [abs_le]; constructor <;> linarith⟩
    · rename_i h0
      have := Int.le_ceil x
      have := Int.ceil_lt_add_one x
      have : (⌈x⌉ : ℝ) ≤ 0 := by exact_mod_cast Int.ceil_le.mpr (by push_cast; linarith)
      exact ⟨by rw [abs_lt]; constructor <;> linarith, by rw [abs_le]; constructor <;> linarith⟩
  have hq' : -4611686018427387904 ≤ q ∧ q ≤ 4611686018427387904 := by
    rw [abs_le] at h₂
    constructor <;> [have := h₂.1; have := h₂.2] <;> norm_num at this <;> exact_mod_cast this
  rw [truncate_eq, hq, min_eq_right (by omega), max_eq_right (by omega)]
  exact ⟨h₁, h₂⟩

end Exact

namespace Phase

open Exact

/-- The even turn count of a real of magnitude at most `2^61` is an even integer within two of
it. -/
theorem evenTurns_exact {x : ℝ} (hx : |x| ≤ 2 ^ 61) :
    ∃ m : ℤ, evenTurns x = .ok (2 * m) ∧ |x - 2 * m| < 2 := by
  obtain ⟨h₁, h₂⟩ := truncate_spec (x := x) (by linarith)
  unfold evenTurns
  set q := Scalar.truncate x
  have ht₁ := Int.tmod_lt_of_pos q (by decide : (0 : ℤ) < 2)
  have ht₂ := Int.lt_tmod_of_pos q (by decide : (0 : ℤ) < 2)
  have hq : -4611686018427387904 ≤ q ∧ q ≤ 4611686018427387904 := by
    rw [abs_le] at h₂
    constructor <;> [have := h₂.1; have := h₂.2] <;> norm_num at this <;> exact_mod_cast this
  refine ⟨q - q.tdiv 2, ?_, ?_⟩
  · rw [Word.add_eq_ok (by simp only [Word.i64]; omega), Int.tmod_def]
    congr 1
    ring
  · have ht : |((q.tmod 2 : ℤ) : ℝ)| ≤ 1 := by
      rw [abs_le]; constructor <;> exact_mod_cast (by omega)
    have he : (2 * ((q - q.tdiv 2 : ℤ) : ℝ)) = q + q.tmod 2 := by
      rw [Int.tmod_def]; push_cast; ring
    rw [he]
    calc |x - (q + q.tmod 2 : ℝ)| ≤ |x - q| + |((q.tmod 2 : ℤ) : ℝ)| := by
          rw [show x - (q + q.tmod 2 : ℝ) = (x - q) - q.tmod 2 by ring]; exact abs_sub _ _
      _ < 1 + 1 := by linarith
      _ = 2 := by norm_num

/-- `halfTurns` subtracts an even integer from a real of magnitude at most `2^61`, landing
within two of zero. -/
theorem halfTurns_exact {x : ℝ} (hx : |x| ≤ 2 ^ 61) :
    ∃ m : ℤ, halfTurns x = .ok (x - 2 * m) ∧ |x - 2 * m| < 2 := by
  obtain ⟨m, hm, hb⟩ := evenTurns_exact hx
  rw [abs_lt] at hb
  unfold halfTurns
  rw [hm]
  simp only [bind, Except.bind, pure, Except.pure, Exact.ofInt_eq, Exact.le_eq, decide_eq_true_eq,
    Exact.numeral_one]
  by_cases hw : x - ((2 * m : ℤ) : ℝ) ≤ -1
  · refine ⟨m - 1, ?_, ?_⟩
    · rw [if_pos hw]
      push_cast; ring_nf
    · push_cast at hw ⊢
      rw [abs_lt]; constructor <;> linarith
  · refine ⟨m, ?_, ?_⟩
    · rw [if_neg hw]
      push_cast; rfl
    · push_cast at hw ⊢
      rw [abs_lt]; constructor <;> linarith

/-- `radians` subtracts a whole number of turns from a real of magnitude at most `2^60`,
landing within one turn of zero. -/
theorem radians_exact {p : ℝ} (hp : |p| ≤ 2 ^ 60) :
    ∃ m : ℤ, radians p = .ok (p - 2 * π * m) ∧ |p - 2 * π * m| < 2 * π := by
  have hπ := Real.pi_gt_three
  have hx : |p * π⁻¹| ≤ 2 ^ 61 := by
    rw [abs_mul, abs_inv, abs_of_pos Real.pi_pos]
    calc |p| * π⁻¹ ≤ 2 ^ 60 * 1 := by
          gcongr
          exact inv_le_one_of_one_le₀ (by linarith)
      _ ≤ 2 ^ 61 := by norm_num
  obtain ⟨m, hm, hb⟩ := evenTurns_exact hx
  have hb' : |p - 2 * π * m| < 2 * π := by
    have h : p - 2 * π * m = π * (p * π⁻¹ - 2 * m) := by field_simp
    rw [h, abs_mul, abs_of_pos Real.pi_pos]
    nlinarith [Real.pi_pos]
  rw [abs_lt] at hb'
  unfold radians
  rw [show (p * Scalar.invPi : ℝ) = p * π⁻¹ from rfl, hm]
  simp only [bind, Except.bind, pure, Except.pure, Exact.ofInt_eq, Exact.le_eq, decide_eq_true_eq,
    Exact.pi_eq]
  by_cases hw : p - π * ((2 * m : ℤ) : ℝ) ≤ -π
  · refine ⟨m - 1, ?_, ?_⟩
    · rw [if_pos hw]
      push_cast; ring_nf
    · push_cast at hw ⊢
      rw [abs_lt]; constructor <;> nlinarith
  · refine ⟨m, ?_, ?_⟩
    · rw [if_neg hw]
      push_cast; ring_nf
    · push_cast at hw ⊢
      rw [abs_lt]; constructor <;> nlinarith

end Phase

/-! ## The window -/

namespace Window

open Exact

/-- The window at place `j` of a frame, over the reals: `sin²((j + ½) π / 1024)`. -/
noncomputable def exact (j : ℕ) : ℝ := Real.sin ((j + 1 / 2) * (π / 1024)) ^ 2

theorem halfValue_eq (i : ℕ) : (halfValue i : ℝ) = exact i := by
  simp only [halfValue, exact, Exact.sin_eq, Exact.ofNat_eq, Exact.pi_eq, Exact.numeral_one]
  ring

/-- Computing the first half and reflecting it is the same squared sine everywhere. -/
theorem table_eq (j : Fin 1024) : (table.get j : ℝ) = exact j := by
  simp only [table, Vector.get_ofFn, halfValue_eq]
  split
  · rfl
  · -- the reflection: the angles of `j` and `1023 - j` add up to π
    rename_i hj
    simp only [exact]
    have h : ((1023 - j.val : ℕ) + 1 / 2 : ℝ) * (π / 1024) = π - (j.val + 1 / 2) * (π / 1024) := by
      rw [Nat.cast_sub (by omega)]; push_cast; ring
    rw [h, Real.sin_pi_sub]

/-- Four squared windows a quarter frame apart add up to `3/2`. -/
theorem sum_sq_sin_sq (θ : ℝ) :
    ∑ l ∈ Finset.range 4, (Real.sin (θ + l * (π / 4)) ^ 2) ^ 2 = 3 / 2 := by
  simp only [Finset.sum_range_succ, Finset.sum_range_zero, Nat.cast_zero, Nat.cast_one,
    Nat.cast_ofNat, zero_mul, add_zero, one_mul, zero_add]
  -- the third and fourth places are the cosines of the first two
  have h₂ : θ + 2 * (π / 4) = θ + π / 2 := by ring
  have h₃ : θ + 3 * (π / 4) = (θ + π / 4) + π / 2 := by ring
  rw [h₂, h₃, Real.sin_add_pi_div_two, Real.sin_add_pi_div_two, Real.sin_add, Real.cos_add,
    Real.sin_pi_div_four, Real.cos_pi_div_four]
  have hs : √2 ^ 2 = 2 := Real.sq_sqrt (by norm_num)
  have hc := Real.sin_sq_add_cos_sq θ
  have h4 : √2 ^ 4 = 4 := by rw [show (4 : ℕ) = 2 * 2 by rfl, pow_mul, hs]; norm_num
  linear_combination (3 / 2 * (Real.sin θ ^ 2 + Real.cos θ ^ 2) + 3 / 2) * hc +
    ((Real.sin θ ^ 4 + Real.cos θ ^ 4) / 8 + 3 / 4 * Real.sin θ ^ 2 * Real.cos θ ^ 2) * h4

theorem exact_add (i l : ℕ) : exact (i + 256 * l) = Real.sin ((i + 1 / 2) * (π / 1024) + l * (π / 4)) ^ 2 := by
  simp only [exact]; push_cast; ring_nf

theorem outputScale_eq : (outputScale : ℝ) = 1 / 1536 := by
  simp only [outputScale, overlapGain, Exact.numeral_one]
  norm_num

theorem expectedCycles_eq : (expectedCycles : ℝ) = π / 2 := by
  simp only [expectedCycles, Exact.pi_eq]
  ring

end Window

end PhaseVocoder
