import PhaseVocoder.Proofs.Exact
import PhaseVocoder.Spectrum.Transform

/-!
# The exact discrete Fourier transform (core/fft.rs:14-63)

`Transform.exact` is the unnormalised 1024-point transform pair over the reals, with frames read
as complex signals on `ZMod 1024`: the forward transform is `ZMod.dft`,
`X_k = Σ_j x_j e^{-2πi jk/1024}`, and the inverse is 1024 times its inverse,
`x_j = Σ_k X_k e^{2πi jk/1024}`. A round trip multiplies by 1024 (`inverse_forward`), the
silent frame and the silent spectrum are each other's transforms (`silent_fixed`), a frame
with one sounding place sounds in every bin with that place's magnitude
(`norm_forward_single`), and the spectrum of a frame on the real axis is conjugate-symmetric
(`forward_conj`). The program's transform (core/fft.rs) is the radix-2 one of `Transform`.
-/

namespace PhaseVocoder

namespace Transform

open Phasor

/-- A frame of phasors as a complex signal on `ZMod 1024`. -/
def toSignal (v : Vector (Phasor ℝ) 1024) : ZMod 1024 → ℂ :=
  fun j => (v.get ⟨j.val, ZMod.val_lt j⟩).toComplex

/-- A complex signal on `ZMod 1024` as a frame of phasors. -/
def ofSignal (Φ : ZMod 1024 → ℂ) : Vector (Phasor ℝ) 1024 :=
  Vector.ofFn fun k => ofComplex (Φ k.val)

@[simp] theorem ofSignal_get (Φ : ZMod 1024 → ℂ) (k : Fin 1024) :
    ((ofSignal Φ).get k).toComplex = Φ k.val := by
  simp [ofSignal]

@[simp] theorem toSignal_ofSignal (Φ : ZMod 1024 → ℂ) : toSignal (ofSignal Φ) = Φ := by
  funext j
  simp [toSignal]

theorem toSignal_natCast (v : Vector (Phasor ℝ) 1024) (k : Fin 1024) :
    toSignal v k.val = (v.get k).toComplex := by
  simp only [toSignal]
  congr 2
  exact Fin.ext (ZMod.val_natCast_of_lt k.isLt)

/-- The exact unnormalised transform pair on 1024 points. -/
noncomputable def exact : Transform ℝ where
  forward v := ofSignal (ZMod.dft (toSignal v))
  inverse v := ofSignal fun j => 1024 * ZMod.dft.symm (toSignal v) j

/-- A round trip through the exact transforms multiplies by 1024. -/
theorem inverse_forward (v : Vector (Phasor ℝ) 1024) (j : Fin 1024) :
    ((exact.inverse (exact.forward v)).get j).toComplex = 1024 * (v.get j).toComplex := by
  simp only [exact, ofSignal_get, toSignal_ofSignal, LinearEquiv.symm_apply_apply,
    toSignal_natCast]

theorem toSignal_eq_zero {v : Vector (Phasor ℝ) 1024} (hv : ∀ j, v.get j = zero) :
    toSignal v = 0 :=
  funext fun j => by simp [toSignal, hv]

theorem forward_zero {v : Vector (Phasor ℝ) 1024} (hv : ∀ j, v.get j = zero) (k : Fin 1024) :
    (exact.forward v).get k = zero := by
  apply toComplex_injective
  simp only [exact, ofSignal_get, toSignal_eq_zero hv, map_zero, Pi.zero_apply, toComplex_zero]

theorem inverse_zero {v : Vector (Phasor ℝ) 1024} (hv : ∀ j, v.get j = zero) (k : Fin 1024) :
    (exact.inverse v).get k = zero := by
  apply toComplex_injective
  simp only [exact, ofSignal_get, toSignal_eq_zero hv, map_zero, Pi.zero_apply, mul_zero,
    toComplex_zero]

/-- The silent frame is its own spectrum, and the inverse of the silent spectrum. -/
theorem silent_fixed :
    exact.forward (Vector.replicate 1024 zero) = Vector.replicate 1024 zero ∧
      exact.inverse (Vector.replicate 1024 zero) = Vector.replicate 1024 zero := by
  have hz : ∀ j, (Vector.replicate 1024 (zero : Phasor ℝ)).get j = zero := fun j => by simp
  refine ⟨Vector.ext fun k hk => ?_, Vector.ext fun k hk => ?_⟩
  · rw [Vector.getElem_replicate]
    exact forward_zero hz ⟨k, hk⟩
  · rw [Vector.getElem_replicate]
    exact inverse_zero hz ⟨k, hk⟩

/-- A frame silent outside place `j₀` has, in every bin, the magnitude of its sample at `j₀`. -/
theorem norm_forward_single {v : Vector (Phasor ℝ) 1024} {j₀ : Fin 1024}
    (hv : ∀ j, j ≠ j₀ → v.get j = zero) (k : Fin 1024) :
    ‖((exact.forward v).get k).toComplex‖ = ‖(v.get j₀).toComplex‖ := by
  simp only [exact, ofSignal_get]
  rw [ZMod.dft_apply, Finset.sum_eq_single (j₀.val : ZMod 1024) (fun j _ hj => ?_)
    (fun h => absurd (Finset.mem_univ _) h), norm_smul, ZMod.stdAddChar_apply, Circle.norm_coe,
    one_mul, toSignal_natCast]
  have hne : (⟨j.val, ZMod.val_lt j⟩ : Fin 1024) ≠ j₀ := fun h => hj (by
    rw [← h]; exact (ZMod.natCast_zmod_val j).symm)
  simp [toSignal, hv _ hne]

/-- The spectrum of a real signal is conjugate-symmetric. -/
theorem dft_neg {Φ : ZMod 1024 → ℂ} (hΦ : ∀ j, (starRingEnd ℂ) (Φ j) = Φ j) (k : ZMod 1024) :
    ZMod.dft Φ (-k) = (starRingEnd ℂ) (ZMod.dft Φ k) := by
  simp only [ZMod.dft_apply, map_sum, smul_eq_mul, map_mul, hΦ]
  refine Finset.sum_congr rfl fun j _ => ?_
  rw [← AddChar.map_neg_eq_conj, mul_neg, neg_neg]

/-- The spectrum of a frame on the real axis: bin `1024 - k` is the conjugate of bin `k`. -/
theorem forward_conj (v : Vector (Phasor ℝ) 1024) (hv : ∀ j, (v.get j).im = 0) (k : Fin 1024)
    (hk : 0 < k.val) :
    ((exact.forward v).get ⟨1024 - k.val, by omega⟩).toComplex =
      (starRingEnd ℂ) ((exact.forward v).get k).toComplex := by
  have hreal : ∀ j, (starRingEnd ℂ) (toSignal v j) = toSignal v j :=
    fun j => Complex.conj_eq_iff_im.mpr (hv _)
  simp only [exact, ofSignal_get]
  rw [← dft_neg hreal]
  have hneg : ((1024 - k.val : ℕ) : ZMod 1024) = -(k.val : ZMod 1024) := by
    rw [Nat.cast_sub k.isLt.le, ZMod.natCast_self, zero_sub]
  rw [hneg]

end Transform

end PhaseVocoder
