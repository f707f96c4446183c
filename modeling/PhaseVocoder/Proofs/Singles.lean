import PhaseVocoder.Proofs.ExactDoubles

/-!
# Singles computed without rounding

The mixer weighs binary32 samples by their gains and adds them into silent lines. Once a gain
has settled at one, neither step changes a sample, up to the sign of a zero. This module proves
that on core's float model, from the facts about packing and rounding that `ExactDoubles`
proves for every format.

* Multiplying a single by one changes nothing (`single_mul_one`); adding it to positive zero
  changes at most the sign of a zero (`single_zero_add`); positive zero times anything has no
  magnitude above zero (`abs_zero_mul`).
-/

namespace PhaseVocoder.Ieee

open Float.Model Float.Model.UnpackedFloat

/-! ## Singles -/

theorem single_ofModel_pack_unpack (x : Float32) :
    Float32.ofModel (Float32.Model.pack x.toModel.unpack) = x := by
  obtain ⟨⟨bits, hv⟩⟩ := x
  simp only [Float32.Model.pack, Float32.Model.unpack, pack_unpack_valid (by decide) hv,
    UInt32.ofBitVec_toBitVec]

theorem single_mul_one (x : Float32) : x * 1 = x := by
  have h : UnpackedFloat.mul Format.binary32 x.toModel.unpack (1 : Float32).toModel.unpack =
      x.toModel.unpack :=
    mul_one_of_unpack rfl 23 (by decide)
  change Float32.ofModel (Float32.Model.pack (UnpackedFloat.mul _ _ _)) = x
  rw [h, single_ofModel_pack_unpack]

/-- Equal, or both zeros of whatever sign. -/
def SameUpToZeroSign (x y : Float32) : Prop :=
  x = y ∨ ((x == 0) = true ∧ (y == 0) = true)

/-- Positive zero plus a single is the single, except that a negative zero becomes positive. -/
theorem single_zero_add (x : Float32) : SameUpToZeroSign (0 + x) x := by
  have hsum : (0 + x : Float32) =
      Float32.ofModel (Float32.Model.pack (UnpackedFloat.add Format.binary32 (.zero .positive)
        x.toModel.unpack)) := rfl
  by_cases hz : ∃ s, x.toModel.unpack = .zero s
  · obtain ⟨s, hx⟩ := hz
    right
    have hbeq : (x == 0) = true := by
      change UnpackedFloat.beq x.toModel.unpack (.zero .positive) = true
      rw [hx]
      rfl
    rw [hsum, hx]
    cases s <;> exact ⟨rfl, hbeq⟩
  · left
    rw [hsum, add_zero_left (fun s h => hz ⟨s, h⟩), single_ofModel_pack_unpack]

/-- Positive zero times a single is a zero, or NaN when the single is infinite or NaN; either
way its magnitude is positive zero or NaN. -/
theorem abs_zero_mul (d : Float32) : Float32.abs (0 * d) = 0 ∨ Float32.abs (0 * d) = 0 / 0 := by
  have hprod : Float32.abs (0 * d) = Float32.ofModel (Float32.Model.pack
      (Float32.Model.pack (UnpackedFloat.mul Format.binary32 (.zero .positive)
        d.toModel.unpack)).unpack.abs) := rfl
  rw [hprod]
  rcases @zero_mul_cases Format.binary32 d.toModel.unpack with ⟨s, h⟩ | h <;> rw [h]
  · left
    cases s <;> rfl
  · right
    rfl

end PhaseVocoder.Ieee
