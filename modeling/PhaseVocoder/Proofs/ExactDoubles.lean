import PhaseVocoder.Proofs.Binary64

/-!
# Floats computed without rounding

`Binary64` bounds the rounding error of each operation. Some operations of the spectral path
and of the mixer do not round at all, and this module gives their results exactly, as unpacked
floats. The facts about packing and rounding hold in every format with at least two exponent
bits, and are proved once for all of them:

* Packing what `unpack` gives returns the same word, for every word whose NaN is the canonical
  one (`pack_unpack_valid`). Core's model keeps NaN in that one encoding, so a float is
  determined by its unpacked form (`eq_of_unpack_eq` for doubles).
* `Fits spec m e` says that `spec` holds `m · 2^e` as it is. Every finite float that `unpack`
  produces fits (`fits_of_unpack`), and rounding a fitting mantissa padded with zero bits gives
  it back (`roundWithAccuracy_of_fits`).

For doubles a canonical mantissa fits (`fits_of_canonical`), so a product by a power of two
whose result stays canonical is exact (`unpack_mul_pow_two`), natural numbers below `2^53`
convert exactly (`unpack_ofNat`), multiplying by one changes nothing (`mul_one_eq`), and a sum
with positive zero leaves any double above zero alone (`zero_add_of_pos`).
-/

namespace PhaseVocoder.Ieee

open Float.Model Float.Model.UnpackedFloat

section Formats

variable {spec : Format}

/-! ## Words are their fields -/

theorem toBitVec_ofBitVec (v : BitVec 1) : (Sign.ofBitVec v).toBitVec = v := by
  revert v; decide

theorem fields_reassemble (b : BitVec spec.numBits) :
    packComponents spec (Sign.ofBitVec (unpackSign b)) (unpackExponent b) (unpackMantissa b) =
      b := by
  simp only [packComponents, toBitVec_ofBitVec, unpackSign, unpackExponent, unpackMantissa,
    BitVec.extractLsb]
  ext i hi
  grind

theorem fields_reassemble_of {b : BitVec spec.numBits} {e : BitVec spec.exponentBits}
    {m : BitVec spec.mantissaBitsWithoutImplicit} (he : unpackExponent b = e)
    (hm : unpackMantissa b = m) : packComponents spec (Sign.ofBitVec (unpackSign b)) e m = b := by
  subst he hm
  exact fields_reassemble b

/-- Packing an unpacked word gives the word back, for every word whose NaN is the canonical
one. Zeros and infinities keep their fields; a subnormal mantissa stays below the implicit bit
and is packed with the zero exponent field; a normal one has its leading bit at the implicit
bit and is packed with its own exponent field. With a single exponent bit the least subnormal
exponent would read as an overflow, hence the bound. -/
theorem pack_unpack_valid (h2 : 2 ≤ spec.exponentBits) {b : BitVec spec.numBits}
    (hv : spec.Valid b) : UnpackedFloat.pack spec (UnpackedFloat.unpack spec b) = b := by
  have hm := (unpackMantissa b).isLt
  have he := (unpackExponent b).isLt
  have h4 : 4 ≤ 2 ^ spec.exponentBits :=
    calc 4 = 2 ^ 2 := rfl
      _ ≤ 2 ^ spec.exponentBits := Nat.pow_le_pow_right (by decide) h2
  have hmb : spec.mantissaBits = 1 + spec.mantissaBitsWithoutImplicit := rfl
  rw [UnpackedFloat.unpack]
  split
  · rename_i hinf
    split
    · exact fields_reassemble_of hinf ‹_›
    · exact (hv.eq_packedNaN hinf ‹_›).symm
  · rename_i hinf
    split
    · rename_i hzero
      split
      · exact fields_reassemble_of hzero ‹_›
      · -- subnormal: the biased exponent is one and the mantissa is below the implicit bit
        rename_i hm0
        have hE : (unpackExponent b).toNat = 0 := by rw [hzero]; rfl
        have hpos : 0 < (unpackMantissa b).toNat :=
          Nat.pos_of_ne_zero fun h => hm0 (BitVec.eq_of_toNat_eq h)
        have hlog : (unpackMantissa b).toNat.log2 < spec.mantissaBitsWithoutImplicit :=
          (Nat.log2_lt hpos.ne').mpr hm
        rw [UnpackedFloat.pack]
        simp only [hE]
        rw [if_neg (by omega), if_neg (by omega)]
        exact fields_reassemble_of hzero (by rw [BitVec.ofNat_toNat, BitVec.setWidth_eq])
    · -- normal: the biased exponent is the stored field and the leading bit the implicit one
      rename_i hzero
      have hE₁ : (unpackExponent b).toNat ≠ 2 ^ spec.exponentBits - 1 := by
        intro h
        apply hinf
        apply BitVec.eq_of_toNat_eq
        rw [h, BitVec.neg_one_eq_allOnes, BitVec.toNat_allOnes]
      have hE₀ : (unpackExponent b).toNat ≠ 0 := fun h => hzero (BitVec.eq_of_toNat_eq h)
      have hlog : (1#1 ++ unpackMantissa b).toNat.log2 = spec.mantissaBitsWithoutImplicit := by
        rw [toNat_one_append, Nat.log2_eq_iff (by omega)]
        constructor
        · omega
        · rw [Nat.pow_succ]; omega
      rw [UnpackedFloat.pack]
      simp only [hlog]
      rw [if_neg (by omega), if_pos (by omega)]
      refine fields_reassemble_of ?_ ?_
      · apply BitVec.eq_of_toNat_eq
        rw [BitVec.toNat_ofNat, Nat.mod_eq_of_lt] <;> omega
      · apply BitVec.eq_of_toNat_eq
        rw [BitVec.toNat_ofNat, toNat_one_append, Nat.add_mod_left, Nat.mod_eq_of_lt hm]

/-! ## Rounding what fits -/

theorem shiftRight_exact (m k : Nat) :
    (⟨m * 2 ^ k, false, false⟩ : ExtendedMantissa) >>> k = ⟨m, false, false⟩ := by
  induction k generalizing m with
  | zero => simp [HShiftRight.hShiftRight, Nat.repeat]
  | succ k ih =>
    change ExtendedMantissa.shiftRightOne ((⟨m * 2 ^ (k + 1), false, false⟩ : ExtendedMantissa) >>> k) = _
    rw [show m * 2 ^ (k + 1) = (m * 2) * 2 ^ k by ring, ih]
    simp [ExtendedMantissa.shiftRightOne]

theorem log2_mul_two_pow {m : Nat} (hm : m ≠ 0) (k : Nat) : (m * 2 ^ k).log2 = m.log2 + k := by
  rw [← Nat.shiftLeft_eq]
  exact log2_shiftLeft hm k

/-- The format holds `m · 2^e` as it is: at most `mantissaBits` bits, the leading one at the
top unless the exponent is the least. -/
def Fits (spec : Format) (m : Nat) (e : Int) : Prop :=
  m < 2 ^ spec.mantissaBits ∧ spec.minExponent ≤ e ∧
    (2 ^ (spec.mantissaBits - 1) ≤ m ∨ e = spec.minExponent)

/-- Every finite float that `unpack` produces fits: a subnormal one sits at the least
exponent, a normal one carries the implicit bit. -/
theorem fits_of_unpack {b : BitVec spec.numBits} {s : Sign} {m : Nat} {e : Int} {hm : 0 < m}
    (h : UnpackedFloat.unpack spec b = .finite s m e hm) : Fits spec m e := by
  have hM := (unpackMantissa b).isLt
  have hp : 1 ≤ 2 ^ (spec.exponentBits - 1) := Nat.one_le_two_pow
  have hcast : ((2 ^ (spec.exponentBits - 1) : Nat) : Int) = 2 ^ (spec.exponentBits - 1) := by
    push_cast
    rfl
  have hw : 2 ^ spec.mantissaBits = 2 * 2 ^ spec.mantissaBitsWithoutImplicit := by
    rw [Format.mantissaBits, Nat.pow_add, Nat.pow_one]
  have hw' : 2 ^ (spec.mantissaBits - 1) = 2 ^ spec.mantissaBitsWithoutImplicit := by
    rw [Format.mantissaBits, Nat.add_sub_cancel_left]
  simp only [Fits]
  rw [hw, hw']
  simp only [Format.minExponent, Format.mantissaBits]
  rw [UnpackedFloat.unpack] at h
  split at h
  · split at h <;> cases h
  · split at h
    · split at h
      · cases h
      · -- subnormal: the least exponent
        rename_i hzero _
        cases h
        have hE : (unpackExponent b).toNat = 0 := by rw [hzero]; rfl
        simp only [Format.exponentBias, hE]
        omega
    · -- normal: the implicit bit is set
      rename_i hzero
      cases h
      have hE₀ : (unpackExponent b).toNat ≠ 0 := fun h => hzero (BitVec.eq_of_toNat_eq h)
      simp only [Format.exponentBias, toNat_one_append]
      omega

theorem targetExponent_of_fits {m : Nat} {e : Int} (hm : 0 < m) (h : Fits spec m e) :
    spec.targetExponent (totalExponent m e) = e := by
  obtain ⟨hlt, hlo, hn⟩ := h
  have hl : m.log2 < spec.mantissaBits := (Nat.log2_lt hm.ne').mpr hlt
  have hb : 1 ≤ spec.mantissaBits := by simp [Format.mantissaBits]
  simp only [Format.targetExponent, totalExponent]
  rcases hn with hn | rfl
  · have := (Nat.le_log2 hm.ne').mpr hn
    omega
  · omega

theorem shiftToTargetExponent_of_fits {m : Nat} {e : Int} (hm : 0 < m) (h : Fits spec m e)
    (k : Nat) :
    shiftToTargetExponent spec (m * 2 ^ k) (e - k) .exact = (⟨m, false, false⟩, e) := by
  have htot : totalExponent (m * 2 ^ k) (e - k) = totalExponent m e := by
    simp only [totalExponent, log2_mul_two_pow hm.ne']
    push_cast
    ring
  have ht : spec.targetExponent (totalExponent (m * 2 ^ k) (e - k)) = e := by
    rw [htot, targetExponent_of_fits hm h]
  simp only [shiftToTargetExponent, shiftToExponent, ht, show (e - (e - k)).toNat = k by omega,
    ExtendedMantissa.ofMantissaAndAccuracy, shiftRight_exact]
  congr 1
  omega

theorem roundWithAccuracy_of_fits (s : Sign) {m : Nat} {e : Int} (hm : 0 < m) (h : Fits spec m e)
    (k : Nat) : roundWithAccuracy spec s (m * 2 ^ k) (e - k) .exact = .finite s m e hm := by
  have hsecond := shiftToTargetExponent_of_fits hm h 0
  rw [Nat.pow_zero, Nat.mul_one, Nat.cast_zero, Int.sub_zero] at hsecond
  rw [roundWithAccuracy, shiftToTargetExponent_of_fits hm h k]
  dsimp only
  rw [show (⟨m, false, false⟩ : ExtendedMantissa).roundedMantissa = m from rfl, hsecond]
  dsimp only
  rw [dif_neg hm.ne']

/-- Multiplying an unpacked float by one, written as `2^k · 2^(-k)`, rounds nothing and changes
nothing: a finite float is rounded from its own mantissa padded with `k` zero bits. -/
theorem mul_one_of_unpack {b : BitVec spec.numBits} {u : UnpackedFloat}
    (hu : UnpackedFloat.unpack spec b = u) (k : Nat) (h1 : 0 < 2 ^ k) :
    UnpackedFloat.mul spec u (.finite .positive (2 ^ k) (-k) h1) = u := by
  cases u with
  | finite s m e hm =>
    have hr := roundWithAccuracy_of_fits (s * .positive) hm (fits_of_unpack hu) k
    rw [Int.sub_eq_add_neg] at hr
    rw [UnpackedFloat.mul, hr]
    cases s <;> rfl
  | zero s => cases s <;> rfl
  | infinity s => cases s <;> rfl
  | notANumber => rfl

/-! ## Sums and products with zero -/

/-- Positive zero added to anything but a zero gives it back, unrounded. -/
theorem add_zero_left {u : UnpackedFloat} (hu : ∀ s, u ≠ .zero s) :
    UnpackedFloat.add spec (.zero .positive) u = u := by
  cases u with
  | zero s => exact absurd rfl (hu s)
  | finite => rfl
  | infinity => rfl
  | notANumber => rfl

theorem zero_mul_cases (u : UnpackedFloat) :
    (∃ s, UnpackedFloat.mul spec (.zero .positive) u = .zero s) ∨
      UnpackedFloat.mul spec (.zero .positive) u = .notANumber := by
  cases u with
  | zero s => exact .inl ⟨_, rfl⟩
  | finite s => exact .inl ⟨_, rfl⟩
  | infinity => exact .inr rfl
  | notANumber => exact .inr rfl

end Formats

/-! ## Doubles are their unpacked forms -/

theorem ofModel_pack_unpack (x : Float) : Float.ofModel (Float.Model.pack x.toModel.unpack) = x := by
  obtain ⟨⟨bits, hv⟩⟩ := x
  simp only [Float.Model.pack, Float.Model.unpack, pack_unpack_valid (by decide) hv, UInt64.ofBitVec_toBitVec]

theorem eq_of_unpack_eq {x y : Float} (h : x.toModel.unpack = y.toModel.unpack) : x = y := by
  rw [← ofModel_pack_unpack x, h, ofModel_pack_unpack]

/-! ## Doubles rounded exactly -/

theorem fits_of_canonical {m : Nat} {e : Int} (hc : Canonical m e) : Fits Format.binary64 m e :=
  ⟨hc.1, hc.2.1, hc.2.2.2⟩

theorem targetExponent_canonical {m : Nat} {e : Int} (hm : 0 < m) (hc : Canonical m e) :
    max ((m.log2 : Int) + e - 52) (-1074) = e := by
  rw [← targetExponent_eq]
  exact targetExponent_of_fits hm (fits_of_canonical hc)

theorem roundWithAccuracy_exact (s : Sign) {m : Nat} {e : Int} (hm : 0 < m) (hc : Canonical m e)
    (k : Nat) :
    roundWithAccuracy Format.binary64 s (m * 2 ^ k) (e - k) .exact = .finite s m e hm :=
  roundWithAccuracy_of_fits s hm (fits_of_canonical hc) k

/-- A product by the power of two `2^(52 + e₂)` whose result is canonical is exact. -/
theorem unpack_mul_pow_two {x c : Float} {s₁ s₂ : Sign} {m : Nat} {e₁ e₂ : Int} {h₁ : 0 < m}
    {h₂ : 0 < 2 ^ 52} (hx : x.toModel.unpack = .finite s₁ m e₁ h₁)
    (hc : c.toModel.unpack = .finite s₂ (2 ^ 52) e₂ h₂) (hcan : Canonical m (e₁ + e₂ + 52)) :
    (x * c).toModel.unpack = .finite (s₁ * s₂) m (e₁ + e₂ + 52) h₁ := by
  change (Float.Model.pack (UnpackedFloat.mul _ x.toModel.unpack c.toModel.unpack)).unpack = _
  have h := roundWithAccuracy_exact (s₁ * s₂) h₁ hcan 52
  rw [show e₁ + e₂ + 52 - ((52 : Nat) : Int) = e₁ + e₂ by omega] at h
  rw [hx, hc, UnpackedFloat.mul, h, unpack_pack_finite h₁ hcan]

theorem mul_one_eq (x : Float) : x * Float.ofBits 0x3FF0000000000000 = x := by
  have h : UnpackedFloat.mul Format.binary64 x.toModel.unpack
      (Float.ofBits 0x3FF0000000000000).toModel.unpack = x.toModel.unpack :=
    mul_one_of_unpack rfl 52 (by decide)
  change Float.ofModel (Float.Model.pack (UnpackedFloat.mul _ _ _)) = x
  rw [h, ofModel_pack_unpack]

/-- A natural number below `2^53` converts exactly: its mantissa is shifted up to 53 bits. -/
theorem unpack_ofNat {n : Nat} (hn : 0 < n) (hn' : n < 2 ^ 53) :
    ∃ h, (Float.ofNat n).toModel.unpack =
      .finite .positive (n * 2 ^ (52 - n.log2)) ((n.log2 : Int) - 52) h := by
  have hl : n.log2 < 53 := (Nat.log2_lt hn.ne').mpr hn'
  have hpos : 0 < n * 2 ^ (52 - n.log2) := Nat.mul_pos hn (Nat.two_pow_pos _)
  have hcan : Canonical (n * 2 ^ (52 - n.log2)) ((n.log2 : Int) - 52) := by
    have h₁ := Nat.log2_self_le hn.ne'
    have h₂ := Nat.lt_log2_self (n := n)
    have hp : 2 ^ n.log2 * 2 ^ (52 - n.log2) = 2 ^ 52 := by rw [← Nat.pow_add]; congr 1; omega
    refine ⟨?_, by omega, by omega, .inl ?_⟩
    · calc n * 2 ^ (52 - n.log2) < 2 ^ (n.log2 + 1) * 2 ^ (52 - n.log2) :=
            Nat.mul_lt_mul_of_pos_right h₂ (Nat.two_pow_pos _)
        _ = 2 ^ 53 := by rw [← Nat.pow_add]; congr 1; omega
    · calc 2 ^ 52 = 2 ^ n.log2 * 2 ^ (52 - n.log2) := hp.symm
        _ ≤ n * 2 ^ (52 - n.log2) := Nat.mul_le_mul_right _ h₁
  have hnorm : normalize Format.binary64 n 0 .positive =
      .finite .positive (n * 2 ^ (52 - n.log2)) ((n.log2 : Int) - 52) hpos := by
    have ht := targetExponent_eq n 0
    unfold UnpackedFloat.normalize UnpackedFloat.round
    rw [Int.compare_eq_gt.mpr (by omega)]
    simp only [ht, decreaseExponent, Int.toNat_natCast, Nat.shiftLeft_eq]
    rw [show (0 - max ((n.log2 : Int) + 0 - 52) (-1074)).toNat = 52 - n.log2 by omega,
      show (0 : Int) - ((52 - n.log2 : Nat) : Int) = (n.log2 : Int) - 52 by omega]
    simpa using roundWithAccuracy_exact .positive hpos hcan 0
  refine ⟨hpos, ?_⟩
  rw [ofNat_eq hn', mul_one_eq]
  change (Float.Model.pack _).unpack = _
  rw [hnorm, unpack_pack_finite hpos hcan]

/-! ## Sums with zero -/

theorem unpack_of_pos {x : Float} (h : (0 : Float) < x) :
    (∃ m e hm, x.toModel.unpack = .finite .positive m e hm) ∨ x.toModel.unpack = .infinity .positive := by
  replace h : UnpackedFloat.lt (UnpackedFloat.zero .positive) x.toModel.unpack = true :=
    of_decide_eq_true h
  cases hx : x.toModel.unpack with
  | finite s m e hm => cases s <;> simp_all [UnpackedFloat.lt, UnpackedFloat.compare]
  | infinity s => cases s <;> simp_all [UnpackedFloat.lt, UnpackedFloat.compare]
  | zero s => simp_all [UnpackedFloat.lt, UnpackedFloat.compare]
  | notANumber => simp_all [UnpackedFloat.lt, UnpackedFloat.compare]

/-- Adding a double above zero to zero gives the double back: the sum is not rounded, and
the double is no zero. -/
theorem zero_add_of_pos {x : Float} (h : (0 : Float) < x) : 0 + x = x := by
  have hnz : ∀ s, x.toModel.unpack ≠ .zero s := by
    intro s hz
    rcases unpack_of_pos h with ⟨m, e, hm, hx⟩ | hx <;> rw [hx] at hz <;> cases hz
  change Float.ofModel (Float.Model.pack (UnpackedFloat.add _ (.zero .positive) x.toModel.unpack)) = x
  rw [add_zero_left hnz, ofModel_pack_unpack]

end PhaseVocoder.Ieee
