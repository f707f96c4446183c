import PhaseVocoder.Proofs.ExactDoubles

/-!
# Doubles computed without rounding

A binary64 operation rounds its exact result, and when that result is itself a double nothing
is lost. This module makes that precise for the operations of the phase wraps, and reads the
comparison of doubles as the order of their values.

* A value `k · 2^g` with `|k| < 2^53` and `g` in the exponent range is a double
  (`exists_canonical`); rounding any mantissa and exponent that stand for it gives that double
  back (`round_of_canonical`, `round_of_grid`, `normalize_of_grid`).
* Hence a difference or a sum whose exact value lies on such a grid is computed exactly
  (`value_sub_exact`, `value_add_exact`), integers below `2^53` convert exactly
  (`value_ofInt_exact`), and doubling is exact below the top binade (`value_mul_two`).
* Doubles compare as their values do (`compare_eq`, `le_iff`): the canonical form of a double
  orders by exponent first, and within one exponent by mantissa.
-/

namespace PhaseVocoder.Ieee

open Float.Model Float.Model.UnpackedFloat

/-! ## Values on a grid -/

/-- A positive mantissa below `2^53` at an exponent in range is a double: shifted up to 53 bits,
or as far as the least exponent allows. -/
theorem exists_canonical {k : Nat} {g : Int} (hk : 0 < k) (hk' : k < 2 ^ 53) (hg : -1074 ≤ g)
    (hg' : g ≤ 971) : ∃ j : Nat, Canonical (k * 2 ^ j) (g - j) := by
  have hl : k.log2 < 53 := (Nat.log2_lt hk.ne').mpr hk'
  refine ⟨min (52 - k.log2) (g + 1074).toNat, ?_⟩
  set j := min (52 - k.log2) (g + 1074).toNat with hj
  have hlog := log2_mul_two_pow hk.ne' j
  have hpos : k * 2 ^ j ≠ 0 := by positivity
  refine ⟨?_, by omega, by omega, ?_⟩
  · have h := Nat.lt_log2_self (n := k * 2 ^ j)
    rw [hlog] at h
    exact lt_of_lt_of_le h (Nat.pow_le_pow_right (by decide) (by omega))
  · -- either the shift reaches 53 bits, or it stops at the least exponent
    by_cases h : 52 - k.log2 ≤ (g + 1074).toNat
    · left
      have h' := Nat.log2_self_le hpos
      rw [hlog] at h'
      exact le_trans (Nat.pow_le_pow_right (by decide) (by omega)) h'
    · right
      omega

/-- Two values that agree with exponents `j` apart: the mantissa at the lower exponent is the
other one with `j` zero bits appended. -/
theorem mantissa_eq_of_value_eq {m m' : Nat} {e : Int} (j : Nat)
    (hv : (m : ℚ) * 2 ^ (e - j) = m' * 2 ^ e) : m = m' * 2 ^ j := by
  have h2 : (2 : ℚ) ^ (e - j) * 2 ^ j = 2 ^ e := by
    rw [← zpow_natCast, ← zpow_add₀ two_ne_zero]; congr 1; omega
  have h : (m : ℚ) * 2 ^ e = (m' * 2 ^ j : ℚ) * 2 ^ e := by
    rw [← h2, ← mul_assoc, hv, ← h2]; ring
  exact_mod_cast mul_right_cancel₀ (zpow_ne_zero _ two_ne_zero) h

/-- Rounding a mantissa and exponent that stand for a double gives that double. -/
theorem round_of_canonical (s : Sign) {m m' : Nat} {e e' : Int} (hm : 0 < m) (hm' : 0 < m')
    (hc : Canonical m' e') (hv : (m : ℚ) * 2 ^ e = m' * 2 ^ e') :
    UnpackedFloat.round Format.binary64 s m e = .finite s m' e' hm' := by
  have ht := targetExponent_canonical hm' hc
  unfold UnpackedFloat.round
  rcases le_or_gt e e' with hle | hlt
  · -- `m` is `m'` with `e' - e` zero bits appended, and the exponent is already the target
    obtain ⟨j, rfl⟩ : ∃ j : Nat, e = e' - j := ⟨(e' - e).toNat, by omega⟩
    obtain rfl := mantissa_eq_of_value_eq j hv
    have hte := targetExponent_eq (m' * 2 ^ j) (e' - j)
    rw [log2_mul_two_pow hm'.ne'] at hte
    simp only [hte, decreaseExponent, show (e' - j - max ((m'.log2 + j : Nat) + (e' - j) - 52)
      (-1074)).toNat = 0 by push_cast at ht ⊢; omega, Nat.shiftLeft_zero, Nat.cast_zero, Int.sub_zero]
    exact roundWithAccuracy_exact s hm' hc j
  · -- `m'` is `m` with `e - e'` zero bits appended, which the first shift supplies
    obtain ⟨j, rfl⟩ : ∃ j : Nat, e' = e - j := ⟨(e - e').toNat, by omega⟩
    obtain rfl := mantissa_eq_of_value_eq j hv.symm
    have hte := targetExponent_eq m e
    have hl := log2_mul_two_pow hm.ne' j
    rw [hl] at ht
    simp only [hte, decreaseExponent, Nat.shiftLeft_eq,
      show (e - max ((m.log2 : Int) + e - 52) (-1074)).toNat = j by push_cast at ht; omega]
    simpa using roundWithAccuracy_exact s hm' hc 0

/-- A positive mantissa whose value lies on a grid of doubles rounds to that value, with
either sign. -/
theorem round_of_grid (s : Sign) {m k : Nat} {e g : Int} (hm : 0 < m) (hk : 0 < k)
    (hk' : k < 2 ^ 53) (hg : -1074 ≤ g) (hg' : g ≤ 971) (hv : (m : ℚ) * 2 ^ e = k * 2 ^ g) :
    Packable (UnpackedFloat.round Format.binary64 s m e) ∧
      unpackedValue (UnpackedFloat.round Format.binary64 s m e) =
        some ((s.apply m : ℚ) * 2 ^ e) := by
  obtain ⟨j, hc⟩ := exists_canonical hk hk' hg hg'
  have hv' : (m : ℚ) * 2 ^ e = (k * 2 ^ j : Nat) * 2 ^ (g - j) := by
    rw [hv, Nat.cast_mul, Nat.cast_pow, Nat.cast_ofNat, zpow_sub₀ two_ne_zero, zpow_natCast]
    field_simp
  rw [round_of_canonical s hm (Nat.mul_pos hk (Nat.two_pow_pos _)) hc hv']
  refine ⟨hc, ?_⟩
  rw [unpackedValue, apply_cast, apply_cast s m, Int.cast_natCast, Int.cast_natCast, mul_assoc,
    mul_assoc, ← hv']

/-- A signed mantissa whose value lies on a grid of doubles normalises to that value. -/
theorem normalize_of_grid (n e : Int) (zs : Sign) {k g : Int} (hk : k.natAbs < 2 ^ 53)
    (hg : -1074 ≤ g) (hg' : g ≤ 971) (hv : (n : ℚ) * 2 ^ e = k * 2 ^ g) :
    Packable (normalize Format.binary64 n e zs) ∧
      unpackedValue (normalize Format.binary64 n e zs) = some ((n : ℚ) * 2 ^ e) := by
  have hp : (0 : ℚ) < 2 ^ e := zpow_pos (by norm_num) e
  have hp' : (0 : ℚ) < 2 ^ g := zpow_pos (by norm_num) g
  rcases lt_trichotomy n 0 with hn | rfl | hn
  · -- a negative mantissa: the grid point is negative too
    have hk0 : k < 0 := by
      have : (k : ℚ) * 2 ^ g < 0 := by rw [← hv]; exact mul_neg_of_neg_of_pos (by exact_mod_cast hn) hp
      exact_mod_cast (neg_of_mul_neg_left this hp'.le)
    have h₁ : ((-n).toNat : ℚ) = -n := by
      rw [← Int.cast_natCast, Int.toNat_of_nonneg (by omega)]; push_cast; ring
    have hv' : ((-n).toNat : ℚ) * 2 ^ e = (k.natAbs : Nat) * 2 ^ g := by
      rw [h₁, Nat.cast_natAbs, Int.cast_abs, abs_of_neg (by exact_mod_cast hk0)]
      linarith
    unfold UnpackedFloat.normalize
    rw [Int.compare_eq_lt.mpr hn]
    obtain ⟨hpk, hval⟩ := round_of_grid .negative (by omega) (by omega) hk hg hg' hv'
    refine ⟨hpk, ?_⟩
    rw [hval, Sign.apply, Int.cast_neg, Int.cast_natCast, h₁, neg_neg]
  · exact ⟨trivial, by simp [UnpackedFloat.normalize, unpackedValue]⟩
  · have hk0 : 0 < k := by
      have : 0 < (k : ℚ) * 2 ^ g := by rw [← hv]; exact mul_pos (by exact_mod_cast hn) hp
      exact_mod_cast (pos_of_mul_pos_left this hp'.le)
    have h₁ : (n.toNat : ℚ) = n := by rw [← Int.cast_natCast, Int.toNat_of_nonneg hn.le]
    have hv' : (n.toNat : ℚ) * 2 ^ e = (k.natAbs : Nat) * 2 ^ g := by
      rw [h₁, Nat.cast_natAbs, Int.cast_abs, abs_of_pos (by exact_mod_cast hk0), hv]
    unfold UnpackedFloat.normalize
    rw [Int.compare_eq_gt.mpr hn]
    obtain ⟨hpk, hval⟩ := round_of_grid .positive (by omega) (by omega) hk hg hg' hv'
    refine ⟨hpk, ?_⟩
    rw [hval, Sign.apply, Int.cast_natCast, h₁]

/-! ## Exact differences, sums, conversions and doubling -/

section Operations

variable {a b : UnpackedFloat} {x y : ℚ} {k g : Int}

/-- A binary64 sum whose exact value lies on a grid of doubles is exact. -/
theorem add_exact (ha : Packable a) (hb : Packable b) (hx : unpackedValue a = some x)
    (hy : unpackedValue b = some y) (hk : k.natAbs < 2 ^ 53) (hg : -1074 ≤ g) (hg' : g ≤ 971)
    (hv : x + y = k * 2 ^ g) :
    Packable (UnpackedFloat.add Format.binary64 a b) ∧
      unpackedValue (UnpackedFloat.add Format.binary64 a b) = some (x + y) := by
  rcases unpackedValue_eq_some hx with ⟨s₁, rfl, rfl⟩ | ⟨s₁, m₁, e₁, hm₁, rfl, rfl⟩
  · rcases unpackedValue_eq_some hy with ⟨s₂, rfl, rfl⟩ | ⟨s₂, m₂, e₂, hm₂, rfl, rfl⟩
    · simp only [UnpackedFloat.add]
      split <;> exact ⟨trivial, by simp [unpackedValue]⟩
    · exact ⟨hb, by rw [zero_add]; exact hy⟩
  · rcases unpackedValue_eq_some hy with ⟨s₂, rfl, rfl⟩ | ⟨s₂, m₂, e₂, hm₂, rfl, rfl⟩
    · exact ⟨ha, by rw [add_zero]; exact hx⟩
    · rw [← aligned_sum] at hv ⊢
      exact normalize_of_grid _ _ .positive hk hg hg' hv

theorem sub_exact (ha : Packable a) (hb : Packable b) (hx : unpackedValue a = some x)
    (hy : unpackedValue b = some y) (hk : k.natAbs < 2 ^ 53) (hg : -1074 ≤ g) (hg' : g ≤ 971)
    (hv : x - y = k * 2 ^ g) :
    Packable (UnpackedFloat.sub Format.binary64 a b) ∧
      unpackedValue (UnpackedFloat.sub Format.binary64 a b) = some (x - y) := by
  rw [model_sub_eq_add_neg, sub_eq_add_neg]
  rw [sub_eq_add_neg] at hv
  exact add_exact ha (packable_neg hb) hx (unpackedValue_neg hy) hk hg hg' hv

end Operations

section Doubles

variable {x y : Float} {a b : ℚ} {k g : Int}

theorem value_sub_exact (hx : value x = some a) (hy : value y = some b) (hk : k.natAbs < 2 ^ 53)
    (hg : -1074 ≤ g) (hg' : g ≤ 971) (hv : a - b = k * 2 ^ g) : value (x - y) = some (a - b) := by
  obtain ⟨hp, h⟩ := sub_exact (packable_unpack x.toModel) (packable_unpack y.toModel) hx hy hk hg hg' hv
  change unpackedValue (Float.Model.pack _).unpack = _
  rwa [unpack_pack hp]

theorem value_add_exact (hx : value x = some a) (hy : value y = some b) (hk : k.natAbs < 2 ^ 53)
    (hg : -1074 ≤ g) (hg' : g ≤ 971) (hv : a + b = k * 2 ^ g) : value (x + y) = some (a + b) := by
  obtain ⟨hp, h⟩ := add_exact (packable_unpack x.toModel) (packable_unpack y.toModel) hx hy hk hg hg' hv
  change unpackedValue (Float.Model.pack _).unpack = _
  rwa [unpack_pack hp]

theorem value_ofInt_exact {n : Int} (hn : n.natAbs < 2 ^ 53) :
    value (Float.ofInt n) = some (n : ℚ) := by
  have hnat : ∀ k : Nat, 0 < k → k < 2 ^ 53 → value (Float.ofNat k) = some (k : ℚ) := by
    intro k hk hk'
    obtain ⟨hpos, hu⟩ := unpack_ofNat hk hk'
    rw [value_of_unpack hu, Option.some.injEq]
    simp only [Sign.apply]
    push_cast
    rw [mul_assoc, ← zpow_natCast, ← zpow_add₀ two_ne_zero]
    rw [show ((52 - k.log2 : Nat) : Int) + ((k.log2 : Int) - 52) = 0 by
      have := (Nat.log2_lt hk.ne').mpr hk'; omega]
    simp
  cases n with
  | ofNat k =>
    rcases Nat.eq_zero_or_pos k with rfl | hk
    · rfl
    · exact hnat k hk (by simpa using hn)
  | negSucc k =>
    rw [Int.cast_negSucc]
    exact value_neg (hnat (k + 1) (by omega) (by simpa using hn))

theorem unpack_ofNat_two :
    (Float.ofNat 2).toModel.unpack = .finite .positive (2 ^ 52) (-51) (by decide) := rfl

/-- Doubling a double below `2^1023` is exact: a normal double moves one exponent up, a subnormal
one doubles its mantissa. -/
theorem value_mul_two (hx : value x = some a) (ha : |a| < 2 ^ 1023) :
    value (x * Float.ofNat 2) = some (2 * a) := by
  have hp := packable_unpack x.toModel
  change unpackedValue (Float.Model.pack (UnpackedFloat.mul _ x.toModel.unpack
    (Float.ofNat 2).toModel.unpack)).unpack = _
  rw [unpack_ofNat_two]
  rcases unpackedValue_eq_some hx with ⟨s, h, rfl⟩ | ⟨s, m, e, hm, h, hxa⟩
  · rw [h]
    simp only [UnpackedFloat.mul, unpack_pack_zero, unpackedValue, mul_zero]
  · rw [h] at hp ⊢
    obtain ⟨hlt, hlo, hhi, hn⟩ := hp
    have hs : s * Sign.positive = s := by cases s <;> rfl
    have hmul : UnpackedFloat.mul Format.binary64 (.finite s m e hm)
        (.finite .positive (2 ^ 52) (-51) (by decide)) =
        roundWithAccuracy Format.binary64 (s * .positive) (m * 2 ^ 52) (e + -51) .exact := rfl
    rw [hmul, hs, hxa]
    by_cases hnorm : 2 ^ 52 ≤ m
    · -- a normal double: the same mantissa one exponent up
      have he : e ≤ 970 := by
        have hv : (2 : ℚ) ^ (52 + e) ≤ |a| := by
          rw [hxa, abs_mul, apply_cast, Int.cast_natCast, abs_mul, abs_apply_one,
            one_mul, abs_of_nonneg (by positivity), abs_of_pos (zpow_pos (by norm_num) _),
            zpow_add₀ two_ne_zero]
          gcongr
          exact_mod_cast hnorm
        have := lt_of_le_of_lt hv ha
        have := (zpow_lt_zpow_iff_right₀ (by norm_num : (1 : ℚ) < 2)).mp
          (by simpa using this : (2 : ℚ) ^ (52 + e) < 2 ^ (1023 : Int))
        omega
      have hc : Canonical m (e + 1) := ⟨hlt, by omega, by omega, .inl hnorm⟩
      have hr := roundWithAccuracy_exact s hm hc 52
      rw [show e + 1 - ((52 : Nat) : Int) = e + -51 by omega] at hr
      rw [hr, unpack_pack_finite hm hc, unpackedValue, Option.some.injEq, zpow_add_one₀ two_ne_zero]
      ring
    · -- a subnormal double: twice the mantissa at the least exponent
      have he : e = -1074 := hn.resolve_left hnorm
      subst he
      have hc : Canonical (2 * m) (-1074) := ⟨by omega, le_rfl, by omega, .inr rfl⟩
      have hr := roundWithAccuracy_exact s (by omega : 0 < 2 * m) hc 51
      rw [show 2 * m * 2 ^ 51 = m * 2 ^ 52 by ring,
        show (-1074 : Int) - ((51 : Nat) : Int) = -1074 + -51 by omega] at hr
      rw [hr, unpack_pack_finite (by omega) hc, unpackedValue, Option.some.injEq, apply_cast,
        apply_cast s m]
      generalize (2 : ℚ) ^ (-1074 : Int) = t
      push_cast
      ring

end Doubles

/-! ## Order -/

/-- Canonical mantissas compare as their values do: by exponent first, then by mantissa. -/
theorem compare_canonical {m₁ m₂ : Nat} {e₁ e₂ : Int} (hc₁ : Canonical m₁ e₁)
    (hc₂ : Canonical m₂ e₂) :
    (compare e₁ e₂).then (compare m₁ m₂) = compare ((m₁ : ℚ) * 2 ^ e₁) ((m₂ : ℚ) * 2 ^ e₂) := by
  -- a higher exponent is a normal double, at or above every double of a lower one
  have below : ∀ {m m' : Nat} {e e' : Int}, Canonical m e → Canonical m' e' → e < e' →
      (m : ℚ) * 2 ^ e < m' * 2 ^ e' := by
    intro m m' e e' hc hc' he
    have hm' : 2 ^ 52 ≤ m' := hc'.2.2.2.resolve_right (by have := hc.2.1; omega)
    calc (m : ℚ) * 2 ^ e < 2 ^ 53 * 2 ^ e := by gcongr; exact_mod_cast hc.1
      _ = 2 ^ 52 * 2 ^ (e + 1) := by rw [zpow_add_one₀ two_ne_zero]; ring
      _ ≤ 2 ^ 52 * 2 ^ e' := by gcongr; norm_num; omega
      _ ≤ m' * 2 ^ e' := by gcongr; exact_mod_cast hm'
  rcases lt_trichotomy e₁ e₂ with he | rfl | he
  · rw [compare_lt_iff_lt.mpr he, compare_lt_iff_lt.mpr (below hc₁ hc₂ he)]; rfl
  · have hp : (0 : ℚ) < 2 ^ e₁ := zpow_pos (by norm_num) _
    rw [compare_eq_iff_eq.mpr rfl]
    rcases lt_trichotomy m₁ m₂ with hm | rfl | hm
    · rw [compare_lt_iff_lt.mpr hm, compare_lt_iff_lt.mpr (by gcongr)]; rfl
    · rw [compare_eq_iff_eq.mpr rfl, compare_eq_iff_eq.mpr rfl]; rfl
    · rw [compare_gt_iff_gt.mpr hm, compare_gt_iff_gt.mpr (by gcongr)]; rfl
  · rw [compare_gt_iff_gt.mpr he, compare_gt_iff_gt.mpr (below hc₂ hc₁ he)]; rfl

theorem compare_neg_neg (A B : ℚ) : compare (-A) (-B) = (compare A B).swap := by
  rcases lt_trichotomy A B with h | rfl | h
  · rw [compare_lt_iff_lt.mpr h, compare_gt_iff_gt.mpr (neg_lt_neg h)]; rfl
  · rw [Std.compare_self, Std.compare_self]; rfl
  · rw [compare_gt_iff_gt.mpr h, compare_lt_iff_lt.mpr (neg_lt_neg h)]; rfl

/-- Packable floats compare as their values do. -/
theorem compare_eq {u₁ u₂ : UnpackedFloat} {a b : ℚ} (hp₁ : Packable u₁) (hp₂ : Packable u₂)
    (h₁ : unpackedValue u₁ = some a) (h₂ : unpackedValue u₂ = some b) :
    u₁.compare u₂ = some (compare a b) := by
  have hpos : ∀ {m : Nat} (e : Int), 0 < m → (0 : ℚ) < m * 2 ^ e := fun e hm => by positivity
  rcases unpackedValue_eq_some h₁ with ⟨s₁, rfl, rfl⟩ | ⟨s₁, m₁, e₁, hm₁, rfl, rfl⟩
  · rcases unpackedValue_eq_some h₂ with ⟨s₂, rfl, rfl⟩ | ⟨s₂, m₂, e₂, hm₂, rfl, rfl⟩
    · rw [Std.compare_self]; rfl
    · cases s₂
      · rw [compare_gt_iff_gt.mpr (by simpa [Sign.apply] using hpos e₂ hm₂)]; rfl
      · rw [compare_lt_iff_lt.mpr (by simpa [Sign.apply] using hpos e₂ hm₂)]; rfl
  · rcases unpackedValue_eq_some h₂ with ⟨s₂, rfl, rfl⟩ | ⟨s₂, m₂, e₂, hm₂, rfl, rfl⟩
    · cases s₁
      · rw [compare_lt_iff_lt.mpr (by simpa [Sign.apply] using hpos e₁ hm₁)]; rfl
      · rw [compare_gt_iff_gt.mpr (by simpa [Sign.apply] using hpos e₁ hm₁)]; rfl
    · have hc := compare_canonical hp₁ hp₂
      cases s₁ <;> cases s₂
      · have h := compare_neg_neg ((m₁ : ℚ) * 2 ^ e₁) ((m₂ : ℚ) * 2 ^ e₂)
        simp only [Sign.apply, Int.cast_neg, Int.cast_natCast, neg_mul]
        rw [h, ← hc]; rfl
      · rw [compare_lt_iff_lt.mpr (by
          simp only [Sign.apply, Int.cast_neg, Int.cast_natCast, neg_mul]
          linarith [hpos e₁ hm₁, hpos e₂ hm₂])]; rfl
      · rw [compare_gt_iff_gt.mpr (by
          simp only [Sign.apply, Int.cast_neg, Int.cast_natCast, neg_mul]
          linarith [hpos e₁ hm₁, hpos e₂ hm₂])]; rfl
      · simp only [Sign.apply, Int.cast_natCast]
        rw [← hc]; rfl

/-- Doubles compare as their values do. -/
theorem le_iff {x y : Float} {a b : ℚ} (hx : value x = some a) (hy : value y = some b) :
    x ≤ y ↔ a ≤ b := by
  have h := compare_eq (packable_unpack x.toModel) (packable_unpack y.toModel) hx hy
  have hle : x ≤ y ↔ (x.toModel.unpack.compare y.toModel.unpack).any (·.isLE) = true := by
    show x.le y = true ↔ _
    unfold Float.le
    simp only [decide_eq_true_eq]
    rfl
  rw [hle, h]
  rcases lt_trichotomy a b with hab | rfl | hab
  · simp [compare_lt_iff_lt.mpr hab, hab.le]
  · simp
  · simp [compare_gt_iff_gt.mpr hab, not_le.mpr hab]

end PhaseVocoder.Ieee
