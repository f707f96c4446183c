import PhaseVocoder.Proofs.Wraps

/-!
# The half-turn wrap over every double (`wrap_half_turns`, shift/phase.rs:14-24)

`halfTurns` subtracts an even number of half turns that it counts in a signed 64-bit word, from
the truncation of its argument; the truncation saturates at the ends of that word. Inside the
word's range the wrap is exact in binary64: every double in `[-2^63, 2^63)` is reduced into
`(-1, 1]` modulo 2 with no rounding at all (`halfTurns_of_range`), and NaN comes through as NaN.

Below `2^53` the turn count is within one of the argument and at most `2^53`, so it converts
back exactly and `halfTurns_of_evenTurns` applies. From `2^53` on every double is an even
integer (`integer_of_large`): truncation keeps it, the remainder is zero, and the conversion back
goes through the model's scientific conversion, which pads the mantissa and rounds nothing
(`unpack_ofNat_large`). The wrap then gives zero.

The word's range is where this law ends. From `2^63` on, positive infinity included, the
truncation saturates at the odd `2^63 - 1`, and adding its remainder overflows the word
(`halfTurns_of_saturated`). Below `-2^63` it saturates at the even `-2^63`, which no check
catches, and the result leaves the range (`saturated_half_turns`).
-/

namespace PhaseVocoder

open Float.Model Float.Model.UnpackedFloat

namespace Ieee

/-! ## Large integers convert exactly -/

/-- A natural number from `2^53` up that binary64 holds as `m · 2^e` converts exactly: the
model's scientific conversion pads the mantissa and rounds nothing. -/
theorem unpack_ofNat_large {m e : Nat} (hm : 0 < m) (hc : Canonical m e) (he : 1 ≤ e) :
    (Float.ofNat (m * 2 ^ e)).toModel.unpack = .finite .positive m e hm := by
  have hm52 : 2 ^ 52 ≤ m := hc.2.2.2.resolve_right (by omega)
  have hn : ¬ (m * 2 ^ e < 2 ^ 53 ∧ 0 ≤ 22) := by
    have : 2 ^ 53 ≤ m * 2 ^ e :=
      calc 2 ^ 53 = 2 ^ 52 * 2 ^ 1 := by norm_num
        _ ≤ m * 2 ^ e := Nat.mul_le_mul hm52 (Nat.pow_le_pow_right (by decide) he)
    omega
  have hconv : Float.ofNat (m * 2 ^ e) = Float.ofModel
      (Float.Model.pack (UnpackedFloat.ofScientific Format.binary64 (m * 2 ^ e) 0)) := by
    unfold Float.ofNat
    change Float.ofScientific (m * 2 ^ e) false 0 = _
    rw [Float.ofScientific, dif_neg hn]
    rfl
  have hu : UnpackedFloat.ofScientific Format.binary64 (m * 2 ^ e) 0 = .finite .positive m e hm := by
    unfold UnpackedFloat.ofScientific
    rw [dif_neg (by positivity), if_neg (by decide), if_neg (by simp), if_pos le_rfl]
    have h := roundWithAccuracy_exact .positive hm hc (e + 53)
    have hmant : (m * 2 ^ e) <<< Format.binary64.mantissaBits * 10 ^ (0 : Int).toNat =
        m * 2 ^ (e + 53) := by
      rw [Nat.shiftLeft_eq, show Format.binary64.mantissaBits = 53 by simp [Format.mantissaBits]]
      simp [pow_add, mul_assoc]
    have hexp : -(Format.binary64.mantissaBits : Int) + 0 = (e : Int) - ((e + 53 : Nat) : Int) := by
      rw [show Format.binary64.mantissaBits = 53 by simp [Format.mantissaBits]]
      omega
    rw [UnpackedFloat.mul, hmant, hexp]
    exact h
  rw [hconv]
  change (Float.Model.pack _).unpack = _
  rw [hu, unpack_pack_finite hm hc]

theorem value_ofInt_of_canonical {n : Int} {m e : Nat} (hm : 0 < m) (hc : Canonical m e)
    (hn : n.natAbs = m * 2 ^ e) : value (Float.ofInt n) = some (n : ℚ) := by
  rcases Nat.eq_zero_or_pos e with rfl | he
  · -- below `2^53` the fast conversion is exact
    exact value_ofInt_exact (by rw [hn]; simpa using hc.1)
  · have hnat : value (Float.ofNat (m * 2 ^ e)) = some ((m * 2 ^ e : Nat) : ℚ) := by
      rw [value_of_unpack (unpack_ofNat_large hm hc he)]
      simp [Sign.apply]
    cases n with
    | ofNat k =>
      simp only [Int.ofNat_eq_natCast, Int.natAbs_natCast] at hn
      subst hn
      exact hnat
    | negSucc k =>
      simp only [Int.natAbs_negSucc] at hn
      rw [← hn] at hnat
      rw [Int.cast_negSucc]
      exact value_neg hnat

/-- A double of magnitude at least `2^53` is an even integer `± m · 2^e`, its mantissa canonical
and its exponent at least one. -/
theorem integer_of_large {x : Float} {a : ℚ} (hx : value x = some a) (ha : 2 ^ 53 ≤ |a|) :
    ∃ (A : ℤ) (m e : ℕ), 0 < m ∧ Canonical m e ∧ 1 ≤ e ∧ A.natAbs = m * 2 ^ e ∧ a = A := by
  have hp := packable_unpack x.toModel
  rcases unpackedValue_eq_some hx with ⟨s, -, rfl⟩ | ⟨s, m, e, hm, h, hv⟩
  · norm_num at ha
  · rw [h] at hp
    -- a mantissa below `2^53` reaches `2^53` only with an exponent of at least one
    have he : 1 ≤ e := by
      by_contra hlt
      have hm' : (m : ℚ) < 2 ^ 53 := by exact_mod_cast hp.1
      have h1 : (2 : ℚ) ^ e ≤ 1 := zpow_le_one_of_nonpos₀ (by norm_num) (by omega)
      have : |a| < 2 ^ 53 := by
        rw [hv, abs_mul, apply_cast, Int.cast_natCast, abs_mul, abs_apply_one, one_mul,
          abs_of_nonneg (by positivity), abs_of_pos (zpow_pos two_pos _)]
        calc (m : ℚ) * 2 ^ e ≤ m * 1 := by gcongr
          _ < 2 ^ 53 := by rw [mul_one]; exact hm'
      linarith
    obtain ⟨k, rfl⟩ : ∃ k : ℕ, e = k := ⟨e.toNat, by omega⟩
    refine ⟨s.apply (m * 2 ^ k : ℕ), m, k, hm, hp, by omega, ?_, ?_⟩
    · cases s <;> simp [Sign.apply, Int.natAbs_mul, Int.natAbs_pow]
    · rw [hv, apply_cast, apply_cast s ((m * 2 ^ k : ℕ) : ℤ)]
      push_cast
      rw [zpow_natCast]
      ring

end Ieee

namespace Phase

open Ieee

/-! ## The turn count and the wrap -/

/-- In binary64 the even turn count of a finite double in `[-2^63, 2^63)` fits the 64-bit word,
lies within one of the double and converts back exactly. Below `2^53` it is the usual count, at
most `2^53` in magnitude; from `2^53` on the double is an even integer and is its own count. -/
theorem evenTurns_of_range {x : Float} {a : ℚ} (hx : value x = some a) (h₁ : -2 ^ 63 ≤ a)
    (h₂ : a < 2 ^ 63) :
    ∃ m : ℤ, evenTurns x = .ok (2 * m) ∧ |a - m * 2| ≤ 1 ∧
      value (Scalar.ofInt (2 * m) : Float) = some ((2 * m : ℤ) : ℚ) := by
  obtain ⟨h₃, h₄⟩ := truncInt64_of_range hx h₁ h₂
  have hT : Scalar.truncate x = truncInt64 x := rfl
  set T := truncInt64 x
  have hb := abs_sub_evenTurn_le h₃ h₄
  rw [evenTurn_eq_two_mul, Int.cast_mul, Int.cast_two, mul_comm] at hb
  have hr₁ := Int.tmod_lt_of_pos T (by decide : (0 : Int) < 2)
  have hr₂ := Int.lt_tmod_of_pos T (by decide : (0 : Int) < 2)
  have hword : ∀ n : ℤ, -2 ^ 63 ≤ n → n < 2 ^ 63 → T + T.tmod 2 = n →
      evenTurns x = .ok (2 * (T - T.tdiv 2)) := by
    intro n hn₁ hn₂ hn
    unfold evenTurns
    rw [hT, ← evenTurn_eq_two_mul]
    exact Word.add_eq_ok (by simp only [Word.i64]; omega)
  rcases lt_or_ge |a| (2 ^ 53) with hs | hl
  · -- below `2^53` the count is at most `2^53`, which converts exactly as `2^52 · 2`
    have hT' : |T| < 2 ^ 53 := by exact_mod_cast lt_of_le_of_lt h₃ hs
    rw [abs_lt] at hT'
    refine ⟨T - T.tdiv 2, hword _ (by omega) (by omega) rfl, hb, ?_⟩
    rw [← evenTurn_eq_two_mul]
    rcases Nat.lt_or_ge (T + T.tmod 2).natAbs (2 ^ 53) with hn | hn
    · exact value_ofInt_exact hn
    · have hc : Canonical (2 ^ 52) ((1 : ℕ) : ℤ) :=
        ⟨by norm_num, by norm_num, by norm_num, .inl le_rfl⟩
      exact @value_ofInt_of_canonical _ (2 ^ 52) 1 (by positivity) hc (by omega)
  · -- from `2^53` on an even integer: truncation keeps it and the remainder is zero
    obtain ⟨A, m, e, hm, hc, he, hA, rfl⟩ := integer_of_large hx hl
    have hTA : T = A := by
      have : |(A : ℚ) - T| < 1 := h₄
      have : |A - T| < 1 := by exact_mod_cast this
      rw [abs_lt] at this; omega
    have h2 : (2 : ℤ) ∣ A := by
      rw [← Int.dvd_natAbs, hA]
      exact Int.natCast_dvd_natCast.mpr (Dvd.dvd.mul_left (dvd_pow_self 2 (by omega)) m)
    have hcount : T + T.tmod 2 = A := by rw [Int.tmod_eq_zero_of_dvd (hTA ▸ h2), add_zero, hTA]
    have hA₁ : -2 ^ 63 ≤ A := by exact_mod_cast h₁
    have hA₂ : A < 2 ^ 63 := by exact_mod_cast h₂
    refine ⟨T - T.tdiv 2, hword A hA₁ hA₂ hcount, hb, ?_⟩
    rw [← evenTurn_eq_two_mul, hcount]
    exact value_ofInt_of_canonical hm hc hA

/-- In binary64 every double in `[-2^63, 2^63)` wraps exactly: the result is its value reduced
into `(-1, 1]` modulo 2. -/
theorem halfTurns_of_range {x : Float} {a : ℚ} (hx : value x = some a) (h₁ : -2 ^ 63 ≤ a)
    (h₂ : a < 2 ^ 63) : ∃ r, halfTurns x = .ok r ∧ value r = some (toIocMod two_pos (-1) a) := by
  obtain ⟨m, hm, hb, hy⟩ := evenTurns_of_range hx h₁ h₂
  exact halfTurns_of_evenTurns hx hm hb hy

/-- Once the truncation saturates at the odd top of the word, adding its remainder overflows. -/
theorem halfTurns_of_saturated {x : Float} (h : truncInt64 x = 9223372036854775807) :
    halfTurns x = .error .addOverflow := by
  have he : evenTurns x = .error .addOverflow := by
    unfold evenTurns
    rw [show Scalar.truncate x = truncInt64 x from rfl, h]
    rfl
  unfold halfTurns
  rw [he]
  rfl

/-- In binary64 the half-turn wrap is exact across the range of its 64-bit turn count: a double
in `[-2^63, 2^63)` comes back as the value in `(-1, 1]` that differs from it by an even
integer, exactly, and NaN comes back as NaN. From `2^63` on, positive infinity included, the
saturated turn count overflows and the wrap faults. -/
theorem wrap_exact_in_word_range (x : Float) :
    (IsNaN x → ∃ r, halfTurns x = .ok r ∧ IsNaN r) ∧
    (∀ a : ℚ, value x = some a → -2 ^ 63 ≤ a → a < 2 ^ 63 →
      ∃ r b, halfTurns x = .ok r ∧ value r = some b ∧ -1 < b ∧ b ≤ 1 ∧
        ∃ k : ℤ, a - b = 2 * k) ∧
    ((∃ a : ℚ, value x = some a ∧ 2 ^ 63 ≤ a) ∨ x = Ieee.inf →
      halfTurns x = .error .addOverflow) := by
  refine ⟨halfTurns_nan, fun a hx h₁ h₂ => ?_, ?_⟩
  · obtain ⟨r, hr, hv⟩ := halfTurns_of_range hx h₁ h₂
    obtain ⟨hlo, hhi⟩ := toIocMod_mem_Ioc two_pos (-1) a
    refine ⟨r, _, hr, hv, hlo, by linarith, toIocDiv two_pos (-1) a, ?_⟩
    rw [self_sub_toIocMod, zsmul_eq_mul, mul_comm]
  · rintro (⟨a, hx, ha⟩ | rfl)
    · exact halfTurns_of_saturated (truncInt64_of_ge hx ha)
    · exact halfTurns_of_saturated truncInt64_inf

/-- The double `-2^63`, the foot of the turn count's range, wraps to zero. -/
theorem foot_of_word_wraps_to_zero :
    value (Float.ofBits 0xC3E0000000000000) = some (-2 ^ 63) ∧
      ∃ r b, halfTurns (Float.ofBits 0xC3E0000000000000) = .ok r ∧ value r = some b ∧
        -1 < b ∧ b ≤ 1 ∧ ∃ k : ℤ, -2 ^ 63 - b = 2 * k := by
  have hv : value (Float.ofBits 0xC3E0000000000000) = some (-2 ^ 63) := by
    rw [@value_of_unpack _ .negative (2 ^ 52) 11 (by decide) rfl]
    norm_num [Sign.apply]
  exact ⟨hv, (wrap_exact_in_word_range _).2.1 _ hv (by norm_num) (by norm_num)⟩

set_option maxRecDepth 2000 in
/-- At `2^63` the turn count saturates at the odd `2^63 - 1` and the wrap faults; at `-10^19` it
saturates at `-2^63`, which no check catches, and the result stays far below `-1`. The second
wrap is evaluated, which takes a deeper recursion than the default allows. -/
theorem saturated_half_turns :
    value (Float.ofBits 0x43E0000000000000) = some (2 ^ 63) ∧
      halfTurns (Float.ofBits 0x43E0000000000000) = .error .addOverflow ∧
    value (Float.ofBits 0xC3E158E460913D00) = some (-10 ^ 19) ∧
      halfTurns (Float.ofBits 0xC3E158E460913D00) = .ok (Float.ofBits 0xC3A58E460913D000) ∧
      value (Float.ofBits 0xC3A58E460913D000) = some (-776627963145224192) := by
  have h₁ : value (Float.ofBits 0x43E0000000000000) = some (2 ^ 63) := by
    rw [@value_of_unpack _ .positive (2 ^ 52) 11 (by decide) rfl]
    norm_num [Sign.apply]
  refine ⟨h₁, halfTurns_of_saturated (truncInt64_of_ge h₁ le_rfl), ?_, by rfl, ?_⟩
  · rw [@value_of_unpack _ .negative (4882812500000000) 11 (by decide) rfl]
    norm_num [Sign.apply]
  · rw [@value_of_unpack _ .negative (6067405962072064) 7 (by decide) rfl]
    norm_num [Sign.apply]

end Phase

end PhaseVocoder
