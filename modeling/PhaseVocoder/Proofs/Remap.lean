import PhaseVocoder.Proofs.ExactDoubles
import PhaseVocoder.Proofs.Safety
import PhaseVocoder.Proofs.Spectrum

/-!
# Moving bins, read bin by bin (shift/remap.rs:9-45)

A pitch ratio is a 32-bit fixed-point number with 16 fractional bits. The bin arithmetic is
integer arithmetic and exact: in 64-bit words `k · fixed + 32768` cannot overflow for any
`k ≤ 2^32`, and `targetBin k` is `k · fixed / 65536` rounded to the nearest integer, ties
upward (`targetBin_eq_round`). The binary64 scale is exact too (`value_scale`): `fixed` has at
most 32 bits and `1/65536` is a power of two. `binCount` counts exactly the bins whose target
is at most bin 512, for every ratio, zero included (`mem_range_binCount`).

`remap` folds the kept bins into the synthesis set one at a time. Read for a single synthesis
bin `j`, the fold only ever touches `j` at the bins landing there, its `contributors`, which
form a run of consecutive bins because `targetBin` is monotone. So bin `j` holds their
magnitudes added left to right from zero, and the scaled frequency of the last of them that was
louder than all those before it together (`remap_get`), whatever the scalars.
-/

namespace PhaseVocoder

open Ieee Float.Model

/-! ## Fixed-point bin arithmetic -/

namespace PitchRatio

/-- The word computation of a target bin: a 64-bit product and sum, shifted by 16. For every
`k ≤ 2^32` the sum fits in 64 bits, so the word result is the exact one. -/
theorem targetBin_word (r : PitchRatio) {k : Nat} (hk : k ≤ 2 ^ 32) :
    k * r.fixed.toNat + 32768 < 2 ^ 64 ∧
      ((UInt64.ofNat k * r.fixed.toUInt64 + 32768) >>> 16).toNat = r.targetBin k := by
  have hf := r.fixed.toNat_lt
  have hprod : k * r.fixed.toNat ≤ 2 ^ 32 * (2 ^ 32 - 1) := Nat.mul_le_mul hk (by omega)
  have hlt : k * r.fixed.toNat + 32768 < 2 ^ 64 := by omega
  refine ⟨hlt, ?_⟩
  have hlt' : k * r.fixed.toNat + 32768 < 18446744073709551616 := hlt
  simp only [UInt64.toNat_shiftRight, UInt64.toNat_add, UInt64.toNat_mul, UInt64.toNat_ofNat,
    UInt32.toNat_toUInt64]
  simp [targetBin, Nat.shiftRight_eq_div_pow, Nat.mod_eq_of_lt hlt']

/-- A target bin is the scaled bin `k · fixed / 65536` rounded to the nearest integer, ties
upward. -/
theorem targetBin_eq_round (r : PitchRatio) (k : Nat) :
    (r.targetBin k : ℤ) = round ((k : ℚ) * (r.fixed.toNat / 65536)) := by
  rw [round_eq]
  have h : (k : ℚ) * (r.fixed.toNat / 65536) + 1 / 2 =
      ((k * r.fixed.toNat + 32768 : ℕ) : ℚ) / ((65536 : ℕ) : ℚ) := by
    push_cast; ring
  rw [h, Rat.floor_natCast_div_natCast, ← Int.natCast_div]
  rfl

theorem targetBin_mono (r : PitchRatio) {a b : Nat} (h : a ≤ b) : r.targetBin a ≤ r.targetBin b :=
  Nat.div_le_div_right (Nat.add_le_add_right (Nat.mul_le_mul_right _ h) _)

theorem one_le_binCount (r : PitchRatio) : 1 ≤ r.binCount := by
  unfold binCount
  split
  · omega
  · exact Nat.le_min.2 ⟨by decide, Nat.le_add_left 1 _⟩

/-- The kept bins are exactly the bins whose target is at most bin 512. -/
theorem mem_range_binCount (r : PitchRatio) (k : Nat) :
    k ∈ List.range r.binCount ↔ k < 513 ∧ r.targetBin k ≤ 512 := by
  rw [List.mem_range]
  exact ⟨fun hk => ⟨lt_of_lt_of_le hk r.binCount_le, r.targetBin_le_last hk⟩,
    fun h => r.lt_binCount_of_targetBin_le h.1 h.2⟩

theorem scale_eq (r : PitchRatio) :
    (r.scale : Float) = Float.ofNat r.fixed.toNat * ((1 : Float) / 65536) := rfl

open Float.Model.UnpackedFloat in
theorem unpack_inv65536 :
    ((1 : Float) / 65536).toModel.unpack = .finite .positive (2 ^ 52) (-68) (by decide) := rfl

open Float.Model.UnpackedFloat in
/-- The binary64 scale is the fixed-point value exactly, `fixed / 65536`. -/
theorem value_scale (r : PitchRatio) :
    value (r.scale : Float) = some ((r.fixed.toNat : ℚ) / 65536) := by
  rcases Nat.eq_zero_or_pos r.fixed.toNat with h0 | hpos
  · rw [scale_eq, h0]
    simp only [Nat.cast_zero, zero_div]
    rfl
  · -- `fixed` converts exactly to a normal double, and the product only lowers its exponent
    have hf := r.fixed.toNat_lt
    obtain ⟨hm, hn⟩ := unpack_ofNat hpos (by omega)
    set L := r.fixed.toNat.log2
    have hcan := packable_unpack (Float.ofNat r.fixed.toNat).toModel
    rw [hn] at hcan
    obtain ⟨hlt, hlo, -, hnorm⟩ := hcan
    have hL : L ≤ 52 := by
      have : L < 32 := (Nat.log2_lt hpos.ne').mpr hf
      omega
    have hcan' : Canonical (r.fixed.toNat * 2 ^ (52 - L)) ((L : Int) - 52 + -68 + 52) :=
      ⟨hlt, by omega, by omega, .inl (hnorm.resolve_right (by omega))⟩
    rw [scale_eq, value, unpack_mul_pow_two hn unpack_inv65536 hcan']
    simp only [unpackedValue, Sign.apply, Option.some.injEq]
    have he : (((52 - L : Nat) : Int) + ((L : Int) - 52 + -68 + 52)) = -16 := by omega
    push_cast
    rw [mul_assoc, ← zpow_natCast, ← zpow_add₀ (by norm_num), he]
    norm_num
    ring

/-- Fixed-point bin arithmetic is exact for every 32-bit ratio, zero and the largest included.
The binary64 scale is `fixed / 65536`; the 64-bit target computation does not overflow for any
`k ≤ 2^32` and gives the nearest bin to `k · fixed / 65536`, ties upward; and the kept bins,
between one and 513 of them, are exactly those whose target is at most bin 512. -/
theorem bin_arithmetic_exact (r : PitchRatio) :
    value (r.scale : Float) = some ((r.fixed.toNat : ℚ) / 65536) ∧
    (∀ k ≤ 2 ^ 32, k * r.fixed.toNat + 32768 < 2 ^ 64 ∧
      ((UInt64.ofNat k * r.fixed.toUInt64 + 32768) >>> 16).toNat = r.targetBin k) ∧
    (∀ k, (r.targetBin k : ℤ) = round ((k : ℚ) * (r.fixed.toNat / 65536))) ∧
    (∀ k ≤ 512, k < r.binCount ↔ r.targetBin k ≤ 512) ∧
    1 ≤ r.binCount ∧ r.binCount ≤ 513 ∧
    ∀ k, k ∈ List.range r.binCount ↔ k < 513 ∧ r.targetBin k ≤ 512 := by
  refine ⟨r.value_scale, fun k hk => r.targetBin_word hk, r.targetBin_eq_round,
    fun k hk => ?_, r.one_le_binCount, r.binCount_le, r.mem_range_binCount⟩
  have h := r.mem_range_binCount k
  rw [List.mem_range] at h
  exact ⟨fun hc => (h.1 hc).2, fun ht => h.2 ⟨by omega, ht⟩⟩

end PitchRatio

/-! ## Remapping, bin by bin -/

namespace BinSet

variable {α : Type} [Scalar α]

/-- Analysis bin `k`, silent past the last bin. -/
def binAt (A : BinSet α) (k : Nat) : Bin α := if h : k < 513 then A.get ⟨k, h⟩ else Bin.zero

theorem binAt_of_lt (A : BinSet α) {k : Nat} (h : k < 513) : binAt A k = A.get ⟨k, h⟩ := dif_pos h

/-- The analysis bins that `r` moves onto synthesis bin `j`, in increasing order. -/
def contributors (r : PitchRatio) (j : Nat) : List Nat :=
  (List.range r.binCount).filter fun k => r.targetBin k = j

/-- The magnitudes of the bins `ks` added left to right, from zero. -/
def magnitudeSum (A : BinSet α) (ks : List Nat) : α :=
  ks.foldl (fun s k => s + (binAt A k).magnitude) 0

/-- The bins of `ks` louder than the bins of `ks` before them together. -/
def leaders (A : BinSet α) (ks : List Nat) : List Nat :=
  ks.filter fun k => Scalar.lt (magnitudeSum A (ks.filter (· < k))) (binAt A k).magnitude

/-- The frequency that the bins `ks` give a synthesis bin: the last leader's, scaled by the
ratio, or zero without a leader. -/
def leaderFreq (r : PitchRatio) (A : BinSet α) (ks : List Nat) : α :=
  match (leaders A ks).getLast? with
  | some k => (binAt A k).freq * r.scale
  | none => 0

theorem magnitudeSum_append_singleton (A : BinSet α) (ks : List Nat) (n : Nat) :
    magnitudeSum A (ks ++ [n]) = magnitudeSum A ks + (binAt A n).magnitude := by
  simp [magnitudeSum]

/-- A bin after all of `ks` leads exactly when it is louder than all of them together; the
bins of `ks` lead or not as before. -/
theorem leaders_append_singleton (A : BinSet α) {ks : List Nat} {n : Nat}
    (h : ∀ k ∈ ks, k < n) :
    leaders A (ks ++ [n]) = leaders A ks ++
      if Scalar.lt (magnitudeSum A ks) (binAt A n).magnitude then [n] else [] := by
  have hbefore : ∀ k ∈ ks, (ks ++ [n]).filter (· < k) = ks.filter (· < k) := by
    intro k hk
    simp [List.filter_append, Nat.not_lt.2 (Nat.le_of_lt (h k hk))]
  have hlast : (ks ++ [n]).filter (· < n) = ks := by
    rw [List.filter_append, List.filter_eq_self.2 (fun k hk => by simpa using h k hk)]
    simp
  unfold leaders
  rw [List.filter_append, List.filter_congr (fun k hk => by rw [hbefore k hk])]
  simp only [List.filter_cons, List.filter_nil, hlast]

theorem leaderFreq_append_singleton (r : PitchRatio) (A : BinSet α) {ks : List Nat} {n : Nat}
    (h : ∀ k ∈ ks, k < n) :
    leaderFreq r A (ks ++ [n]) =
      if Scalar.lt (magnitudeSum A ks) (binAt A n).magnitude then (binAt A n).freq * r.scale
      else leaderFreq r A ks := by
  unfold leaderFreq
  rw [leaders_append_singleton A h]
  by_cases hc : Scalar.lt (magnitudeSum A ks) (binAt A n).magnitude
  · simp [hc]
  · simp [hc]

/-- Remapping, read bin by bin: synthesis bin `j` holds the magnitudes of its contributors added
in order, and the scaled frequency of its last leader. -/
theorem remap_get (A : BinSet α) (r : PitchRatio) (j : Fin 513) :
    (A.remap r).get j = ⟨magnitudeSum A (contributors r j), leaderFreq r A (contributors r j)⟩ := by
  -- after the first `n` kept bins, bin `j` holds what those among them that land on it give
  have key : ∀ n ≤ r.binCount, ((List.range n).foldl (fun s k =>
      if h : k < 513 then deposit r s (r.targetBin k) (A.get ⟨k, h⟩) else s) BinSet.zero).get j =
      ⟨magnitudeSum A ((List.range n).filter (r.targetBin · = j)),
        leaderFreq r A ((List.range n).filter (r.targetBin · = j))⟩ := by
    intro n hn
    induction n with
    | zero => simp [BinSet.zero, magnitudeSum, leaderFreq, leaders, Bin.zero]
    | succ n ih =>
      have hn' : n < 513 := lt_of_lt_of_le hn r.binCount_le
      have ht : r.targetBin n < 513 := Nat.lt_succ_of_le (r.targetBin_le_last hn)
      have hbelow : ∀ k ∈ (List.range n).filter (r.targetBin · = j), k < n :=
        fun k hk => List.mem_range.1 (List.mem_filter.1 hk).1
      rw [List.range_succ, List.foldl_append, List.foldl_cons, List.foldl_nil, dif_pos hn',
        deposit_of_lt _ _ ht, List.filter_append]
      have ih' := ih (by omega)
      by_cases hj : r.targetBin n = j.val
      · -- bin `n` lands on `j`: its magnitude is added, and it leads if louder than the sum
        simp only [ih', List.filter_cons, hj, decide_true, if_true, List.filter_nil,
          magnitudeSum_append_singleton, leaderFreq_append_singleton r A hbelow, binAt_of_lt A hn']
        simp [Vector.get_eq_getElem]
      · -- bin `n` lands elsewhere
        simp only [List.filter_cons, hj, decide_false, Bool.false_eq_true, if_false,
          List.filter_nil, List.append_nil]
        rw [← ih']
        simp only [Vector.get_eq_getElem, Vector.getElem_set, hj, if_false]
  unfold remap contributors
  exact key _ le_rfl

/-- The contributors of a synthesis bin are consecutive analysis bins. -/
theorem contributors_consecutive (r : PitchRatio) (j : Nat) {a b c : Nat} (hab : a ≤ b)
    (hbc : b ≤ c) (ha : a ∈ contributors r j) (hc : c ∈ contributors r j) :
    b ∈ contributors r j := by
  simp only [contributors, List.mem_filter, List.mem_range, decide_eq_true_eq] at ha hc ⊢
  have h₁ := r.targetBin_mono hab
  have h₂ := r.targetBin_mono hbc
  exact ⟨by omega, by omega⟩

theorem contributors_unity (j : Fin 513) : contributors PitchRatio.unity j = [j.val] := by
  simp only [contributors, binCount_unity, targetBin_unity]
  rw [List.filter_eq, List.count_eq_one_of_mem List.nodup_range (List.mem_range.2 j.isLt)]
  rfl

/-- At unity a sounding bin comes through unchanged on binary64: its magnitude is added to zero,
which is exact for a positive double, and its frequency is multiplied by the scale one. -/
theorem remap_unity_of_pos (A : BinSet Float) (j : Fin 513) (h : 0 < (A.get j).magnitude) :
    (A.remap PitchRatio.unity).get j = A.get j := by
  have hs : (PitchRatio.unity.scale : Float) = Float.ofBits 0x3FF0000000000000 := rfl
  have hlt : Scalar.lt (0 : Float) (A.get j).magnitude = true := decide_eq_true h
  rw [remap_unity, hlt, if_pos rfl, hs, mul_one_eq]
  exact congrArg (Bin.mk · (A.get j).freq) (zero_add_of_pos h)

/-- Remapping meets its reference reading, for every analysis set and every ratio, on any
scalars. Synthesis bin `j` holds the magnitudes of the analysis bins landing on it (consecutive
bins, in increasing order) added left to right from zero, and the scaled frequency of the last
of them louder than all before it together, or zero; a bin nothing lands on is silent at
frequency zero. At unity each bin lands on itself alone, and on binary64 a sounding bin comes
through unchanged. -/
theorem remap_matches_reference :
    (∀ {α : Type} [Scalar α] (A : BinSet α) (r : PitchRatio) (j : Fin 513),
      (A.remap r).get j = ⟨magnitudeSum A (contributors r j), leaderFreq r A (contributors r j)⟩ ∧
      (contributors r j = [] → (A.remap r).get j = Bin.zero)) ∧
    (∀ (r : PitchRatio) (j a b c : Nat), a ≤ b → b ≤ c → a ∈ contributors r j →
      c ∈ contributors r j → b ∈ contributors r j) ∧
    (∀ j : Fin 513, contributors PitchRatio.unity j = [j.val]) ∧
    ∀ (A : BinSet Float) (j : Fin 513), 0 < (A.get j).magnitude →
      (A.remap PitchRatio.unity).get j = A.get j := by
  refine ⟨fun A r j => ⟨remap_get A r j, fun h => ?_⟩,
    fun r j _ _ _ hab hbc ha hc => contributors_consecutive r j hab hbc ha hc,
    contributors_unity, remap_unity_of_pos⟩
  rw [remap_get, h]
  rfl

end BinSet

end PhaseVocoder
