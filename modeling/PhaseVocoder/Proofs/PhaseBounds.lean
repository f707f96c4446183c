import PhaseVocoder.Proofs.Binary64
import PhaseVocoder.Proofs.Basic
import PhaseVocoder.Proofs.Ring
import PhaseVocoder.Shifter.Engine

/-!
# Bounded phases (shift/phase.rs:14-34, shift/analysis.rs:59-82, shift/synthesis.rs:65-82)

The only computation of a spectral cycle that can fault on binary64 is the even turn count of
the two phase wraps: `q + q % 2` overflows the signed 64-bit word when the truncation `q`
saturates, that is for arguments from `2^63` up. This module shows that the arguments stay
small, so every cycle succeeds.

The engine keeps two phase vectors between cycles. The last analysis phases are angles, NaN or
within 4 for an angle function with the C library's range; the running synthesis phases are
wrapped by `radians` and stay within 16 (`PhasesBounded`). From these, analysis frequencies are
within 1024 bins, remapped ones within `2^28` for every ratio below `2^16`, and each
synthesis phase advance is within `2^29` before its wrap. The wrap itself is where rounding
matters: `radians_turns` bounds `p - π · round(p/π)` with the rounding errors of binary64
arithmetic, so the new phase is within 16 again (`cycle_bounded`). NaN from the input passes
through as NaN and truncates to a turn count of zero.
-/

namespace PhaseVocoder

open Ieee Float.Model Float.Model.UnpackedFloat

/-! ## Constants -/

theorem value_pi : value (Scalar.pi : Float) = some (884279719003555 / 2 ^ 48) := by
  rw [value_of_unpack (s := .positive) (m := 7074237752028440) (e := -51) (h := by decide) rfl]
  norm_num [Sign.apply]

theorem value_invPi : value (Scalar.invPi : Float) = some (5734161139222659 / 2 ^ 54) := by
  rw [value_of_unpack (s := .positive) (m := 5734161139222659) (e := -54) (h := by decide) rfl]
  norm_num [Sign.apply]

/-- The phase advance of bin one over a hop, `2π/4`, computed in binary64. -/
theorem value_expectedCycles :
    value (Window.expectedCycles : Float) = some (884279719003555 / 2 ^ 49) := by
  rw [value_of_unpack (s := .positive) (m := 7074237752028440) (e := -52) (h := by decide) rfl]
  norm_num [Sign.apply]

theorem value_twoPi : value (2 * Scalar.pi : Float) = some (884279719003555 / 2 ^ 47) := by
  rw [value_of_unpack (s := .positive) (m := 7074237752028440) (e := -50) (h := by decide) rfl]
  norm_num [Sign.apply]

theorem value_two : value (Scalar.ofNat 2 : Float) = some 2 := by
  rw [value_of_unpack (s := .positive) (m := 2 ^ 52) (e := -51) (h := by decide) rfl]
  norm_num [Sign.apply]

theorem ofNat_within {n : Nat} {N : Int} (hn : n ≤ 2 ^ 52) (h0 : 0 ≤ N) (hN : N ≤ 1021)
    (h : (n : ℚ) ≤ 2 ^ N) : Within (n + 2 ^ (N - 50)) (Scalar.ofNat n : Float) := by
  obtain ⟨q, hq, e⟩ := value_ofNat (lt_of_le_of_lt hn (by norm_num)) h0 hN h
  refine .of_value hq ?_
  have := abs_sub_abs_le_abs_sub q n
  rw [abs_of_nonneg (by positivity : (0 : ℚ) ≤ n)] at this
  linarith

theorem within_expectedCycles : Within 2 (Window.expectedCycles : Float) :=
  .of_value value_expectedCycles (by norm_num)

theorem within_invPi : Within (1 / 3) (Scalar.invPi : Float) :=
  .of_value value_invPi (by norm_num)

theorem within_two : Within 2 (Scalar.ofNat 2 : Float) := .of_value value_two (by norm_num)

/-! ## Phase wraps -/

namespace Phase

theorem evenTurns_nan {x : Float} (hx : IsNaN x) : evenTurns x = .ok 0 := by
  simp only [evenTurns, Scalar.truncate, truncInt64_nan hx]
  rfl

/-- The even integer found for a finite double below `2^61` is less than two away from it. -/
theorem evenTurns_spec {x : Float} {a : ℚ} (hx : value x = some a) (ha : |a| ≤ 2 ^ 61) :
    ∃ n : Int, evenTurns x = .ok n ∧ |a - n| < 2 ∧ |(n : ℚ)| ≤ |a| + 1 := by
  obtain ⟨h₁, h₂⟩ := truncInt64_spec hx (le_trans ha (by norm_num))
  set q := truncInt64 x
  have hr₁ := Int.lt_tmod_of_pos q (by decide : (0 : Int) < 2)
  have hr₂ := Int.tmod_lt_of_pos q (by decide : (0 : Int) < 2)
  have hr : |((q.tmod 2 : Int) : ℚ)| ≤ 1 := by
    rw [abs_le]; constructor <;> exact_mod_cast (by omega)
  have hq : |(q : ℚ)| ≤ 2 ^ 61 := le_trans h₁ ha
  have hq' : |q| ≤ 2 ^ 61 := by exact_mod_cast hq
  refine ⟨q + q.tmod 2, ?_, ?_, ?_⟩
  · have ht : (Scalar.truncate x : Int) = q := rfl
    simp only [evenTurns, ht]
    exact Word.add_eq_ok (by rw [abs_le] at hq'; simp only [Word.i64]; omega)
  · push_cast
    have := abs_sub (a - q) (q.tmod 2 : ℚ)
    rw [show a - q - (q.tmod 2 : ℚ) = a - (q + (q.tmod 2 : ℚ)) by ring] at this
    linarith
  · push_cast
    have := abs_add_le (q : ℚ) (q.tmod 2 : ℚ)
    linarith

theorem value_ofInt_zero : value (Scalar.ofInt 0 : Float) = some 0 := rfl

/-- `halfTurns` of NaN or of a double of magnitude at most 8 succeeds, with a result of
magnitude at most 64 or NaN. -/
theorem halfTurns_within {x : Float} (hx : Within 8 x) :
    ∃ r, halfTurns x = .ok r ∧ Within 64 r := by
  obtain ⟨n, hn, hc⟩ : ∃ n, evenTurns x = .ok n ∧ Within 17 (Scalar.ofInt n : Float) := by
    rcases hx with hx | ⟨a, ha, hA⟩
    · exact ⟨0, evenTurns_nan hx, .of_value value_ofInt_zero (by norm_num)⟩
    · obtain ⟨n, hn, -, hb⟩ := evenTurns_spec ha (by linarith)
      have hb' : |(n : ℚ)| ≤ 2 ^ (4 : Int) := by norm_num; linarith
      have hi := natAbs_lt_of_abs_le (k := 4) (by norm_num) (by simpa using hb')
      exact ⟨n, hn, (Within.ofInt hi (by norm_num) (by norm_num) hb').mono (by norm_num)⟩
  have hw : Within 32 (x - Scalar.ofInt n) :=
    (hx.sub hc (N := 5) (by norm_num) (by norm_num) (by norm_num)).mono (by norm_num)
  have h2 : Within 2 (Scalar.ofNat 2 : Float) := .of_value value_two (by norm_num)
  refine ⟨_, by simp only [halfTurns, hn]; rfl, Within.ite _ ?_ (hw.mono (by norm_num))⟩
  exact (hw.add h2 (N := 6) (by norm_num) (by norm_num) (by norm_num)).mono (by norm_num)

/-- The turn count that `radians` subtracts: for a phase of magnitude at most `2^29`, the even
integer nearest `p/π` times π is within 8 of `p`. The product of the rounded `π` and `1/π`
differs from one by less than `2^-52`, so the rounding errors stay far below one. -/
theorem radians_turns {p : Float} (hp : Within (2 ^ 29) p) :
    ∃ n, evenTurns (p * Scalar.invPi) = .ok n ∧ Within 8 (p - Scalar.pi * Scalar.ofInt n) := by
  rcases hp with hp | ⟨P, hP, hPb⟩
  · exact ⟨0, evenTurns_nan (isNaN_mul_left hp _), .inl (isNaN_sub_left hp _)⟩
  have hP' := abs_le.mp hPb
  obtain ⟨y, hy, ey⟩ := value_mul hP value_invPi (N := 28) (by norm_num) (by norm_num)
    (by rw [abs_mul, abs_of_pos (by norm_num : (0 : ℚ) < 5734161139222659 / 2 ^ 54)]
        linarith)
  have ey' := abs_le.mp ey
  obtain ⟨n, hn, en, hnb⟩ := evenTurns_spec hy (by rw [abs_le]; constructor <;> norm_num at ey' ⊢ <;> linarith)
  have en' := abs_le.mp (le_of_lt en)
  have hn' : |(n : ℚ)| ≤ 2 ^ (29 : Int) := by
    have := abs_le.mpr (show -(2 ^ 28 + 1 : ℚ) ≤ y ∧ y ≤ 2 ^ 28 + 1 by
      constructor <;> norm_num at ey' ⊢ <;> linarith)
    norm_num; linarith
  have hi := natAbs_lt_of_abs_le (k := 29) (by norm_num) (by simpa using hn')
  obtain ⟨c, hc, ec⟩ := value_ofInt hi (by norm_num) (by norm_num) hn'
  have ec' := abs_le.mp ec
  have hn'' := abs_le.mp hn'
  obtain ⟨d, hd, ed⟩ := value_mul value_pi hc (N := 31) (by norm_num) (by norm_num)
    (by rw [abs_le]; constructor <;> norm_num at ec' hn'' ⊢ <;> nlinarith)
  have ed' := abs_le.mp ed
  -- `p - π n` is within 7 of zero before its own rounding
  have hdiff : |P - d| ≤ 7 := by
    rw [abs_le]; constructor <;> norm_num at hP' ey' en' ec' ed' ⊢ <;> nlinarith
  obtain ⟨w, hw, ew⟩ := value_sub hP hd (N := 3) (by norm_num) (by norm_num)
    (le_trans hdiff (by norm_num))
  refine ⟨n, hn, .of_value hw ?_⟩
  have := abs_sub_abs_le_abs_sub w (P - d)
  norm_num at ew
  linarith

/-- `radians` of NaN or of a phase of magnitude at most `2^29` succeeds, with a result of
magnitude at most 16 or NaN. -/
theorem radians_within {p : Float} (hp : Within (2 ^ 29) p) :
    ∃ r, radians p = .ok r ∧ Within 16 r := by
  obtain ⟨n, hn, hw⟩ := radians_turns hp
  have h2 : Within (884279719003555 / 2 ^ 47) (2 * Scalar.pi : Float) :=
    .of_value value_twoPi (by norm_num)
  refine ⟨_, by simp only [radians, hn]; rfl, Within.ite _ ?_ (hw.mono (by norm_num))⟩
  exact (hw.add h2 (N := 4) (by norm_num) (by norm_num) (by norm_num)).mono (by norm_num)

end Phase

/-! ## Analysis -/

/-- Binary64 scalars with `arg` as the angle function. The library's scalars are
`binary64With Float.atan2`; the C library documents `atan2` as NaN or in `[-π, π]`, and the
bounds below need only NaN or `[-4, 4]`. -/
@[reducible] def binary64With (arg : Float → Float → Float) : Scalar Float :=
  { (inferInstance : Scalar Float) with arg }

theorem binary64With_atan2 : binary64With Float.atan2 = (inferInstance : Scalar Float) := rfl

open Classical in
/-- The library's `atan2` read through what the C library documents of it: NaN or in
`[-π, π]`, so within 4. It is `atan2` wherever `atan2` keeps to that, which is everywhere, and
zero elsewhere; unlike `atan2`, which is not open to proof, its bound is proved. -/
noncomputable def documentedAngle (y x : Float) : Float :=
  if Within 4 (Float.atan2 y x) then Float.atan2 y x else 0

theorem within_documentedAngle (y x : Float) : Within 4 (documentedAngle y x) := by
  unfold documentedAngle
  split_ifs with h
  · exact h
  · exact .of_value (q := 0) rfl (by norm_num)

section Analysis

variable (arg : Float → Float → Float)

theorem halfTurns_binary64With (x : Float) :
    @Phase.halfTurns Float (binary64With arg) x = Phase.halfTurns x := rfl

theorem within_mod_four (k : Nat) : Within 4 (Scalar.ofNat (k % 4) : Float) := by
  have h4 : k % 4 < 4 := Nat.mod_lt _ (by decide)
  have h3 : ((k % 4 : Nat) : ℚ) ≤ 3 := by exact_mod_cast (by omega : k % 4 ≤ 3)
  exact (ofNat_within (N := 2) (by omega) (by norm_num) (by norm_num)
    (by norm_num; linarith)).mono (by norm_num; linarith)

/-- The expected advance of bin `k` over one hop, `(k mod 4) · π/2` in binary64. -/
theorem within_expected (k : Nat) :
    Within 9 (Scalar.ofNat (k % 4) * Window.expectedCycles : Float) :=
  ((within_mod_four k).mul within_expectedCycles (N := 4) (by norm_num) (by norm_num)
    (by norm_num)).mono (by norm_num)

/-- One analysed bin: with an angle function bounded by 4, the new last phase is bounded by 4 and
the bin's frequency by 1024, and the wrap succeeds. -/
theorem analyzeBin_within (harg : ∀ y x, Within 4 (arg y x)) {k : Nat} (hk : k < 513)
    {last : Float} (hl : Within 4 last) (c : Phasor Float) :
    ∃ p b, @Analysis.analyzeBin Float (binary64With arg) k last c = .ok (p, b) ∧
      Within 4 p ∧ Within 1024 b.freq := by
  have hp : Within 4 (arg c.im c.re) := harg c.im c.re
  have hd₁ : Within 9 (arg c.im c.re - last) :=
    (hp.sub hl (N := 3) (by norm_num) (by norm_num) (by norm_num)).mono (by norm_num)
  have hd : Within 8 ((arg c.im c.re - last - Scalar.ofNat (k % 4) * Window.expectedCycles) *
      Scalar.invPi) :=
    ((hd₁.sub (within_expected k) (N := 5) (by norm_num) (by norm_num) (by norm_num)).mul
      within_invPi (N := 4) (by norm_num) (by norm_num) (by norm_num)).mono (by norm_num)
  obtain ⟨r, hr, hrw⟩ := Phase.halfTurns_within hd
  have hk' : Within 513 (Scalar.ofNat k : Float) :=
    (ofNat_within (N := 10) (by omega) (by norm_num) (by norm_num)
      (by norm_num; exact_mod_cast (by omega : k ≤ 1024))).mono (by
      have : (k : ℚ) ≤ 512 := by exact_mod_cast (by omega : k ≤ 512)
      norm_num; linarith)
  have hdev : Within 129 (r * Scalar.ofNat 2) :=
    (hrw.mul within_two (N := 7) (by norm_num) (by norm_num) (by norm_num)).mono (by norm_num)
  refine ⟨arg c.im c.re, ⟨c.norm, Scalar.ofNat k + r * Scalar.ofNat 2⟩, ?_, hp,
    (hk'.add hdev (N := 10) (by norm_num) (by norm_num) (by norm_num)).mono (by norm_num)⟩
  have ha : @Phasor.arg Float (binary64With arg) c = arg c.im c.re := rfl
  simp only [Analysis.analyzeBin, halfTurns_binary64With, ha]
  exact bind_eq_ok.mpr ⟨r, hr, rfl⟩

theorem analyze_within (harg : ∀ y x, Within 4 (arg y x)) {last : Vector Float 513}
    (hl : ∀ i : Fin 513, Within 4 (last.get i)) (spectrum : Vector (Phasor Float) 513) :
    ∃ r, @Analysis.analyze Float (binary64With arg) last spectrum = .ok r ∧
      (∀ i : Fin 513, Within 4 (r.1.get i)) ∧ (∀ i : Fin 513, Within 1024 (r.2.get i).freq) := by
  have hzero : ∀ i : Fin 513, Within 1024 ((BinSet.zero : BinSet Float).get i).freq :=
    fun i => .of_value (q := 0) (by simp only [BinSet.zero, Vector.get_replicate]; rfl) (by norm_num)
  unfold Analysis.analyze
  simp only [Std.Legacy.Range.forIn'_eq_forIn'_range']
  refine bind_pure_ok_of (P := fun st : Vector Float 513 × BinSet Float =>
      (∀ i : Fin 513, Within 4 (st.1.get i)) ∧ (∀ i : Fin 513, Within 1024 (st.2.get i).freq))
    (forIn'_ok _ _ _ ?_ _ ⟨hl, hzero⟩) (fun st h => h)
  intro a ha st hst
  have hk : a < 513 := by simpa using (List.mem_range'.mp ha)
  obtain ⟨p, b, hab, hp, hb⟩ :=
    analyzeBin_within arg harg hk (hl ⟨a, hk⟩) (spectrum.get ⟨a, hk⟩)
  refine ⟨(st.1.set a p hk, st.2.set a b hk), by rw [hab]; rfl, fun i => ?_, fun i => ?_⟩
  · simp only [Vector.get_eq_getElem, Vector.getElem_set]
    split
    · exact hp
    · exact hst.1 i
  · simp only [Vector.get_eq_getElem, Vector.getElem_set]
    split
    · exact hb
    · exact hst.2 i

end Analysis

section Remap

theorem within_scale (r : PitchRatio) : Within (2 ^ 17) (r.scale : Float) := by
  have hf : r.fixed.toNat < 2 ^ 32 := r.fixed.toNat_lt
  have hc : Within (1 / 65536) ((1 : Float) / 65536) :=
    .of_value (value_of_unpack (s := .positive) (m := 2 ^ 52) (e := -68) (h := by decide) rfl)
      (by norm_num [Sign.apply])
  have hn : Within (2 ^ 32 + 1) (Scalar.ofNat r.fixed.toNat : Float) :=
    (ofNat_within (N := 32) (by omega) (by norm_num) (by norm_num)
      (by norm_num; exact_mod_cast hf.le)).mono (by
        have : (r.fixed.toNat : ℚ) ≤ 2 ^ 32 := by exact_mod_cast hf.le
        norm_num; linarith)
  exact (hn.mul hc (N := 17) (by norm_num) (by norm_num) (by norm_num)).mono (by norm_num)

/-- Remapping moves each frequency bounded by 1024 to one bounded by `2^28`: a deposit keeps the
synthesis bin's frequency or scales the analysis bin's by the ratio, which is below `2^16`. -/
theorem remap_within (r : PitchRatio) {bins : BinSet Float}
    (hb : ∀ i : Fin 513, Within 1024 (bins.get i).freq) (i : Fin 513) :
    Within (2 ^ 28) ((bins.remap r).get i).freq := by
  have hzero : ∀ i : Fin 513, Within (2 ^ 28) ((BinSet.zero : BinSet Float).get i).freq :=
    fun i => .of_value (q := 0) (by simp only [BinSet.zero, Vector.get_replicate]; rfl) (by norm_num)
  revert i
  unfold BinSet.remap
  refine List.foldlRecOn (motive := fun s : BinSet Float =>
    ∀ i : Fin 513, Within (2 ^ 28) (s.get i).freq) _ _ hzero fun s hs k _ => ?_
  split
  · rename_i hk
    intro i
    unfold BinSet.deposit
    split
    · rename_i hj
      simp only [Vector.get_eq_getElem, Vector.getElem_set]
      split
      · apply Within.ite
        · exact ((hb ⟨k, hk⟩).mul (within_scale r) (N := 27) (by norm_num) (by norm_num)
            (by norm_num)).mono (by norm_num)
        · exact hs ⟨_, hj⟩
      · exact hs i
    · exact hs i
  · exact hs

end Remap

section Synthesis

theorem spectrum_within {sum : Vector Float 513} {bins : BinSet Float}
    (hs : ∀ i : Fin 513, Within 16 (sum.get i)) (hb : ∀ i : Fin 513, Within (2 ^ 28) (bins.get i).freq) :
    ∃ r, Synthesis.spectrum sum bins = .ok r ∧ ∀ i : Fin 513, Within 16 (r.1.get i) := by
  unfold Synthesis.spectrum
  dsimp only
  refine bind_pure_ok_of (P := fun st : Vector Float 513 × Array (Phasor Float) =>
      ∀ i : Fin 513, Within 16 (st.1.get i)) (forIn_ok _ _ _ ?_ _ hs) (fun st h => h)
  intro k _ st hst
  have hf : Within (884279719003555 / 2 ^ 49) (Window.expectedCycles : Float) :=
    .of_value value_expectedCycles (by norm_num)
  have hp : Within (2 ^ 29) (sum.get k + (bins.get k).freq * Window.expectedCycles) :=
    ((hs k).add ((hb k).mul hf (N := 29) (by norm_num) (by norm_num) (by norm_num)) (N := 29)
      (by norm_num) (by norm_num) (by norm_num)).mono (by norm_num)
  obtain ⟨p, hpk, hpw⟩ := Phase.radians_within hp
  refine ⟨_, by rw [hpk]; rfl, fun i => ?_⟩
  simp only [Vector.get_eq_getElem, Vector.getElem_set]
  split
  · exact hpw
  · exact hst i

end Synthesis

/-! ## The engine -/

/-- The phases an engine keeps between cycles: the last analysis phases are NaN or within 4
(an angle), the running synthesis phases NaN or within 16. -/
def PhasesBounded (e : Engine Float) : Prop :=
  (∀ i : Fin 513, Within 4 (e.lastPhase.get i)) ∧ (∀ i : Fin 513, Within 16 (e.sumPhase.get i))

theorem phasesBounded_fresh : PhasesBounded Engine.fresh :=
  ⟨fun _ => .of_value (q := 0) (by simp only [Engine.fresh, Vector.get_replicate]; rfl) (by norm_num),
    fun _ => .of_value (q := 0) (by simp only [Engine.fresh, Vector.get_replicate]; rfl) (by norm_num)⟩

section Cycle

variable (arg : Float → Float → Float)

theorem spectrum_binary64With (sum : Vector Float 513) (bins : BinSet Float) :
    @Synthesis.spectrum Float (binary64With arg) sum bins = Synthesis.spectrum sum bins := rfl

theorem remap_binary64With (r : PitchRatio) (bins : BinSet Float) :
    @BinSet.remap Float (binary64With arg) r bins = BinSet.remap r bins := rfl

/-- A cycle on an engine with bounded phases succeeds and leaves them bounded. -/
theorem cycle_bounded (harg : ∀ y x, Within 4 (arg y x)) (T : Transform Float)
    {e : Engine Float} (he : PhasesBounded e) :
    ∃ e', @Engine.cycle Float (binary64With arg) T e = .ok e' ∧ PhasesBounded e' := by
  unfold Engine.cycle
  refine bind_ok_of (analyze_within arg harg he.1 _) fun ⟨last, bins⟩ ⟨hlast, hbins⟩ => ?_
  simp only [spectrum_binary64With, remap_binary64With]
  refine bind_ok_of (spectrum_within he.2 (remap_within e.ratio hbins)) fun r hsum => ?_
  refine bind_ok_of ((Ring.storeHop_spec e.ring _ Array.size_ofFn).imp fun ring h => ⟨h.1, trivial⟩)
    fun ring _ => ⟨_, rfl, hlast, hsum⟩

end Cycle

end PhaseVocoder
