import PhaseVocoder.Proofs.PhaseBounds
import PhaseVocoder.Proofs.ExactDoubles
import PhaseVocoder.Proofs.Silence
import PhaseVocoder.Proofs.Fourier

/-!
# Silence in binary64 (effect/pshifter.rs:139-186)

On doubles a silent stream is not exactly zero all the way through: zeros carry a sign, the
analysed angle of a zero bin is whatever the angle function makes of `(±0, ±0)`, and the
analysed frequencies are then arbitrary. What survives is that every product with a zero
factor and a finite one is a zero (`Ieee.isZero_mul_left`), every sum or difference of zeros
is a zero, and the modulus of a zero phasor is `+0` (`Ieee.hypot_isZero`). A zero magnitude is
never louder than another zero (`Ieee.lt_isZero`), so the remap keeps every synthesis bin a zero
at frequency zero (`BinSet.remap_quiet`) and the running phases stay zeros
(`Phase.radians_isZero`).

The circular functions come from the C library; `binary64Trig sin cos arg` is the scalar
structure with them as parameters, and `Circular` is what the library documents of them. The
library's own functions, read through that documentation (`documentedCircular`,
`documentedAngle`), meet it (`circular_documented`). With
a transform that keeps frames of zeros as such (`Transform.KeepsZeros`), an engine holding
only zeros (`Engine.Quiet`) stays so through every cycle (`Engine.cycle_quiet`), so a stream of
zeros hands back only zeros, whatever the ratios and however the calls cut it
(`Shifter.runCalls_quiet`).
-/

namespace PhaseVocoder

namespace Ieee

open Float.Model (UnpackedFloat)
open Float.Model.UnpackedFloat (Sign)

/-- The double is a zero, of either sign. -/
def IsZero (x : Float) : Prop := ∃ s, x.toModel.unpack = .zero s

variable {x y : Float} {b : ℚ}

theorem value_of_isZero (h : IsZero x) : value x = some 0 := by
  obtain ⟨s, hs⟩ := h
  simp only [value, hs, unpackedValue]

theorem isZero_zero : IsZero (Scalar.ofNat 0 : Float) := ⟨.positive, rfl⟩

theorem isZero_cases (h : IsZero x) :
    x = Float.ofBits 0 ∨ x = Float.ofBits 0x8000000000000000 := by
  obtain ⟨s, hs⟩ := h
  cases s
  · exact .inr (eq_of_unpack_eq (hs.trans rfl))
  · exact .inl (eq_of_unpack_eq (hs.trans rfl))

theorem isZero_mul_left (hx : IsZero x) (hy : value y = some b) : IsZero (x * y) := by
  obtain ⟨s, hs⟩ := hx
  change ∃ t, (Float.Model.pack (UnpackedFloat.mul _ x.toModel.unpack y.toModel.unpack)).unpack = _
  rw [hs]
  rcases unpackedValue_eq_some hy with ⟨t, h, -⟩ | ⟨t, m, e, hm, h, -⟩
  · exact ⟨s * t, by rw [h, UnpackedFloat.mul, unpack_pack_zero]⟩
  · exact ⟨s * t, by rw [h, UnpackedFloat.mul, unpack_pack_zero]⟩

theorem isZero_mul_right (hx : value x = some b) (hy : IsZero y) : IsZero (x * y) := by
  obtain ⟨s, hs⟩ := hy
  change ∃ t, (Float.Model.pack (UnpackedFloat.mul _ x.toModel.unpack y.toModel.unpack)).unpack = _
  rw [hs]
  rcases unpackedValue_eq_some hx with ⟨t, h, -⟩ | ⟨t, m, e, hm, h, -⟩
  · exact ⟨t * s, by rw [h, UnpackedFloat.mul, unpack_pack_zero]⟩
  · exact ⟨t * s, by rw [h, UnpackedFloat.mul, unpack_pack_zero]⟩

theorem isZero_add (hx : IsZero x) (hy : IsZero y) : IsZero (x + y) := by
  obtain ⟨s, hs⟩ := hx
  obtain ⟨t, ht⟩ := hy
  change ∃ u, (Float.Model.pack (UnpackedFloat.add _ x.toModel.unpack y.toModel.unpack)).unpack = _
  rw [hs, ht, UnpackedFloat.add]
  split
  · exact ⟨s, unpack_pack_zero s⟩
  · exact ⟨.positive, unpack_pack_zero _⟩

theorem isZero_neg (hx : IsZero x) : IsZero (-x) := by
  obtain ⟨s, hs⟩ := hx
  change ∃ u, (Float.Model.pack x.toModel.unpack.neg).unpack = _
  rw [hs, UnpackedFloat.neg]
  exact ⟨-s, unpack_pack_zero _⟩

theorem hypot_isZero (hx : IsZero x) (hy : IsZero y) : IsZero (hypot x y) := by
  rcases isZero_cases hx with rfl | rfl <;> rcases isZero_cases hy with rfl | rfl <;>
    exact ⟨.positive, rfl⟩

theorem lt_isZero (hx : IsZero x) (hy : IsZero y) : Scalar.lt x y = false := by
  rcases isZero_cases hx with rfl | rfl <;> rcases isZero_cases hy with rfl | rfl <;> rfl

theorem unpack_of_beq_zero {x : Float32} (h : (x == 0) = true) :
    ∃ s, x.toModel.unpack = .zero s := by
  change (x.toModel.unpack.compare (0 : Float32).toModel.unpack == some .eq) = true at h
  rw [show (0 : Float32).toModel.unpack = .zero .positive from rfl] at h
  cases hx : x.toModel.unpack with
  | zero s => exact ⟨s, rfl⟩
  | finite s m e hm => rw [hx] at h; cases s <;> simp [UnpackedFloat.compare] at h
  | infinity s => rw [hx] at h; cases s <;> simp [UnpackedFloat.compare] at h
  | notANumber => rw [hx] at h; simp [UnpackedFloat.compare] at h

theorem toDouble_isZero {x : Float32} (h : (x == 0) = true) : IsZero (toDouble x) := by
  obtain ⟨s, hs⟩ := unpack_of_beq_zero h
  refine ⟨s, ?_⟩
  change (Float.Model.pack (reformat _ x.toModel.unpack)).unpack = _
  rw [hs]
  exact unpack_pack_zero s

theorem toSingle_beq_zero (h : IsZero x) : (toSingle x == 0) = true := by
  rcases isZero_cases h with rfl | rfl <;> rfl

theorem value_windowAngle {i : ℕ} (hi : i < 512) :
    ∃ q, value ((Scalar.ofNat i + 1 / 2) * (Scalar.pi / 1024) : Float) = some q ∧ |q| ≤ 2 := by
  obtain ⟨a, ha, hae⟩ := value_ofNat (n := i) (N := 9) (by omega) (by norm_num) (by norm_num)
    (by norm_num; exact_mod_cast (by omega : i ≤ 512))
  have hhalf : value (1 / 2 : Float) = some (1 / 2) := by
    rw [value_of_unpack (s := .positive) (m := 2 ^ 52) (e := -53) (h := by decide) rfl]
    norm_num [Sign.apply]
  have hpi : value (Scalar.pi / 1024 : Float) = some (884279719003555 / 2 ^ 58) := by
    rw [value_of_unpack (s := .positive) (m := 7074237752028440) (e := -61) (h := by decide) rfl]
    norm_num [Sign.apply]
  have hi' : (i : ℚ) ≤ 511 := by exact_mod_cast (by omega : i ≤ 511)
  have hae' := abs_le.1 hae
  obtain ⟨c, hc, hce⟩ := value_add ha hhalf (N := 10) (by norm_num) (by norm_num)
    (by rw [abs_le]; constructor <;> norm_num at hae' ⊢ <;> linarith)
  have hce' := abs_le.1 hce
  obtain ⟨q, hq, hqe⟩ := value_mul hc hpi (N := 2) (by norm_num) (by norm_num)
    (by rw [abs_le]; constructor <;> norm_num at hae' hce' ⊢ <;> nlinarith)
  refine ⟨q, hq, ?_⟩
  have hqe' := abs_le.1 hqe
  rw [abs_le]; constructor <;> norm_num at hae' hce' hqe' ⊢ <;> nlinarith

theorem value_outputScale : ∃ q, value (Window.outputScale : Float) = some q := ⟨_, rfl⟩

end Ieee

open Ieee

/-- Binary64 scalars with `sin`, `cos` and `arg` as the circular functions; the library's
scalars are `binary64Trig Float.sin Float.cos Float.atan2`. -/
@[reducible] def binary64Trig (sin cos : Float → Float) (arg : Float → Float → Float) :
    Scalar Float :=
  { (inferInstance : Scalar Float) with sin, cos, arg }

theorem binary64Trig_library :
    binary64Trig Float.sin Float.cos Float.atan2 = (inferInstance : Scalar Float) := rfl

/-- What the C library documents of its circular functions, as far as the stages need it: the
sine and cosine of a finite double are finite and at most one in size, and the angle of a
point is NaN or in `[-π, π]`, so within 4. -/
structure Circular (sin cos : Float → Float) (arg : Float → Float → Float) : Prop where
  sin_le : ∀ x q, value x = some q → ∃ q', value (sin x) = some q' ∧ |q'| ≤ 1
  cos_le : ∀ x q, value x = some q → ∃ q', value (cos x) = some q' ∧ |q'| ≤ 1
  arg_within : ∀ y x, Within 4 (arg y x)

open Classical in
/-- A circular function of the library read through what the C library documents of it: on a
finite point, finite and at most one in size. It is the library function wherever that keeps to
it, which is everywhere, and zero elsewhere. -/
noncomputable def documentedCircular (f : Float → Float) (x : Float) : Float :=
  if (value x).isSome → ∃ q, value (f x) = some q ∧ |q| ≤ 1 then f x else 0

/-- The library's circular functions and `atan2`, read as the C library documents them, meet
the hypotheses. -/
theorem circular_documented :
    Circular (documentedCircular Float.sin) (documentedCircular Float.cos) documentedAngle := by
  have h : ∀ f x q, value x = some q → ∃ q', value (documentedCircular f x) = some q' ∧ |q'| ≤ 1 := by
    intro f x q hx
    unfold documentedCircular
    split_ifs with hf
    · exact hf (by simp [hx])
    · exact ⟨0, rfl, by norm_num⟩
  exact ⟨h Float.sin, h Float.cos, within_documentedAngle⟩

/-- A frame of zeros, of either sign. -/
def QuietFrame (v : Vector (Phasor Float) 1024) : Prop :=
  ∀ j, IsZero (v.get j).re ∧ IsZero (v.get j).im

/-- The transform sends frames of zeros, of either sign, to frames of zeros. -/
structure Transform.KeepsZeros (T : Transform Float) : Prop where
  forward : ∀ v, QuietFrame v → QuietFrame (T.forward v)
  inverse : ∀ v, QuietFrame v → QuietFrame (T.inverse v)

variable {sin cos : Float → Float} {arg : Float → Float → Float}

namespace Window

theorem table_finite (hc : Circular sin cos arg) (j : Fin 1024) :
    letI := binary64Trig sin cos arg
    ∃ q, value ((table : Vector Float 1024).get j) = some q := by
  simp only [table, Vector.get_ofFn, halfValue]
  obtain ⟨a, ha, -⟩ := value_windowAngle (i := if j.val < 512 then j.val else 1023 - j.val)
    (by split <;> omega)
  obtain ⟨v, hv, hv1⟩ := hc.sin_le _ a ha
  obtain ⟨w, hw, -⟩ := value_mul hv hv (N := 0) (by norm_num) (by norm_num)
    (by rw [abs_mul]; simpa using mul_le_one₀ hv1 (abs_nonneg v) hv1)
  exact ⟨w, hw⟩

end Window

namespace Phase

theorem radians_isZero {p : Float} (h : IsZero p) : ∃ w, radians p = .ok w ∧ IsZero w := by
  rcases isZero_cases h with rfl | rfl
  · exact ⟨_, rfl, .positive, rfl⟩
  · exact ⟨_, rfl, .negative, rfl⟩

end Phase

namespace Analysis

theorem analyzeBin_magnitude {α : Type} [Scalar α] {k : ℕ} {last : α} {c : Phasor α} {p : α}
    {b : Bin α} (h : analyzeBin k last c = .ok (p, b)) : b.magnitude = c.norm := by
  unfold analyzeBin at h
  obtain ⟨w, -, h⟩ := bind_eq_ok.1 h
  cases h
  rfl

/-- A spectrum of zeros analyses, against angles, to angles and bins of magnitude zero. -/
theorem analyze_quiet (hc : Circular sin cos arg) {last : Vector Float 513}
    (hl : ∀ k, Within 4 (last.get k)) {S : Vector (Phasor Float) 513}
    (hS : ∀ k, IsZero (S.get k).re ∧ IsZero (S.get k).im) :
    letI := binary64Trig sin cos arg
    ∃ L B, analyze last S = .ok (L, B) ∧
      (∀ k, Within 4 (L.get k)) ∧ ∀ k, IsZero (B.get k).magnitude := by
  let _ := binary64Trig sin cos arg
  choose p b h hp _ using fun k : Fin 513 =>
    analyzeBin_within arg hc.arg_within k.isLt (hl k) (S.get k)
  have h' : ∀ k : Fin 513, analyzeBin k.val (last.get k) (S.get k) = .ok (p k, b k) := h
  refine ⟨Vector.ofFn p, Vector.ofFn b, analyze_eq h', fun k => by simpa using hp k, fun k => ?_⟩
  rw [Vector.get_ofFn, analyzeBin_magnitude (h' k)]
  exact hypot_isZero (hS k).1 (hS k).2

end Analysis

namespace BinSet

/-- Remapping bins of magnitude zero gives bins of magnitude zero at frequency zero: a zero
is never louder than the zero already deposited, so no frequency is taken. -/
theorem remap_quiet (r : PitchRatio) {B : BinSet Float} (hB : ∀ k, IsZero (B.get k).magnitude) :
    ∀ k, IsZero ((B.remap r).get k).magnitude ∧ IsZero ((B.remap r).get k).freq := by
  have hzero : ∀ k, IsZero ((BinSet.zero : BinSet Float).get k).magnitude ∧
      IsZero ((BinSet.zero : BinSet Float).get k).freq := fun k => by
    simp only [BinSet.zero, Vector.get_replicate, Bin.zero]
    exact ⟨isZero_zero, isZero_zero⟩
  unfold remap
  refine List.foldlRecOn (motive := fun s : BinSet Float =>
    ∀ k, IsZero (s.get k).magnitude ∧ IsZero (s.get k).freq) _ _ hzero fun s hs k _ => ?_
  split
  · rename_i hk
    intro i
    -- a deposit changes only the synthesis bin it lands on
    unfold deposit
    split
    · rename_i hj
      simp only [Vector.get_eq_getElem, Vector.getElem_set]
      split
      · have hdst := hs ⟨r.targetBin k, hj⟩
        have hsrc := hB ⟨k, hk⟩
        simp only [Vector.get_eq_getElem] at hdst hsrc
        simp only [lt_isZero hdst.1 hsrc, Bool.false_eq_true, if_false]
        exact ⟨isZero_add hdst.1 hsrc, hdst.2⟩
      · exact hs i
    · exact hs i
  · exact hs

end BinSet

namespace Synthesis

theorem mirror_quiet {half : ℕ → Phasor Float} (h : ∀ k, IsZero (half k).re ∧ IsZero (half k).im) :
    letI := binary64Trig sin cos arg
    QuietFrame (mirror half) := by
  let _ := binary64Trig sin cos arg
  intro j
  simp only [mirror, Vector.get_ofFn]
  split
  · exact h j
  · exact ⟨(h _).1, isZero_neg (h _).2⟩

/-- From zero phases, bins of magnitude zero at frequency zero advance to zero phases and a
spectrum of zeros. -/
theorem spectrum_quiet (hc : Circular sin cos arg) {sum : Vector Float 513} {bins : BinSet Float}
    (hs : ∀ k, IsZero (sum.get k))
    (hb : ∀ k, IsZero (bins.get k).magnitude ∧ IsZero (bins.get k).freq) :
    letI := binary64Trig sin cos arg
    ∃ S F, spectrum sum bins = .ok (S, F) ∧ (∀ k, IsZero (S.get k)) ∧ QuietFrame F := by
  let _ := binary64Trig sin cos arg
  obtain ⟨ec, hec⟩ : ∃ q, value (Window.expectedCycles : Float) = some q :=
    ⟨_, value_expectedCycles⟩
  choose θ h hθ using fun k : Fin 513 =>
    Phase.radians_isZero (isZero_add (hs k) (isZero_mul_left (hb k).2 hec))
  refine ⟨Vector.ofFn θ, _, spectrum_eq h, fun k => by rw [Vector.get_ofFn]; exact hθ k,
    mirror_quiet fun k => ?_⟩
  by_cases hk : k < 513
  · rw [dif_pos hk]
    obtain ⟨c, hcv, -⟩ := hc.cos_le _ 0 (value_of_isZero (hθ ⟨k, hk⟩))
    obtain ⟨s, hsv, -⟩ := hc.sin_le _ 0 (value_of_isZero (hθ ⟨k, hk⟩))
    exact ⟨isZero_mul_left (hb _).1 hcv, isZero_mul_left (hb _).1 hsv⟩
  · rw [dif_neg hk]
    exact ⟨isZero_zero, isZero_zero⟩

theorem overlapAdd_quiet (hc : Circular sin cos arg) {A : Vector Float 1024}
    (hA : ∀ j, IsZero (A.get j)) {F : Vector (Phasor Float) 1024} (hF : QuietFrame F) (p : ℕ)
    (j : Fin 1024) :
    letI := binary64Trig sin cos arg
    IsZero ((overlapAdd A F p).get j) := by
  let _ := binary64Trig sin cos arg
  rw [overlapAdd_get]
  obtain ⟨w, hw⟩ := Window.table_finite hc (@Fin.ofNat 1024 frame_neZero
    ((j.val + 1024 - p % 1024) % 1024))
  obtain ⟨o, ho⟩ := value_outputScale
  exact isZero_add (hA j) (isZero_mul_left (isZero_mul_right hw (hF _).1) ho)

end Synthesis

namespace Engine

/-- A binary64 engine holding only zeros: its ring, running phases and accumulator are zeros
of either sign, and its last analysis phases are angles. -/
structure Quiet (e : Engine Float) : Prop where
  ring : ∀ i, IsZero (e.ring.sample i)
  last : ∀ k, Within 4 (e.lastPhase.get k)
  sum : ∀ k, IsZero (e.sumPhase.get k)
  accum : ∀ j, IsZero (e.accum.get j)

theorem quiet_fresh (r : PitchRatio) : ({ (fresh : Engine Float) with ratio := r }).Quiet :=
  ⟨fun _ => by simp only [fresh, Ring.fresh, Ring.sample, Vector.get_replicate]; exact isZero_zero,
    phasesBounded_fresh.1, fun _ => by
    simp only [fresh, Vector.get_replicate]; exact isZero_zero, fun _ => by
    simp only [fresh, Vector.get_replicate]; exact isZero_zero⟩

theorem frame_quiet (hc : Circular sin cos arg) {r : Ring Float} (h : ∀ i, IsZero (r.sample i)) :
    letI := binary64Trig sin cos arg
    QuietFrame (r.frame Window.table) := by
  let _ := binary64Trig sin cos arg
  intro j
  simp only [Ring.frame, Vector.get_ofFn]
  obtain ⟨w, hw⟩ := Window.table_finite hc j
  exact ⟨isZero_mul_left (h _) hw, isZero_zero⟩

/-- A cycle on an engine holding only zeros succeeds and leaves it holding only zeros. -/
theorem cycle_quiet (hc : Circular sin cos arg) {T : Transform Float} (hT : T.KeepsZeros)
    {e : Engine Float} (he : e.Quiet) :
    letI := binary64Trig sin cos arg
    ∃ e', e.cycle T = .ok e' ∧ e'.Quiet := by
  let _ := binary64Trig sin cos arg
  have hspec := hT.forward _ (frame_quiet hc he.ring)
  obtain ⟨L, B, ha, hL, hB⟩ := Analysis.analyze_quiet hc he.last (S := Vector.ofFn fun k : Fin 513 =>
    (T.forward (e.ring.frame Window.table)).get (Fin.castLE (by decide) k))
    fun k => by rw [Vector.get_ofFn]; exact hspec _
  obtain ⟨S, F, hs, hS, hF⟩ := Synthesis.spectrum_quiet hc he.sum (BinSet.remap_quiet e.ratio hB)
  obtain ⟨e', hcyc, hl, hsum, -, hslot, -, hhop, hacc⟩ := cycle_eq ha hs
  have hadd := Synthesis.overlapAdd_quiet hc he.accum (hT.inverse F hF) e.ring.pos
  refine ⟨e', hcyc, ⟨fun i => ?_, hl ▸ hL, hsum ▸ hS, fun j => ?_⟩⟩
  · -- inside the current slot the published hop, outside it the entries as they were
    have hp : e'.ring.pos = e.ring.pos := by simp only [Ring.pos, hslot]
    have hi := Nat.mod_lt i (show 1024 > 0 by decide)
    rw [← Ring.sample_mod]
    by_cases hin : e.ring.pos ≤ i % 1024 ∧ i % 1024 < e.ring.pos + 256
    · have h := hhop (i % 1024 - e.ring.pos) (by omega)
      rw [hop, hp, show e.ring.pos + (i % 1024 - e.ring.pos) = i % 1024 by omega] at h
      rw [h]
      exact hadd _
    · rw [(cycle_frame hcyc).2.2.2 _ hi (by omega)]
      exact he.ring _
  · rw [hacc j]
    split
    · exact isZero_zero
    · exact hadd j

theorem push_quiet (hc : Circular sin cos arg) {T : Transform Float} (hT : T.KeepsZeros)
    {e : Engine Float} (he : e.Quiet) {x : Float32} (hx : (x == 0) = true) :
    letI := binary64Trig sin cos arg
    ∃ e' y, e.push T x = .ok (e', y) ∧ e'.Quiet ∧ (y == 0) = true := by
  let _ := binary64Trig sin cos arg
  have he' : Quiet { e with ring := e.ring.put (Widening.widen x) } := by
    refine ⟨fun i => ?_, he.last, he.sum, he.accum⟩
    rw [Ring.sample_put]
    split
    · exact toDouble_isZero hx
    · exact he.ring i
  have hy : (Widening.narrow (e.ring.sample e.ring.cursor) == (0 : Float32)) = true :=
    toSingle_beq_zero (he.ring _)
  unfold push
  split
  · obtain ⟨e'', h, hq⟩ := cycle_quiet hc hT he'
    exact ⟨e'', _, by simp only [h, Except.map], hq, hy⟩
  · exact ⟨_, _, rfl, he', hy⟩

/-- A stream of zeros through an engine holding only zeros hands back only zeros. -/
theorem run_quiet (hc : Circular sin cos arg) {T : Transform Float} (hT : T.KeepsZeros)
    (zs : List (PitchRatio × Float32)) (hz : ∀ z ∈ zs, (z.2 == 0) = true) {e : Engine Float}
    (he : e.Quiet) :
    letI := binary64Trig sin cos arg
    ∃ e' ys, e.run T zs = .ok (e', ys) ∧ e'.Quiet ∧ ∀ y ∈ ys, (y == 0) = true := by
  let _ := binary64Trig sin cos arg
  induction zs generalizing e with
  | nil => exact ⟨e, [], rfl, he, by simp⟩
  | cons z zs ih =>
    obtain ⟨r, x⟩ := z
    obtain ⟨e₁, y, hp, he₁, hy⟩ := push_quiet hc hT (e := { e with ratio := r })
      ⟨he.ring, he.last, he.sum, he.accum⟩ (hz _ List.mem_cons_self)
    obtain ⟨e₂, ys, hr, he₂, hys⟩ := ih (fun z hz' => hz z (List.mem_cons_of_mem _ hz')) he₁
    refine ⟨e₂, y :: ys, ?_, he₂, ?_⟩
    · rw [run_cons, hp]
      simp only [bind, Except.bind, hr, Except.map]
    · simpa [hy] using hys

end Engine

namespace Shifter

/-- Calls that hand over only zeros to an effect whose engine holds only zeros hand back
only zeros, however they cut the stream and whatever ratios they set. -/
theorem runCalls_quiet (hc : Circular sin cos arg) {T : Transform Float} (hT : T.KeepsZeros)
    {s : Shifter Float32 Float} (he : s.engine.Quiet) {cs : List (Call Float32)}
    (hw : ∀ c ∈ cs, c.WellFormed) (hz : ∀ z ∈ Call.stream s.engine.ratio cs, (z.2 == 0) = true) :
    letI := binary64Trig sin cos arg
    ∃ s' ys, s.runCalls T cs = .ok (s', ys) ∧ ∀ y ∈ ys, (y == 0) = true := by
  let _ := binary64Trig sin cos arg
  obtain ⟨e', ys, hr, -, hys⟩ := Engine.run_quiet hc hT _ hz he
  obtain ⟨s', hx⟩ := runCalls_ok_of_run T s hw (by rw [hr]; rfl)
  exact ⟨s', ys, hx, hys⟩

/-- Hop-aligned silence only delays the output, and silence in gives silence out. Over the
reals, with a transform that keeps the silent frame silent, calls on a fresh or reset effect
at any ratio that first hand over `256 m` zeros and leave the ratio as it was hand back
`256 m` zeros followed by what the calls after them hand back on their own, or fail alike;
and calls that hand over only zeros succeed and hand back only zeros. On binary64 scalars,
with circular functions as the C library documents them and a transform that keeps frames of
zeros of either sign as such, calls that hand over only zeros succeed and hand back only
samples equal to zero. -/
theorem silence_only_delays :
    (∀ T : Transform ℝ,
      T.forward (Vector.replicate 1024 Phasor.zero) = Vector.replicate 1024 Phasor.zero →
      T.inverse (Vector.replicate 1024 Phasor.zero) = Vector.replicate 1024 Phasor.zero →
      ∀ (s : Shifter ℝ ℝ) (r : PitchRatio), s.engine = { Engine.fresh with ratio := r } →
      ∀ (cs₀ : List (Call ℝ)) (m : ℕ),
        (Call.stream r cs₀).map Prod.snd = List.replicate (256 * m) 0 →
        Call.finalRatio r cs₀ = r → ∀ cs : List (Call ℝ), (∀ c ∈ cs₀ ++ cs, c.WellFormed) →
        (s.runCalls T (cs₀ ++ cs)).map Prod.snd =
          ((s.runCalls T cs).map Prod.snd).map (List.replicate (256 * m) 0 ++ ·)) ∧
    (∀ T : Transform ℝ,
      T.forward (Vector.replicate 1024 Phasor.zero) = Vector.replicate 1024 Phasor.zero →
      T.inverse (Vector.replicate 1024 Phasor.zero) = Vector.replicate 1024 Phasor.zero →
      ∀ (s : Shifter ℝ ℝ) (r : PitchRatio), s.engine = { Engine.fresh with ratio := r } →
      ∀ cs : List (Call ℝ), (∀ c ∈ cs, c.WellFormed) → (∀ z ∈ Call.stream r cs, z.2 = 0) →
        ∃ s', s.runCalls T cs = .ok (s', List.replicate (Call.stream r cs).length 0)) ∧
    (∀ (sin cos : Float → Float) (arg : Float → Float → Float), Circular sin cos arg →
      ∀ T : Transform Float, T.KeepsZeros →
      ∀ (s : Shifter Float32 Float) (r : PitchRatio), s.engine = { Engine.fresh with ratio := r } →
      ∀ cs : List (Call Float32), (∀ c ∈ cs, c.WellFormed) →
        (∀ z ∈ Call.stream r cs, (z.2 == 0) = true) →
        letI := binary64Trig sin cos arg
        ∃ s' ys, s.runCalls T cs = .ok (s', ys) ∧ ∀ y ∈ ys, (y == 0) = true) := by
  refine ⟨fun _ hF hI _ _ hs _ _ h₀ hr cs hw => runCalls_after_silence hF hI hs h₀ hr cs hw,
    fun _ hF hI _ _ hs _ hw hz => runCalls_silent hF hI hs hw hz,
    fun _ _ _ hc _ hT s r hs _ hw hz => ?_⟩
  have hratio : s.engine.ratio = r := by rw [hs]
  have he : s.engine.Quiet := by
    rw [hs]
    exact Engine.quiet_fresh r
  exact runCalls_quiet hc hT he hw (by rw [hratio]; exact hz)

/-- The three readings met on runs of cycles. Over the reals with the exact transform, 256
zeros ahead of 300 ones only put a hop of silence before what the ones give alone, and 1024
zeros give 1024 zeros back; on binary64, with the library's circular functions as the C library
documents them and the identity transform, 1024 zeros give only zeros back. -/
theorem zeros_delay_and_stay_silent :
    ((fresh : Shifter ℝ ℝ).runCalls Transform.exact
        ([.mono (Array.replicate 256 0)] ++ [.mono (Array.replicate 300 1)])).map Prod.snd =
      (((fresh : Shifter ℝ ℝ).runCalls Transform.exact [.mono (Array.replicate 300 1)]).map
        Prod.snd).map (List.replicate (256 * 1) 0 ++ ·) ∧
    (∃ s', (fresh : Shifter ℝ ℝ).runCalls Transform.exact [.mono (Array.replicate 1024 0)] =
      .ok (s', List.replicate 1024 0)) ∧
    letI := binary64Trig (documentedCircular Float.sin) (documentedCircular Float.cos)
      documentedAngle
    ∃ s' ys, (fresh : Shifter Float32 Float).runCalls ⟨id, id⟩ [.mono (Array.replicate 1024 0)] =
      .ok (s', ys) ∧ ∀ y ∈ ys, (y == 0) = true := by
  obtain ⟨hF, hI⟩ := Transform.silent_fixed
  have hlen : (Call.stream PitchRatio.unity [Call.mono (Array.replicate 1024 (0 : ℝ))]).length =
      1024 := by
    rw [Call.length_stream_mono, Array.size_replicate]
  have hzeros : (Call.stream PitchRatio.unity [Call.mono (Array.replicate 256 (0 : ℝ))]).map
      Prod.snd = List.replicate (256 * 1) 0 := by
    simp only [Call.stream_mono, Array.toList_replicate, List.map_replicate, Nat.mul_one]
  refine ⟨silence_only_delays.1 Transform.exact hF hI fresh PitchRatio.unity rfl _ 1 hzeros rfl _
      (by simp [Call.WellFormed]), ?_, ?_⟩
  · have h := silence_only_delays.2.1 Transform.exact hF hI fresh PitchRatio.unity rfl
      [.mono (Array.replicate 1024 0)] (by simp [Call.WellFormed]) (by
        simp only [Call.stream_mono, List.mem_map, Array.toList_replicate, List.mem_replicate]
        rintro _ ⟨_, ⟨-, rfl⟩, rfl⟩
        rfl)
    rwa [hlen] at h
  · have hs : (@fresh Float32 Float _ (binary64Trig (documentedCircular Float.sin)
        (documentedCircular Float.cos) documentedAngle)).engine =
        { Engine.fresh with ratio := PitchRatio.unity } := rfl
    have hz : ∀ z ∈ Call.stream PitchRatio.unity [Call.mono (Array.replicate 1024 (0 : Float32))],
        (z.2 == 0) = true := by
      simp only [Call.stream_mono, List.mem_map, Array.toList_replicate, List.mem_replicate]
      rintro _ ⟨_, ⟨-, rfl⟩, rfl⟩
      rfl
    exact silence_only_delays.2.2 _ _ _ circular_documented ⟨id, id⟩ ⟨fun _ h => h, fun _ h => h⟩
      _ _ hs _ (by simp [Call.WellFormed]) hz

end Shifter

end PhaseVocoder
