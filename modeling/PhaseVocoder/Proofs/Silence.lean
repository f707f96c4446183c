import PhaseVocoder.Proofs.Delay
import PhaseVocoder.Proofs.Remap
import PhaseVocoder.Proofs.Rotation

/-!
# Silence (effect/pshifter.rs:139-186)

Over the reals, with a transform that maps the silent frame to itself, a cycle on a silent
frame from an engine holding nothing leaves it holding nothing: analysis reads zero
magnitudes, the remap's strict comparison keeps every synthesis bin at frequency zero, so the
running phases stay at zero, and the overlap-added frame is silent (`Engine.cycle_silent`).
A stream that starts with `m` silent hops therefore leaves the engine as fresh, its slot `m`
hops on (`Engine.replay_silent`). Since a cycle commutes with turning the ring, the rest of
the stream then runs as it would from a fresh engine, turned (`Engine.replay_after_silence`): the
silent hops only delay the output.
-/

namespace PhaseVocoder

open Real

namespace Phase

theorem radians_zero : radians (0 : ℝ) = .ok 0 := by
  obtain ⟨m, hm, hb⟩ := radians_exact (p := 0) (by norm_num)
  -- the only whole number of turns within a turn of zero is zero
  have hπ := Real.pi_pos
  have hm0 : m = 0 := by
    rw [zero_sub, abs_neg, abs_mul, abs_of_pos (by positivity)] at hb
    have h : |(m : ℝ)| < 1 := by nlinarith
    exact Int.abs_lt_one_iff.1 (by exact_mod_cast h)
  rw [hm, hm0]
  simp

end Phase

namespace BinSet

/-- Over the reals silent bins remap to the silent bin set, whatever their frequencies: a
synthesis bin takes a frequency only from a louder bin. -/
theorem remap_silent (r : PitchRatio) {B : BinSet ℝ} (h : ∀ k, (B.get k).magnitude = 0) :
    B.remap r = BinSet.zero := by
  have hb : ∀ k, (binAt B k).magnitude = 0 := fun k => by
    unfold binAt
    split
    · exact h _
    · simp [Bin.zero]
  have hsum : ∀ ks, magnitudeSum B ks = 0 := fun ks => by
    simp [magnitudeSum, hb]
  have hlead : ∀ ks, leaders B ks = [] := fun ks => by
    simp [leaders, hsum, hb]
  refine Vector.ext fun j hj => ?_
  have hj' := remap_get B r ⟨j, hj⟩
  simp only [Vector.get_eq_getElem] at hj'
  rw [hj', hsum, leaderFreq, hlead]
  simp [BinSet.zero, Bin.zero]

end BinSet

namespace Engine

/-- An engine holding nothing: its phases and its accumulator are zero. -/
structure Silent (e : Engine ℝ) : Prop where
  last : e.lastPhase = Vector.replicate 513 0
  sum : e.sumPhase = Vector.replicate 513 0
  accum : e.accum = Vector.replicate 1024 0

theorem silent_fresh : (fresh : Engine ℝ).Silent :=
  ⟨by simp [fresh], by simp [fresh], by simp [fresh]⟩

variable {T : Transform ℝ}

theorem analyze_silent {last : Vector ℝ 513} (hl : ∀ k, |last.get k| ≤ π) :
    ∃ B : BinSet ℝ, Analysis.analyze last (Vector.replicate 513 Phasor.zero) =
      .ok (Vector.replicate 513 0, B) ∧ ∀ k, (B.get k).magnitude = 0 := by
  obtain ⟨f, ha, -⟩ := Analysis.analyze_exact hl (Vector.replicate 513 Phasor.zero)
  have harg : (Phasor.zero : Phasor ℝ).arg = 0 := by
    rw [Phasor.arg_eq, Phasor.toComplex_zero, Complex.arg_zero]
  have hnorm : (Phasor.zero : Phasor ℝ).norm = 0 := by
    rw [Phasor.norm_eq, Phasor.toComplex_zero, norm_zero]
  refine ⟨Vector.ofFn fun k => ⟨(Phasor.zero : Phasor ℝ).norm, f k⟩, ha.trans ?_, fun k => ?_⟩
  · refine congrArg Except.ok (Prod.ext ?_ ?_)
    · ext k hk
      simp [harg]
    · ext k hk
      simp
  · simp [hnorm]

theorem spectrum_silent :
    Synthesis.spectrum (Vector.replicate 513 (0 : ℝ)) BinSet.zero =
      .ok (Vector.replicate 513 0, Vector.replicate 1024 Phasor.zero) := by
  have h := @Synthesis.spectrum_eq ℝ _ (Vector.replicate 513 0) BinSet.zero (fun _ => 0)
    fun k => by simpa [BinSet.zero, Bin.zero] using Phase.radians_zero
  refine h.trans (congrArg Except.ok (Prod.ext ?_ ?_))
  · ext k hk; simp
  · ext k hk
    simp [Synthesis.mirror, BinSet.zero, Bin.zero, Phasor.polar, Phasor.zero, Phasor.conj]

theorem frame_load_zero (s : Fin 4) :
    (Ring.load s (Vector.replicate 1024 (0 : ℝ))).frame Window.table =
      Vector.replicate 1024 Phasor.zero := by
  rw [Ring.frame_load]
  ext j hj
  simp [Phasor.zero]

/-- A silent cycle: on a silent frame an engine holding nothing holds nothing after the cycle,
and publishes a silent hop. -/
theorem cycle_silent
    (hF : T.forward (Vector.replicate 1024 Phasor.zero) = Vector.replicate 1024 Phasor.zero)
    (hI : T.inverse (Vector.replicate 1024 Phasor.zero) = Vector.replicate 1024 Phasor.zero)
    {e : Engine ℝ} (he : e.Silent)
    (hf : e.ring.frame Window.table = Vector.replicate 1024 Phasor.zero) :
    ∃ e', e.cycle T = .ok e' ∧ e'.Silent ∧ e'.ring.slot = e.ring.slot ∧
      e'.ring.fill = e.ring.fill ∧ e'.ratio = e.ratio ∧ ∀ i < 256, e'.hop i = 0 := by
  obtain ⟨B, ha, hB⟩ := @analyze_silent e.lastPhase fun k => by
    simp [he.last, Real.pi_pos.le]
  have hspec : (Vector.ofFn fun k : Fin 513 =>
      (T.forward (e.ring.frame Window.table)).get (Fin.castLE (by decide) k)) =
        Vector.replicate 513 Phasor.zero := by
    rw [hf, hF]
    ext k hk
    simp
  have ha' : Analysis.analyze e.lastPhase (Vector.ofFn fun k : Fin 513 =>
      (T.forward (e.ring.frame Window.table)).get (Fin.castLE (by decide) k)) =
        .ok (Vector.replicate 513 0, B) := by
    rw [hspec]
    exact ha
  have hs : Synthesis.spectrum e.sumPhase (B.remap e.ratio) =
      .ok (Vector.replicate 513 0, Vector.replicate 1024 Phasor.zero) := by
    rw [BinSet.remap_silent _ hB, he.sum]
    exact spectrum_silent
  have hadd : ∀ j, (Synthesis.overlapAdd e.accum (T.inverse (Vector.replicate 1024 Phasor.zero))
      e.ring.pos).get j = 0 := fun j => by
    rw [Synthesis.overlapAdd_get, hI, he.accum]
    simp [Synthesis.contribution, Phasor.zero]
  obtain ⟨e', hc, hlast, hsum, hratio, hslot, hfill, hhop, hacc⟩ := cycle_eq ha' hs
  refine ⟨e', hc, ⟨hlast, hsum, ?_⟩, hslot, hfill, hratio, fun i hi => by rw [hhop i hi, hadd]⟩
  ext j hj
  have h := hacc ⟨j, hj⟩
  simp only [hadd] at h
  simpa [Vector.get_eq_getElem] using h

theorem hops_silent {e : Engine ℝ} (h : ∀ i < 256, e.hop i = 0) :
    (List.range 256).map e.hop = List.replicate 256 0 :=
  List.eq_replicate_iff.2 ⟨by simp, fun y hy => by
    obtain ⟨i, hi, rfl⟩ := List.mem_map.1 hy
    exact h i (List.mem_range.1 hi)⟩

/-- A stream silent for its first `m` hops takes a fresh engine through `m` silent cycles: the
engine holds nothing, has handed back zeros, and publishes a silent hop. -/
theorem replay_silent
    (hF : T.forward (Vector.replicate 1024 Phasor.zero) = Vector.replicate 1024 Phasor.zero)
    (hI : T.inverse (Vector.replicate 1024 Phasor.zero) = Vector.replicate 1024 Phasor.zero)
    {x : ℕ → ℝ} (ρ : ℕ → PitchRatio) {m : ℕ} (hx : ∀ t < 256 * m, x t = 0) :
    ∀ n ≤ m, ∃ e, replay T x ρ n = .ok (e, List.replicate (256 * n) 0) ∧ e.Silent ∧
      ∀ i < 256, e.hop i = 0
  | 0, _ => ⟨fresh, rfl, silent_fresh, fun i _ => by simp [hop_fresh]⟩
  | n + 1, hn => by
    obtain ⟨e, hr, hs, hh⟩ := replay_silent hF hI ρ hx n (by omega)
    have hframe : frameAt x (n + 1) = Vector.replicate 1024 0 := by
      ext j hj
      simp only [frameAt, Vector.getElem_ofFn, Vector.getElem_replicate]
      split
      · exact hx _ (by omega)
      · simp
    have hs₁ : (e.atCycle x n (ρ (n + 1))).Silent := by
      constructor <;> simp only [atCycle, hs.last, hs.sum, hs.accum]
    have hf₁ : (e.atCycle x n (ρ (n + 1))).ring.frame Window.table =
        Vector.replicate 1024 Phasor.zero := by
      rw [atCycle, hframe]; exact frame_load_zero _
    obtain ⟨e', hc, hs', -, -, -, hh'⟩ := cycle_silent hF hI hs₁ hf₁
    refine ⟨e', ?_, hs', hh'⟩
    rw [replay_succ, hr]
    simp only [bind, Except.bind, hc, Except.map, hops_silent hh,
      show 256 * (n + 1) = 256 * n + 256 by ring, List.replicate_add]

theorem turnAccum_zero (d : Fin 4) :
    Synthesis.turnAccum d (Vector.replicate 1024 (0 : ℝ)) = Vector.replicate 1024 0 := by
  ext j hj
  simp [Synthesis.turnAccum]

/-- An engine holding nothing and publishing silence is the fresh engine with its ring turned
to the engine's slot. -/
theorem Silent.shifted_fresh {e : Engine ℝ} (hs : e.Silent) (hh : ∀ i < 256, e.hop i = 0)
    {d : Fin 4} (hslot : e.ring.slot = (fresh : Engine ℝ).ring.slot + d) : Shifted d e fresh :=
  ⟨hslot, by rw [hs.last, silent_fresh.last], by rw [hs.sum, silent_fresh.sum],
    by rw [hs.accum, silent_fresh.accum, turnAccum_zero],
    fun i hi => by rw [hh i hi, hop_fresh]; simp⟩

/-- Frames of a stream delayed by `m` silent hops are the stream's frames `m` cycles later. -/
theorem frameAt_delay {x x' : ℕ → ℝ} {m : ℕ}
    (hx : ∀ t, x' t = if t < 256 * m then 0 else x (t - 256 * m)) (n : ℕ) :
    frameAt x' (m + n) = frameAt x n := by
  ext j hj
  simp only [frameAt, Vector.getElem_ofFn, hx]
  by_cases h : 1024 ≤ 256 * n + j
  · rw [if_pos (by omega), if_pos h, if_neg (by omega),
      show 256 * (m + n) + j - 1024 - 256 * m = 256 * n + j - 1024 by omega]
  · rw [if_neg h]
    split
    · rw [if_pos (by omega)]
      simp
    · simp

/-- A stream delayed by `m` silent hops replays as the stream itself, `m` cycles later and with
the ring `m` hops on; the first `256 m` samples handed back are zeros. A cycle that fails fails
alike in both. -/
theorem replay_after_silence
    (hF : T.forward (Vector.replicate 1024 Phasor.zero) = Vector.replicate 1024 Phasor.zero)
    (hI : T.inverse (Vector.replicate 1024 Phasor.zero) = Vector.replicate 1024 Phasor.zero)
    {x x' : ℕ → ℝ} {ρ ρ' : ℕ → PitchRatio} {m : ℕ}
    (hx : ∀ t, x' t = if t < 256 * m then 0 else x (t - 256 * m))
    (hρ : ∀ n, ρ' (m + n + 1) = ρ (n + 1)) :
    ∀ n, (∃ f, replay T x ρ n = .error f ∧ replay T x' ρ' (m + n) = .error f) ∨
      ∃ e out e', replay T x ρ n = .ok (e, out) ∧
        replay T x' ρ' (m + n) = .ok (e', List.replicate (256 * m) 0 ++ out) ∧
        Shifted (Fin.ofNat 4 m) e' e
  | 0 => by
    obtain ⟨e', hr, hs, hh⟩ := replay_silent hF hI ρ' (x := x') (m := m) (fun t ht => by
      rw [hx, if_pos ht]) m le_rfl
    have hslot := (replay_ring hr).2.1
    refine .inr ⟨fresh, [], e', rfl, by simpa using hr, hs.shifted_fresh hh ?_⟩
    ext
    simp only [Fin.val_add, Fin.val_ofNat, hslot]
    simp only [fresh, Ring.fresh]
    omega
  | n + 1 => by
    rcases replay_after_silence hF hI hx hρ n with ⟨f, h, h'⟩ | ⟨e, out, e', h, h', hsh⟩
    · refine .inl ⟨f, ?_, ?_⟩
      · rw [replay_succ T x ρ n, h]; rfl
      · rw [show m + (n + 1) = m + n + 1 from rfl, replay_succ T x' ρ' (m + n), h']; rfl
    · -- the next cycles run on the same frame, `m` hops apart
      have hf : frameAt x' (m + n + 1) = frameAt x (n + 1) := frameAt_delay hx (n + 1)
      have hc := cycle_shifted T hsh hf (ρ (n + 1))
      have hhops : (List.range 256).map e'.hop = (List.range 256).map e.hop :=
        List.map_congr_left fun i hi => hsh.hop i (List.mem_range.1 hi)
      rw [show m + (n + 1) = m + n + 1 from rfl, replay_succ T x' ρ' (m + n), h', hρ,
        replay_succ T x ρ n, h]
      simp only [bind, Except.bind]
      rw [hhops, hc]
      rcases cycle T (e.atCycle x n (ρ (n + 1))) with f | e₁
      · exact .inl ⟨f, rfl, rfl⟩
      · exact .inr ⟨e₁, out ++ (List.range 256).map e.hop, e₁.turn _, rfl,
          by simp [Except.map], shifted_turn _ e₁⟩

theorem map_narrow (l : List ℝ) : l.map (@Widening.narrow ℝ ℝ _) = l := List.map_id l

theorem inputAt_append_silence {zs₀ : List (PitchRatio × ℝ)} {m : ℕ}
    (hlen : zs₀.length = 256 * m) (hz : ∀ z ∈ zs₀, z.2 = 0) (zs : List (PitchRatio × ℝ)) (t : ℕ) :
    (inputAt (zs₀ ++ zs) t : ℝ) = if t < 256 * m then 0 else inputAt zs (t - 256 * m) := by
  unfold inputAt
  split
  · rename_i ht
    have ht' : t < zs₀.length := by omega
    rw [List.getElem?_append_left ht', List.getElem?_eq_getElem ht']
    simp [hz _ (List.getElem_mem ht'), Widening.widen]
  · rw [List.getElem?_append_right (by omega), hlen]

theorem ratioAt_append_silence {zs₀ zs : List (PitchRatio × ℝ)} {m : ℕ} (hlen : zs₀.length = 256 * m)
    (n : ℕ) : ratioAt (zs₀ ++ zs) (m + n + 1) = ratioAt zs (n + 1) := by
  unfold ratioAt
  rw [List.getElem?_append_right (by omega), hlen,
    show 256 * (m + n + 1) - 1 - 256 * m = 256 * (n + 1) - 1 by omega]

/-- Over the reals, with a transform that keeps the silent frame silent: a stream that starts
with `m` silent hops hands back `256 m` zeros and then what the rest of the stream hands back
from a fresh engine, or fails alike. -/
theorem run_after_silence
    (hF : T.forward (Vector.replicate 1024 Phasor.zero) = Vector.replicate 1024 Phasor.zero)
    (hI : T.inverse (Vector.replicate 1024 Phasor.zero) = Vector.replicate 1024 Phasor.zero)
    {zs₀ : List (PitchRatio × ℝ)} {m : ℕ} (hlen : zs₀.length = 256 * m)
    (hz : ∀ z ∈ zs₀, z.2 = 0) (zs : List (PitchRatio × ℝ)) :
    (fresh.run T (zs₀ ++ zs)).map Prod.snd =
      ((fresh.run T zs).map Prod.snd).map (List.replicate (256 * m) 0 ++ ·) := by
  have hsch := run_schedule T zs
  have hsch' := run_schedule T (zs₀ ++ zs)
  have hl' : (zs₀ ++ zs).length / 256 = m + zs.length / 256 ∧
      (zs₀ ++ zs).length % 256 = zs.length % 256 := by
    simp only [List.length_append, hlen]; omega
  rw [hl'.1, hl'.2] at hsch'
  rcases replay_after_silence hF hI (inputAt_append_silence hlen hz zs) (ratioAt_append_silence hlen)
    (zs.length / 256) with ⟨f, h, h'⟩ | ⟨e, out, e', h, h', hsh⟩
  · -- the same cycle fails in both
    rw [h] at hsch
    rw [h'] at hsch'
    rw [map_eq_error.1 hsch, map_eq_error.1 hsch']
    rfl
  · rw [h] at hsch
    rw [h'] at hsch'
    obtain ⟨⟨E, ys⟩, hr, hv⟩ := map_eq_ok.1 hsch
    obtain ⟨⟨E', ys'⟩, hr', hv'⟩ := map_eq_ok.1 hsch'
    simp only [Prod.mk.injEq] at hv hv'
    rw [hr, hr']
    simp only [Except.map, hv.2.2.2.2.2, hv'.2.2.2.2.2, map_narrow, List.append_assoc]
    congr 3
    exact List.map_congr_left fun i hi => hsh.hop i (by simp at hi; omega)

/-- Over the reals, with a transform that keeps the silent frame silent, a silent stream runs
from a fresh engine and hands back only zeros. -/
theorem run_silent
    (hF : T.forward (Vector.replicate 1024 Phasor.zero) = Vector.replicate 1024 Phasor.zero)
    (hI : T.inverse (Vector.replicate 1024 Phasor.zero) = Vector.replicate 1024 Phasor.zero)
    {zs : List (PitchRatio × ℝ)} (hz : ∀ z ∈ zs, z.2 = 0) :
    ∃ e, fresh.run T zs = .ok (e, List.replicate zs.length 0) := by
  have hx : ∀ t, (inputAt zs t : ℝ) = 0 := fun t => by
    unfold inputAt
    rcases h : zs[t]? with _ | z
    · simp
    · simp [hz z (List.mem_of_getElem? h), Widening.widen]
  obtain ⟨e, hr, -, hh⟩ := replay_silent hF hI (ratioAt zs) (m := zs.length / 256)
    (fun t _ => hx t) _ le_rfl
  have hsch := run_schedule T zs
  rw [hr] at hsch
  obtain ⟨⟨E, ys⟩, hrun, hv⟩ := map_eq_ok.1 hsch
  simp only [Prod.mk.injEq] at hv
  refine ⟨E, hrun.trans ?_⟩
  have hpart : (List.range (zs.length % 256)).map e.hop = List.replicate (zs.length % 256) 0 :=
    List.eq_replicate_iff.2 ⟨by simp, fun y hy => by
      obtain ⟨i, hi, rfl⟩ := List.mem_map.1 hy
      exact hh i (by simp at hi; omega)⟩
  rw [hv.2.2.2.2.2, hpart, ← List.replicate_add, map_narrow,
    show 256 * (zs.length / 256) + zs.length % 256 = zs.length by omega]

theorem map_snd_of_snd {β δ ε : Type} (x : Except ε (β × δ)) {f : β × δ → β × δ}
    (hf : ∀ p, (f p).2 = p.2) : (x.map f).map Prod.snd = x.map Prod.snd := by
  cases x <;> simp [Except.map, hf]

/-- The ratio a fresh engine starts with does not change what a run hands back. -/
theorem run_fresh_ratio (T : Transform ℝ) (r : PitchRatio) (zs : List (PitchRatio × ℝ)) :
    ({ (fresh : Engine ℝ) with ratio := r }.run T zs).map Prod.snd =
      (fresh.run T zs).map Prod.snd := by
  have h := congrArg (Except.map Prod.snd) (run_with_ratio T fresh r r zs)
  refine (map_snd_of_snd _ ?_).symm.trans (h.trans (map_snd_of_snd _ ?_)) <;> intro _ <;> rfl

end Engine

namespace Call

variable {σ : Type}

theorem stream_append (r : PitchRatio) (cs₀ cs : List (Call σ)) :
    stream r (cs₀ ++ cs) = stream r cs₀ ++ stream (finalRatio r cs₀) cs := by
  induction cs₀ generalizing r with
  | nil => rfl
  | cons c cs₀ ih => simp [stream, finalRatio, ih]

end Call

namespace Shifter

/-- What calls on an effect hand back is what its engine hands back on the stream they hand
over. -/
theorem runCalls_snd {σ α : Type} [SampleArith σ] [Scalar α] [Widening σ α] (T : Transform α)
    (s : Shifter σ α) (cs : List (Call σ)) (hw : ∀ c ∈ cs, c.WellFormed) :
    (s.runCalls T cs).map Prod.snd =
      (s.engine.run T (Call.stream s.engine.ratio cs)).map Prod.snd := by
  have h := runCalls_eq_run T s cs hw
  rcases hx : s.runCalls T cs with f | ⟨s', ys⟩ <;> rw [hx] at h
  · rw [map_eq_error.1 h.symm]; rfl
  · obtain ⟨⟨e, ys'⟩, hr, he⟩ := map_eq_ok.1 h.symm
    simp only [Prod.mk.injEq] at he
    rw [hr, ← he.2]; rfl

theorem runCalls_ok_of_run {σ α : Type} [SampleArith σ] [Scalar α] [Widening σ α]
    (T : Transform α) (s : Shifter σ α) {cs : List (Call σ)} (hw : ∀ c ∈ cs, c.WellFormed)
    {ys : List σ} (h : (s.engine.run T (Call.stream s.engine.ratio cs)).map Prod.snd = .ok ys) :
    ∃ s', s.runCalls T cs = .ok (s', ys) := by
  obtain ⟨⟨s', ys'⟩, hx, rfl⟩ := map_eq_ok.1 ((runCalls_snd T s cs hw).trans h)
  exact ⟨s', hx⟩

variable {T : Transform ℝ}

/-- Over the reals, with a transform that keeps the silent frame silent: calls on a fresh or
reset effect at any ratio that first hand over `m` silent hops, and leave the ratio as it
was, hand back `256 m` zeros and then what the calls after them hand back on their own, or
fail alike. -/
theorem runCalls_after_silence
    (hF : T.forward (Vector.replicate 1024 Phasor.zero) = Vector.replicate 1024 Phasor.zero)
    (hI : T.inverse (Vector.replicate 1024 Phasor.zero) = Vector.replicate 1024 Phasor.zero)
    {s : Shifter ℝ ℝ} {r : PitchRatio} (hs : s.engine = { Engine.fresh with ratio := r })
    {cs₀ : List (Call ℝ)} {m : ℕ}
    (h₀ : (Call.stream r cs₀).map Prod.snd = List.replicate (256 * m) 0)
    (hr : Call.finalRatio r cs₀ = r) (cs : List (Call ℝ)) (hw : ∀ c ∈ cs₀ ++ cs, c.WellFormed) :
    (s.runCalls T (cs₀ ++ cs)).map Prod.snd =
      ((s.runCalls T cs).map Prod.snd).map (List.replicate (256 * m) 0 ++ ·) := by
  have hlen : (Call.stream r cs₀).length = 256 * m := by
    simpa using congrArg List.length h₀
  have hz : ∀ z ∈ Call.stream r cs₀, z.2 = 0 := fun z hz =>
    List.eq_of_mem_replicate (h₀ ▸ List.mem_map_of_mem hz)
  have hratio : s.engine.ratio = r := by rw [hs]
  rw [runCalls_snd T s _ hw, runCalls_snd T s cs fun c hc => hw c (List.mem_append_right _ hc),
    hratio, hs, Call.stream_append, hr, Engine.run_fresh_ratio]
  rw [Engine.run_fresh_ratio T r (Call.stream r cs)]
  exact Engine.run_after_silence hF hI hlen hz _

/-- Over the reals, with a transform that keeps the silent frame silent: calls on a fresh or
reset effect at any ratio that hand over only silence, however they cut it and whatever
ratios they set, succeed and hand back only zeros. -/
theorem runCalls_silent
    (hF : T.forward (Vector.replicate 1024 Phasor.zero) = Vector.replicate 1024 Phasor.zero)
    (hI : T.inverse (Vector.replicate 1024 Phasor.zero) = Vector.replicate 1024 Phasor.zero)
    {s : Shifter ℝ ℝ} {r : PitchRatio} (hs : s.engine = { Engine.fresh with ratio := r })
    {cs : List (Call ℝ)} (hw : ∀ c ∈ cs, c.WellFormed) (hz : ∀ z ∈ Call.stream r cs, z.2 = 0) :
    ∃ s', s.runCalls T cs = .ok (s', List.replicate (Call.stream r cs).length 0) := by
  obtain ⟨e, he⟩ := Engine.run_silent hF hI hz
  have hratio : s.engine.ratio = r := by rw [hs]
  refine runCalls_ok_of_run T s hw ?_
  rw [hratio, hs, Engine.run_fresh_ratio, he]
  rfl

end Shifter

end PhaseVocoder
