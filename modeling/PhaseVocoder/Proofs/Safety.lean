import PhaseVocoder.Proofs.PhaseBounds
import PhaseVocoder.Proofs.Stream

/-!
# The real-time path never faults (effect/pshifter.rs:139-246)

The effect's state is built by `fresh` and changed only by what a host calls: `reset`,
`deviceUpdate`, `setTuningCents`, `update`, `process` and `processMono` (`Shifter.Reachable`).
Every way the model can fault on that path is a check of the program it follows:

* a block written past the end of its hop, or a hop of the wrong size stored into the ring;
* an unwrapped phase whose turn count overflows a signed 64-bit word;
* an output window past the end of a line;
* total cents overflowing a signed 32-bit word in `update`.

The ring's own invariant (the slot is one of four and the hop holds fewer than 256 samples)
is carried by its types. Feeding a block is a run of single samples (`feed_eq_run`), and a run
faults only where a cycle does. A cycle does not fault as long as the phases it carries stay
bounded, and it keeps them bounded (`cycle_bounded`); writing the ring and retuning leave them
alone. `Engine.CycleSafe` names such an invariant, and every reachable state has it
(`Reachable.engine`). Remapping moves each kept bin to one of the 513 synthesis bins, for
every 32-bit ratio (`targetBin_le_last`), so its guarded write never skips.
-/

namespace PhaseVocoder

namespace PitchRatio

theorem binCount_le (r : PitchRatio) : r.binCount ≤ 513 := by
  unfold binCount
  split <;> omega

/-- Every bin the ratio keeps moves to a synthesis bin, whatever the ratio. -/
theorem targetBin_le_last (r : PitchRatio) {k : Nat} (hk : k < r.binCount) :
    r.targetBin k ≤ 512 := by
  unfold targetBin
  by_cases h0 : r.fixed = 0
  · simp [h0]
  · have hf : 0 < r.fixed.toNat := Nat.pos_of_ne_zero fun h => h0 (UInt32.toNat_inj.1 h)
    have hk' : k ≤ binLimit / r.fixed.toNat := by
      simp only [binCount, h0, if_false] at hk; omega
    have hmul : k * r.fixed.toNat ≤ binLimit := (Nat.le_div_iff_mul_le hf).1 hk'
    calc (k * r.fixed.toNat + 32768) / 65536
        ≤ (binLimit + 32768) / 65536 := Nat.div_le_div_right (by omega)
      _ = 512 := by decide

/-- No bin beyond the kept ones stays at or below bin 512: `binCount` is the exact count. -/
theorem lt_binCount_of_targetBin_le (r : PitchRatio) {k : Nat} (hk : k < 513)
    (h : r.targetBin k ≤ 512) : k < r.binCount := by
  unfold binCount
  by_cases h0 : r.fixed = 0
  · simp [h0, hk]
  · have hf : 0 < r.fixed.toNat := Nat.pos_of_ne_zero fun h => h0 (UInt32.toNat_inj.1 h)
    simp only [h0, if_false, Nat.lt_min, hk, true_and]
    by_contra hlt
    have hmul : binLimit < k * r.fixed.toNat :=
      (Nat.div_lt_iff_lt_mul hf).1 (by omega)
    have : 513 ≤ (k * r.fixed.toNat + 32768) / 65536 :=
      (Nat.le_div_iff_mul_le (by decide)).2 (by simp only [binLimit] at hmul; omega)
    simp only [targetBin] at h
    omega

end PitchRatio

namespace Engine

variable {α : Type} [Scalar α] {σ : Type} [Widening σ α]

/-- An engine invariant that writing the ring and changing the ratio keep, and under which a
cycle succeeds and keeps it. -/
structure CycleSafe (T : Transform α) (I : Engine α → Prop) : Prop where
  ring : ∀ {e : Engine α} (r : Ring α), I e → I { e with ring := r }
  ratio : ∀ {e : Engine α} (q : PitchRatio), I e → I { e with ratio := q }
  cycle : ∀ {e : Engine α}, I e → ∃ e', e.cycle T = .ok e' ∧ I e'

variable {T : Transform α} {I : Engine α → Prop}

theorem push_safe (hI : CycleSafe T I) {e : Engine α} (he : I e) (x : σ) :
    ∃ p, e.push T x = .ok p ∧ I p.1 := by
  have he' := hI.ring (e.ring.put (Widening.widen x)) he
  unfold push
  split
  · obtain ⟨e', hc, hi⟩ := hI.cycle he'
    exact ⟨_, by dsimp only; rw [hc]; rfl, hi⟩
  · exact ⟨_, rfl, he'⟩

/-- A run never faults from an engine with a cycle-safe invariant, and keeps it. -/
theorem run_safe (hI : CycleSafe T I) (zs : List (PitchRatio × σ)) {e : Engine α} (he : I e) :
    ∃ p, e.run T zs = .ok p ∧ I p.1 := by
  induction zs generalizing e with
  | nil => exact ⟨_, rfl, he⟩
  | cons z zs ih =>
    obtain ⟨r, x⟩ := z
    rw [run_cons]
    refine bind_ok_of (push_safe hI (hI.ratio r he) x) fun ⟨e', y⟩ he' => ?_
    obtain ⟨⟨e'', ys⟩, hrun, he''⟩ := ih he'
    exact ⟨(e'', y :: ys), by simp only at hrun ⊢; rw [hrun]; rfl, he''⟩

end Engine

namespace Tuning

/-- Total cents are computed exactly when both the product and the sum fit in 32 bits. -/
theorem totalCents_ok_iff (t : Tuning) :
    (∃ c, t.totalCents = .ok c) ↔
      (-2147483648 ≤ t.coarse.toInt * 100 ∧ t.coarse.toInt * 100 ≤ 2147483647) ∧
        -2147483648 ≤ t.coarse.toInt * 100 + t.fine.toInt ∧
          t.coarse.toInt * 100 + t.fine.toInt ≤ 2147483647 := by
  unfold totalCents
  by_cases hm : -2147483648 ≤ t.coarse.toInt * 100 ∧ t.coarse.toInt * 100 ≤ 2147483647
  · rw [Word.mul_eq_ok (w := Word.i32) hm]
    by_cases ha : -2147483648 ≤ t.coarse.toInt * 100 + t.fine.toInt ∧
        t.coarse.toInt * 100 + t.fine.toInt ≤ 2147483647
    · simp only [bind, Except.bind, Word.add_eq_ok (w := Word.i32) ha]
      exact ⟨fun _ => ⟨hm, ha⟩, fun _ => ⟨_, rfl⟩⟩
    · simp only [bind, Except.bind, Word.add_eq_error (w := Word.i32) ha]
      constructor
      · rintro ⟨_, ⟨⟩⟩
      · exact fun h => absurd h.2 ha
  · simp only [Word.mul_eq_error (w := Word.i32) hm, bind, Except.bind]
    constructor
    · rintro ⟨_, ⟨⟩⟩
    · exact fun h => absurd h.1 hm

end Tuning

namespace Shifter

variable {σ α : Type}

section Update

variable [SampleArith σ]

/-- `update` faults exactly when the tuning's total cents overflow, and touches no more of
the engine than its ratio. -/
theorem update_ok_iff (s : Shifter σ α) (gain : σ) (props : EffectProps) (layout : Layout σ) :
    (∃ s', s.update gain props layout = .ok s') ↔
      ∀ t, props = .tuning t → ∃ c, t.totalCents = .ok c := by
  cases props with
  | empty => exact ⟨fun _ _ h => (by cases h), fun _ => ⟨_, rfl⟩⟩
  | tuning t =>
    simp only [update, EffectProps.tuning.injEq, forall_eq']
    rcases t.totalCents with f | c
    · constructor <;> rintro ⟨_, ⟨⟩⟩
    · exact ⟨fun _ => ⟨c, rfl⟩, fun _ => ⟨_, rfl⟩⟩

theorem update_engine {s s' : Shifter σ α} {gain : σ} {props : EffectProps} {layout : Layout σ}
    (h : s.update gain props layout = .ok s') : ∃ q, s'.engine = { s.engine with ratio := q } := by
  cases props with
  | empty => cases h; exact ⟨s.engine.ratio, rfl⟩
  | tuning t =>
    simp only [update] at h
    rcases ht : t.totalCents with f | c <;> rw [ht] at h
    · cases h
    · cases h; exact ⟨_, rfl⟩

end Update

variable [Scalar α] [Widening σ α] {T : Transform α} {I : Engine α → Prop}

theorem processMono_safe (hI : Engine.CycleSafe T I) {s : Shifter σ α} (hs : I s.engine)
    (input : Array σ) : ∃ r, s.processMono T input = .ok r ∧ I r.1.engine := by
  obtain ⟨⟨e, ys⟩, hrun, he⟩ := Engine.run_safe hI (input.toList.map (s.engine.ratio, ·)) hs
  have h := processMono_eq_run T s input
  rw [hrun] at h
  obtain ⟨r, hr, hre⟩ := map_eq_ok.1 h
  simp only [Prod.mk.injEq] at hre
  exact ⟨r, hr, hre.1 ▸ he⟩

variable [SampleArith σ]

/-- The states a host can bring the effect into. -/
inductive Reachable (T : Transform α) : Shifter σ α → Prop
  | fresh : Reachable T fresh
  | reset {s : Shifter σ α} : Reachable T s → Reachable T s.reset
  | deviceUpdate {s : Shifter σ α} : Reachable T s → Reachable T s.deviceUpdate
  | setTuningCents {s : Shifter σ α} (cents : Int) :
      Reachable T s → Reachable T (s.setTuningCents cents)
  | update {s s' : Shifter σ α} (gain : σ) (props : EffectProps) (layout : Layout σ) :
      Reachable T s → s.update gain props layout = .ok s' → Reachable T s'
  | process {s s' : Shifter σ α} (n : Nat) (input : Option (Array σ)) (lines out : Array (Array σ)) :
      Reachable T s → s.process T n input lines = .ok (s', out) → Reachable T s'
  | processMono {s s' : Shifter σ α} (input out : Array σ) :
      Reachable T s → s.processMono T input = .ok (s', out) → Reachable T s'

theorem process_engine {s s' : Shifter σ α} {n : Nat} {line : Array σ} {lines out : Array (Array σ)}
    (h : s.process T n (some line) lines = .ok (s', out)) :
    ∃ ys, s.engine.run T ((line.extract 0 (min n 1024)).toList.map (s.engine.ratio, ·)) =
      .ok (s'.engine, ys) := by
  simp only [process, shiftBlock_eq_run] at h
  obtain ⟨⟨s₁, y⟩, hb, h⟩ := bind_eq_ok.1 h
  obtain ⟨⟨e, ys⟩, hrun, he⟩ := map_eq_ok.1 hb
  obtain ⟨⟨ls, gs⟩, -, h⟩ := bind_eq_ok.1 h
  cases h
  simp only [Prod.mk.injEq] at he
  obtain ⟨rfl, -⟩ := he
  exact ⟨ys, hrun⟩

theorem process_safe (hI : Engine.CycleSafe T I) {s : Shifter σ α} (hs : I s.engine) (n : Nat)
    (input : Option (Array σ)) (lines : Array (Array σ)) (hlines : ∀ l ∈ lines, l.size = 1024) :
    ∃ r, s.process T n input lines = .ok r ∧ I r.1.engine := by
  cases input with
  | none => exact ⟨_, rfl, hs⟩
  | some line =>
    obtain ⟨⟨e, ys⟩, hrun, he⟩ :=
      Engine.run_safe hI ((line.extract 0 (min n 1024)).toList.map (s.engine.ratio, ·)) hs
    have hlen : ys.length ≤ 1024 := by
      have := Engine.run_length hrun
      simp at this; omega
    let s₁ := { s with engine := e }.withOut ys.toArray
    obtain ⟨⟨ls, gs⟩, hm⟩ := Mix.mix_ok ys.toArray lines s₁.current s₁.target
      (max (min n 1024) 512) 0 (by simp; omega) (fun l hl => by simp [hlines l hl]; omega)
    refine ⟨({ s₁ with current := gs }, ls), ?_, he⟩
    simp only [process, shiftBlock_eq_run, hrun, Except.map, bind, Except.bind]
    rw [hm]
    rfl

/-- Every reachable state's engine keeps each cycle-safe invariant of the fresh engine:
resets start over, retuning and `update` change only the ratio, and the two processing calls
are runs. -/
theorem Reachable.engine_safe (hI : Engine.CycleSafe T I) (h0 : I Engine.fresh)
    {s : Shifter σ α} (h : s.Reachable T) : I s.engine := by
  induction h with
  | fresh | reset _ _ | deviceUpdate _ _ => exact h0
  | setTuningCents cents _ ih => exact hI.ratio _ ih
  | update gain props layout _ hu ih =>
    obtain ⟨q, hq⟩ := update_engine hu
    rw [hq]
    exact hI.ratio q ih
  | @process s s' n input lines out _ hp ih =>
    cases input with
    | none => cases hp; exact ih
    | some line =>
      obtain ⟨ys, hrun⟩ := process_engine hp
      obtain ⟨p, hp', hp''⟩ :=
        Engine.run_safe hI ((line.extract 0 (min n 1024)).toList.map (s.engine.ratio, ·)) ih
      rw [hrun] at hp'
      cases hp'
      exact hp''
  | processMono input out _ hp ih =>
    obtain ⟨r, hr, hr'⟩ := processMono_safe hI ih input
    rw [hp] at hr
    cases hr
    exact hr'

end Shifter

section Binary64

open Ieee

variable (arg : Float → Float → Float)

theorem phasesBounded_cycleSafe (harg : ∀ y x, Within 4 (arg y x)) (T : Transform Float) :
    @Engine.CycleSafe Float (binary64With arg) T PhasesBounded := by
  let : Scalar Float := binary64With arg
  exact ⟨fun _ he => he, fun _ he => he, fun he => cycle_bounded arg harg T he⟩

/-- On binary64, with an angle function whose values are NaN or within `[-4, 4]` (as the
principal argument's are), no call a host makes to a reachable effect faults: `process` with
any count and any input line into lines of 1024 samples, `processMono` on any buffer, and
`update` unless the total cents overflow. Every bin a ratio keeps lands on a synthesis bin. -/
theorem realtime_path_never_faults (harg : ∀ y x, Within 4 (arg y x)) (T : Transform Float) :
    letI : Scalar Float := binary64With arg
    ∀ s : Shifter Float32 Float, s.Reachable T →
      (∀ n input lines, (∀ l ∈ lines, Array.size l = 1024) →
        ∃ r, s.process T n input lines = .ok r) ∧
      (∀ input, ∃ r, s.processMono T input = .ok r) ∧
      (∀ gain props layout, (∃ s', s.update gain props layout = .ok s') ↔
        ∀ t, props = .tuning t →
          (-2147483648 ≤ t.coarse.toInt * 100 ∧ t.coarse.toInt * 100 ≤ 2147483647) ∧
            -2147483648 ≤ t.coarse.toInt * 100 + t.fine.toInt ∧
              t.coarse.toInt * 100 + t.fine.toInt ≤ 2147483647) ∧
      ∀ (r : PitchRatio) (k : Nat), k < r.binCount → k < 513 ∧ r.targetBin k ≤ 512 := by
  intro s hs
  let : Scalar Float := binary64With arg
  have hI := phasesBounded_cycleSafe arg harg T
  have hb : PhasesBounded s.engine := hs.engine_safe hI phasesBounded_fresh
  refine ⟨fun n input lines hl => ?_, fun input => ?_, fun gain props layout => ?_,
    fun r k hk => ⟨lt_of_lt_of_le hk r.binCount_le, r.targetBin_le_last hk⟩⟩
  · obtain ⟨r, hr, -⟩ := Shifter.process_safe hI hb n input lines hl
    exact ⟨r, hr⟩
  · obtain ⟨r, hr, -⟩ := Shifter.processMono_safe hI hb input
    exact ⟨r, hr⟩
  · rw [Shifter.update_ok_iff]
    simp only [Tuning.totalCents_ok_iff]

/-- With the library's `atan2` read as the C library documents it, a fresh effect shifts 1024
samples in one buffer, running four cycles, and mixes a full block of 1024 into a line. -/
theorem fresh_shifter_blocks_ok :
    letI : Scalar Float := binary64With documentedAngle
    (∃ r, (Shifter.fresh : Shifter Float32 Float).processMono Transform.radix2
        (Array.replicate 1024 1) = .ok r) ∧
      ∃ r, (Shifter.fresh : Shifter Float32 Float).process Transform.radix2 1024
        (some (Array.replicate 1024 1)) #[Array.replicate 1024 0] = .ok r := by
  let : Scalar Float := binary64With documentedAngle
  have h := realtime_path_never_faults _ within_documentedAngle Transform.radix2 _ .fresh
  exact ⟨h.2.1 _, h.1 _ _ _ (by simp)⟩

end Binary64

end PhaseVocoder
