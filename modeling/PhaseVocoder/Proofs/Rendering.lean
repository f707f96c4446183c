import PhaseVocoder.Proofs.Safety
import PhaseVocoder.Proofs.Singles
import PhaseVocoder.Render

/-!
# Rendering is the stream, delayed and trimmed (`render`, lib.rs:65-130)

`render` feeds a fresh shifter the clip and then 1024 samples of silence, block by block, mixes
each block into a silent line, and drops the first 1024 samples of the result. The engine sees
the samples one at a time whatever the blocks (`Engine.run_append`), so the blocks only matter
through the mixer's gain ramp.

* Mixing a block into a single silent line is one call of `mixLine` (`Mix.mix_single`). A ramp no
  longer than the block ends on its target (`Mix.mixLine_gain_of_le`); a gain that has reached
  its target and is heard (`Mix.Settled`) weighs every sample of the block and stays
  (`Mix.mixLine_silent_settled`).
* `render_fold` follows the loop block by block: the engine has run the padded clip so far, the
  output has one sample for each, and with blocks of at least 512 samples the first block ends
  the ramp, so from then on every output sample is the engine's weighed by the target gain.
* For binary32 samples the target gain of the first line is one and settled, and `0 + y · 1` is
  `y` up to the sign of a zero, which gives `render_is_latency_compensated`.
-/

namespace PhaseVocoder

/-! ## Mixing into one silent line -/

namespace Mix

variable {σ : Type} [SampleArith σ]

/-- Mixing into a single line is one `mixLine`: the fifteen lines the layout lacks are passed
over. -/
theorem mix_single (input line : Array σ) (current target : Vector σ 16) (counter : Nat)
    (hw : input.size < 18446744073709551616) (h : input.size ≤ line.size) :
    mix input #[line] current target counter 0 =
      .ok (#[(mixLine input line (current.get 0) (target.get 0)
          (if counter > 0 then 1 / SampleArith.ofNat counter else 0) counter 0).1],
        current.set 0 (mixLine input line (current.get 0) (target.get 0)
          (if counter > 0 then 1 / SampleArith.ofNat counter else 0) counter 0).2 (by decide)) := by
  rw [mix_eq input #[line] current target counter 0 (by omega) (by simpa using h), Except.ok.injEq,
    Prod.ext_iff]
  constructor
  · -- the one line is mixed with slot 0's gains
    apply Array.ext
    · simp
    · intro i hi _
      have hi0 : i = 0 := by simpa using hi
      subst hi0
      simpa [Array.getD] using
        mixedBefore_getD_of_lt input #[line] current target counter 0 0 (by decide) (by simp)
  · -- slot 0 stores its ramp's gain; the fifteen slots without a line keep theirs
    apply Vector.ext
    intro j hj
    have hg := mixedBefore_gain input #[line] current target counter 0 ⟨j, hj⟩
    rw [Vector.get_eq_getElem] at hg
    rw [hg, Vector.getElem_set]
    by_cases hj0 : j = 0
    · subst hj0
      simp [Array.getD]
    · simp [hj0, Ne.symm hj0, Vector.get_eq_getElem]

/-- A gain that has reached its target and is heard: its ramp step is too small to count,
whatever the ramp's length, and its magnitude is above the silence threshold. -/
structure Settled (g : σ) : Prop where
  still : ∀ delta : σ, SampleArith.lt SampleArith.epsilon (SampleArith.abs ((g - g) * delta)) = false
  audible : SampleArith.le (SampleArith.abs g) silence = false

theorem mixLine_gain_of_le (input out : Array σ) (g t delta : σ) {counter : Nat} (pos : Nat)
    (h : counter ≤ input.size) : (mixLine input out g t delta counter pos).2 = t := by
  simp only [mixLine, Nat.min_eq_left h, if_true]
  split <;> rfl

theorem mixLine_gain_settled {g : σ} (hg : Settled g) (input out : Array σ) (delta : σ)
    (counter pos : Nat) : (mixLine input out g g delta counter pos).2 = g := by
  simp only [mixLine, hg.still delta]
  rfl

/-- With a settled gain, a block mixed into the start of a silent line comes out weighed by the
gain. -/
theorem mixLine_silent_settled {g : σ} (hg : Settled g) (input : Array σ) (delta : σ)
    (counter : Nat) {n : Nat} (hn : input.size ≤ n) :
    (mixLine input (Array.replicate n 0) g g delta counter 0).1.extract 0 input.size =
      input.map fun x => 0 + x * g := by
  apply Array.ext
  · simp [mixLine_size]
    omega
  · intro p h₁ h₂
    have hp : p < input.size := by simpa using h₂
    simp only [mixLine, hg.still delta, Array.getElem_extract, Array.getElem_ofFn,
      Array.getElem_map]
    simp [hp, Array.getD, hg.audible]

end Mix

/-! ## One block -/

namespace Shifter

variable {σ α : Type} [SampleArith σ] [Scalar α] [Widening σ α]

/-- `process` on a block of at most 1024 samples into one silent line: the block runs through
the engine, and the line is the engine's output mixed in with the first gain ramped toward its
target over `max n 512` samples. -/
theorem process_block (T : Transform α) (s : Shifter σ α) (block : Array σ) {n : Nat}
    (hn : block.size = n) (h : n ≤ 1024) :
    s.process T n (some block) #[Array.replicate 1024 0] =
      (s.engine.run T (block.toList.map (s.engine.ratio, ·))).map fun (e, ys) =>
        ({ { s with engine := e }.withOut ys.toArray with
            current := s.current.set 0 (Mix.mixLine ys.toArray (Array.replicate 1024 0)
              (s.current.get 0) (s.target.get 0)
              (if max n 512 > 0 then 1 / SampleArith.ofNat (max n 512) else 0) (max n 512) 0).2
              (by decide) },
          #[(Mix.mixLine ys.toArray (Array.replicate 1024 0) (s.current.get 0) (s.target.get 0)
              (if max n 512 > 0 then 1 / SampleArith.ofNat (max n 512) else 0) (max n 512) 0).1]) := by
  have hblock : block.extract 0 n = block := by
    rw [← hn, Array.extract_eq_self_of_le (Nat.le_refl _)]
  rcases hr : s.engine.run T (block.toList.map (s.engine.ratio, ·)) with f | ⟨e, ys⟩
  · simp only [process, Nat.min_eq_left h, hblock, shiftBlock_eq_run, hr]
    rfl
  · have hlen : ys.length = n := by
      have := Engine.run_length hr
      simpa [hn] using this
    simp only [process, Nat.min_eq_left h, hblock, shiftBlock_eq_run, hr, map_ok, ok_bind]
    rw [Mix.mix_single _ _ _ _ _ (by simp; omega) (by simp; omega), ok_bind]
    rfl

end Shifter

/-! ## The render loop -/

section Loop

variable {σ α : Type} [SampleArith σ] [Scalar α] [Widening σ α]

/-- The first `c` samples of the clip followed by silence, each tagged with the ratio `r`. -/
def paddedStream (input : Array σ) (r : PitchRatio) (c : Nat) : List (PitchRatio × σ) :=
  (List.range c).map fun j => (r, input.getD j 0)

theorem paddedStream_add (input : Array σ) (r : PitchRatio) (c d : Nat) :
    paddedStream input r (c + d) =
      paddedStream input r c ++ (blockAt input c d).toList.map (r, ·) := by
  simp only [paddedStream, List.range_add, List.map_append, List.map_map, blockAt]
  congr 1
  apply List.ext_getElem <;> simp

/-- Block `k` of the loop extends the padded stream that the blocks before it covered; past the
end of the clip it is empty. -/
theorem paddedStream_succ_block (input : Array σ) (r : PitchRatio) (total block k : Nat) :
    paddedStream input r (min ((k + 1) * block) total) =
      paddedStream input r (min (k * block) total) ++
        (blockAt input (k * block) (min block (total - k * block))).toList.map (r, ·) := by
  have hcov : min ((k + 1) * block) total =
      min (k * block) total + min block (total - k * block) := by
    rw [Nat.succ_mul]
    omega
  have hstart : blockAt input (min (k * block) total) (min block (total - k * block)) =
      blockAt input (k * block) (min block (total - k * block)) := by
    by_cases hp : k * block ≤ total
    · rw [Nat.min_eq_left hp]
    · rw [show min block (total - k * block) = 0 by omega]
      simp [blockAt]
  rw [hcov, paddedStream_add, hstart]

theorem paddedStream_length (input : Array σ) (r : PitchRatio) (c : Nat) :
    (paddedStream input r c).length = c := by
  simp [paddedStream]

/-- The clip followed by `n` samples of silence is the padded stream of its length. -/
theorem paddedStream_eq (input : Array σ) (r : PitchRatio) (n : Nat) :
    (input ++ Array.replicate n 0).toList.map (r, ·) = paddedStream input r (input.size + n) := by
  apply List.ext_getElem
  · simp [paddedStream]
  · intro j h₁ h₂
    by_cases hj : j < input.size
    · simp [paddedStream, Array.getD, hj]
    · simp only [Array.toList_append, List.map_append, Array.toList_replicate, List.map_replicate]
      rw [List.getElem_append_right (by simp; omega)]
      simp [paddedStream, Array.getD, hj]

theorem blockAt_size (input : Array σ) (pos todo : Nat) : (blockAt input pos todo).size = todo :=
  Array.size_ofFn

/-- One step of the loop, when the engine runs the step's block: the block's output, mixed
into a silent line, is appended. -/
theorem renderStep_ok (T : Transform α) (input : Array σ) (total block : Nat) (hb : block ≤ 1024)
    (s : Shifter σ α) (out : Array σ) (i : Nat) {e : Engine α} {ys : List σ}
    (hr : s.engine.run T ((blockAt input (i * block) (min block (total - i * block))).toList.map
      (s.engine.ratio, ·)) = .ok (e, ys)) :
    renderStep T input total block (.ok (s, out)) i =
      .ok ({ { s with engine := e }.withOut ys.toArray with
          current := s.current.set 0 (Mix.mixLine ys.toArray (Array.replicate 1024 0)
            (s.current.get 0) (s.target.get 0)
            (if max (min block (total - i * block)) 512 > 0 then
              1 / SampleArith.ofNat (max (min block (total - i * block)) 512) else 0)
            (max (min block (total - i * block)) 512) 0).2 (by decide) },
        out ++ (Mix.mixLine ys.toArray (Array.replicate 1024 0) (s.current.get 0) (s.target.get 0)
            (if max (min block (total - i * block)) 512 > 0 then
              1 / SampleArith.ofNat (max (min block (total - i * block)) 512) else 0)
            (max (min block (total - i * block)) 512) 0).1.extract 0
          (min block (total - i * block))) := by
  unfold renderStep
  rw [ok_bind]
  dsimp only
  rw [Shifter.process_block T s _ (blockAt_size _ _ _) (by omega), hr, map_ok, ok_bind]
  -- read the one line out first: left to `rfl`, the kernel unfolds the mixer to compare
  have hline : ∀ line : Array σ, (#[line] : Array (Array σ)).getD 0 #[] = line := fun _ => rfl
  simp only [hline]
  rfl

/-- The loop after `k` blocks. The engine has run the first `min (k · block) total` samples of
the padded clip, and the output holds one sample for each; the target gains are untouched. With
blocks of at least 512 samples the first block ramps the first gain all the way to its target,
and once that gain is settled every output sample after the first block is the engine's output
weighed by it. -/
theorem render_fold (T : Transform α) (input : Array σ) {total block : Nat} (hb : block ≤ 1024)
    (s₀ : Shifter σ α) (hok : ∀ zs : List (PitchRatio × σ), ∃ p, s₀.engine.run T zs = .ok p)
    (k : Nat) :
    ∃ s out ys,
      (List.range k).foldl (renderStep T input total block) (.ok (s₀, #[])) = .ok (s, out) ∧
      s₀.engine.run T (paddedStream input s₀.engine.ratio (min (k * block) total)) =
        .ok (s.engine, ys) ∧
      out.size = min (k * block) total ∧ s.target = s₀.target ∧
      (512 ≤ block → block ≤ total → Mix.Settled (s₀.target.get 0) → 0 < k →
        s.current.get 0 = s₀.target.get 0 ∧
          out.toList.drop block = (ys.drop block).map fun y => 0 + y * s₀.target.get 0) := by
  induction k with
  | zero =>
    refine ⟨s₀, #[], [], rfl, ?_, by simp, rfl, fun _ _ _ h => absurd h (Nat.lt_irrefl 0)⟩
    simp [paddedStream, Engine.run]
  | succ k ih =>
    obtain ⟨s, out, ys, hfold, hrun, hsize, htarget, hvalues⟩ := ih
    have hstream := paddedStream_succ_block input s₀.engine.ratio total block k
    have hratio : s.engine.ratio = s₀.engine.ratio := Engine.run_ratio hrun fun z hz => by
      obtain ⟨j, -, rfl⟩ := List.mem_map.1 hz
      rfl
    obtain ⟨⟨ e', ys'⟩, hnext⟩ : ∃ p, s.engine.run T
        ((blockAt input (k * block) (min block (total - k * block))).toList.map
          (s.engine.ratio, ·)) = .ok p := by
      obtain ⟨p, hp⟩ := hok (paddedStream input s₀.engine.ratio (min ((k + 1) * block) total))
      rw [hstream, Engine.run_append, hrun, ok_bind, map_eq_ok] at hp
      obtain ⟨q, hq, -⟩ := hp
      exact ⟨q, hratio ▸ hq⟩
    have hys : ys.length = min (k * block) total := by
      rw [Engine.run_length hrun, paddedStream_length]
    have hys' : ys'.length = min block (total - k * block) := by
      rw [Engine.run_length hnext, List.length_map, Array.length_toList, blockAt_size]
    rw [List.range_succ, List.foldl_append, hfold, List.foldl_cons, List.foldl_nil,
      renderStep_ok T input total block hb s out k hnext]
    refine ⟨_, _, ys ++ ys', rfl, ?_, ?_, ?_, ?_⟩
    · rw [hstream, Engine.run_append, hrun, ok_bind, ← hratio]
      dsimp only
      rw [hnext]
      rfl
    · simp only [Array.size_append, Array.size_extract, Mix.mixLine_size, Array.size_replicate,
        hsize, Nat.succ_mul]
      omega
    · exact htarget
    · intro h512 htotal hg _
      rw [htarget]
      rcases Nat.eq_zero_or_pos k with rfl | hk
      · -- the first block is whole and ramps the first gain to its target
        simp only [List.range_zero, List.foldl_nil, Except.ok.injEq, Prod.mk.injEq] at hfold
        obtain ⟨rfl, rfl⟩ := hfold
        have hblk : min block (total - 0 * block) = block := by omega
        have hnil : ys = [] := List.eq_nil_of_length_eq_zero (by simpa using hys)
        subst hnil
        rw [hblk] at hys' ⊢
        have hmax : max block 512 = block := by omega
        simp only [hmax]
        refine ⟨?_, ?_⟩
        · have hgain := Mix.mixLine_gain_of_le ys'.toArray (Array.replicate 1024 0)
            (s₀.current.get 0) (s₀.target.get 0) (if block > 0 then 1 / SampleArith.ofNat block else 0)
            0 (show block ≤ ys'.toArray.size by simp [hys'])
          exact (Vector.getElem_set_self _).trans hgain
        · rw [List.drop_eq_nil_of_le (by simp [Mix.mixLine_size]), List.nil_append,
            List.drop_eq_nil_of_le (le_of_eq hys'), List.map_nil]
      · -- later blocks find the gain settled at its target
        obtain ⟨hcur, hout⟩ := hvalues h512 htotal hg hk
        rw [hcur]
        refine ⟨(Vector.getElem_set_self _).trans (Mix.mixLine_gain_settled hg _ _ _ _ _), ?_⟩
        have hmix := Mix.mixLine_silent_settled hg ys'.toArray
          (if max (min block (total - k * block)) 512 > 0 then
            1 / SampleArith.ofNat (max (min block (total - k * block)) 512) else 0)
          (max (min block (total - k * block)) 512) (show ys'.toArray.size ≤ 1024 by simp; omega)
        rw [List.size_toArray, hys'] at hmix
        have hkb : block ≤ k * block := Nat.le_mul_of_pos_left block hk
        have hout_len : block ≤ out.toList.length := by simp; omega
        rw [hmix, Array.toList_append, List.drop_append_of_le_length hout_len, hout,
          List.drop_append_of_le_length (by omega), List.map_append]
        simp

end Loop

/-! ## Rendering a clip -/

namespace Tuning

theorem validate_ok_iff (t : Tuning) :
    t.validate = .ok () ↔ coarseInRange t.coarse = true ∧ fineInRange t.fine = true := by
  unfold validate make setCoarse setFine
  by_cases hc : coarseInRange t.coarse <;> by_cases hf : fineInRange t.fine <;>
    simp [hc, hf, bind, Except.bind, Except.map]

theorem validate_error {t : Tuning} {e : ShiftError} (h : t.validate = .error e) :
    e = .coarseOutOfRange t.coarse ∨ e = .fineOutOfRange t.fine := by
  unfold validate make setCoarse setFine at h
  by_cases hc : coarseInRange t.coarse <;> by_cases hf : fineInRange t.fine <;>
    simp_all [bind, Except.bind, Except.map]

theorem totalCents_of_validate {t : Tuning} (h : t.validate = .ok ()) : ∃ c, t.totalCents = .ok c := by
  obtain ⟨hc, hf⟩ := (validate_ok_iff t).mp h
  simp only [coarseInRange, fineInRange, Bool.and_eq_true, decide_eq_true_eq] at hc hf
  rw [totalCents_ok_iff]
  omega

end Tuning

section Render

variable {σ α : Type} [SampleArith σ] [Scalar α] [Widening σ α]

theorem render_blockSize (T : Transform α) (input : Array σ) (t : Tuning) {block : Nat}
    (h : block = 0 ∨ block > 1024) :
    render T input t block = .error (.error (.blockSize block)) := by
  simp [render, h, throw, throwThe, MonadExceptOf.throw, bind, Except.bind]

theorem render_invalid (T : Transform α) (input : Array σ) {t : Tuning} {block : Nat}
    (hb : 0 < block) (hb' : block ≤ 1024) {e : ShiftError} (h : t.validate = .error e) :
    render T input t block = .error (.error e) := by
  simp [render, h, show ¬ (block = 0 ∨ block > 1024) by omega, Failure.ofError, Except.mapError,
    bind, Except.bind]

omit [Widening σ α] in
theorem render_update {t : Tuning} {c : Int} (hc : t.totalCents = .ok c) :
    (Shifter.fresh : Shifter σ α).deviceUpdate.update 1 (.tuning t) (Layout.firstChannels 1) =
      .ok { (Shifter.fresh : Shifter σ α).setTuningCents c with
        target := Pan.gains (Layout.firstChannels 1) Pan.frontCoeffs 1 } := by
  simp only [Shifter.deviceUpdate, Shifter.reset, Shifter.update, hc]
  rfl

theorem steps_cover (total : Nat) {block : Nat} (hb : 0 < block) :
    min ((total + block - 1) / block * block) total = total := by
  have h₁ := Nat.div_add_mod (total + block - 1) block
  have h₂ := Nat.mod_lt (total + block - 1) hb
  rw [Nat.mul_comm]
  omega

/-- With a tuning that passes its checks and an engine that never faults, `render` gives one
sample per input sample, and, once the first line's gain is settled at its target, the engine's
output over the padded clip from sample `latency` on, weighed by that gain. -/
theorem render_eq_ok (T : Transform α) (input : Array σ) {t : Tuning} {block : Nat} {c : Int}
    (hb : 0 < block) (hb' : block ≤ 1024) (hv : t.validate = .ok ()) (hc : t.totalCents = .ok c)
    (hok : ∀ zs : List (PitchRatio × σ), ∃ p,
      ({ Engine.fresh with ratio := PitchRatio.ofCents c } : Engine α).run T zs = .ok p) :
    ∃ out e ys, render T input t block = .ok out ∧
      ({ Engine.fresh with ratio := PitchRatio.ofCents c } : Engine α).run T
        (paddedStream input (PitchRatio.ofCents c) (input.size + latency)) = .ok (e, ys) ∧
      out.size = input.size ∧
      ∀ g, (Pan.gains (Layout.firstChannels 1) Pan.frontCoeffs (1 : σ)).get 0 = g →
        512 ≤ block → Mix.Settled g → out.toList = (ys.drop latency).map fun y => 0 + y * g := by
  obtain ⟨s, out, ys, hfold, hrun, hsize, -, hvalues⟩ :=
    render_fold T input hb' { (Shifter.fresh : Shifter σ α).setTuningCents c with
      target := Pan.gains (Layout.firstChannels 1) Pan.frontCoeffs 1 } hok
      ((input.size + latency + block - 1) / block)
  rw [steps_cover _ hb] at hrun hsize
  dsimp only at hfold hrun hvalues
  refine ⟨out.extract latency out.size, s.engine, ys, ?_, hrun, ?_, ?_⟩
  · simp only [render, show ¬ (block = 0 ∨ block > 1024) by omega, if_false, hv, render_update hc]
    simp only [Failure.ofError, Failure.ofFault, Except.mapError, ok_bind, hfold]
    rfl
  · simp [hsize, latency]
  · intro g hg h512 hs
    have hsteps : 0 < (input.size + latency + block - 1) / block :=
      Nat.div_pos (by simp only [latency]; omega) hb
    obtain ⟨-, hout⟩ := hvalues h512 (by simp only [latency]; omega) (hg ▸ hs) hsteps
    rw [hg] at hout
    have hdrop : ∀ l : List σ, l.drop latency = (l.drop block).drop (latency - block) := by
      intro l
      rw [List.drop_drop, Nat.add_sub_cancel' (show block ≤ latency by simp only [latency]; omega)]
    rw [Array.toList_extract, List.extract_eq_take_drop, List.take_of_length_le (by simp), hdrop,
      hout, ← List.map_drop, ← hdrop]

end Render

/-! ## Binary32 samples -/

section Singles

open Ieee

/-- A binary32 gain of one is settled: `1 - 1` is zero, zero times any ramp step has no
magnitude above the machine epsilon, and one is above the silence threshold. -/
theorem settled_one : Mix.Settled (1 : Float32) where
  still delta := by
    have hz : (1 : Float32) - 1 = 0 := by decide
    change decide (Float32.ofBits 0x34000000 < Float32.abs ((1 - 1) * delta)) = false
    rw [hz]
    rcases abs_zero_mul delta with h | h <;> rw [h] <;> decide
  audible := by decide

variable {α : Type} [Scalar α] [Widening Float32 α]

/-- On binary32 samples, with blocks of 512 to 1024 samples and an engine that never faults,
`render` gives the mono output of a fresh effect at the tuning's ratio, fed the clip and 1024
samples of silence, from sample 1024 on, each added to positive zero. -/
theorem render_singles (T : Transform α) (input : Array Float32) {t : Tuning} {block : Nat}
    {c : Int} (hb : 512 ≤ block) (hb' : block ≤ 1024) (hv : t.validate = .ok ())
    (hc : t.totalCents = .ok c)
    (hok : ∀ zs : List (PitchRatio × Float32), ∃ p,
      ({ Engine.fresh with ratio := PitchRatio.ofCents c } : Engine α).run T zs = .ok p) :
    ∃ s ys out, (Shifter.fresh.setTuningCents c : Shifter Float32 α).processMono T
        (input ++ Array.replicate 1024 0) = .ok (s, ys) ∧
      render T input t block = .ok out ∧ ys.size = input.size + 1024 ∧ out.size = input.size ∧
      ∀ i (h₁ : i < out.size) (h₂ : 1024 + i < ys.size), out[i] = 0 + ys[1024 + i] := by
  obtain ⟨out, e, ys, hr, hrun, hsize, hval⟩ := render_eq_ok T input (by omega) hb' hv hc hok
  have hout := hval 1 (by decide) hb settled_one
  have hpm : (Shifter.processMono T (Shifter.fresh.setTuningCents c : Shifter Float32 α)
      (input ++ Array.replicate 1024 0)).map (fun ( s', y) => ( s'.engine, y.toList)) =
        .ok (e, ys) := by
    rw [Shifter.processMono_eq_run, paddedStream_eq]
    exact hrun
  obtain ⟨⟨s, ys'⟩, hs, hys⟩ := map_eq_ok.mp hpm
  simp only [Prod.mk.injEq] at hys
  have hlen : ys'.size = input.size + 1024 := by
    rw [← Array.length_toList, hys.2, Engine.run_length hrun, paddedStream_length]
    rfl
  refine ⟨s, ys', out, hs, hr, hlen, hsize, fun i h₁ h₂ => ?_⟩
  have hl : i < out.toList.length := by simpa using h₁
  have hi : out[i] = out.toList[i] := by simp
  rw [hi]
  simp only [hout, ← hys.2, List.getElem_map, List.getElem_drop, Array.getElem_toList]
  rw [single_mul_one]
  rfl

/-- With blocks of 512 to 1024 samples the block size does not change what `render` gives: every
block size gives the reference call's output, added to positive zero. -/
theorem render_block_independent (T : Transform α) (input : Array Float32) {t : Tuning}
    {block block' : Nat} {c : Int} (hb : 512 ≤ block) (hb' : block ≤ 1024) (hb₂ : 512 ≤ block')
    (hb₂' : block' ≤ 1024) (hv : t.validate = .ok ()) (hc : t.totalCents = .ok c)
    (hok : ∀ zs : List (PitchRatio × Float32), ∃ p,
      ({ Engine.fresh with ratio := PitchRatio.ofCents c } : Engine α).run T zs = .ok p) :
    render T input t block = render T input t block' := by
  obtain ⟨s, ys, out, hs, hr, hys, hsize, hval⟩ := render_singles T input hb hb' hv hc hok
  obtain ⟨s', ys', out', hs', hr', -, hsize', hval'⟩ := render_singles T input hb₂ hb₂' hv hc hok
  rw [hs] at hs'
  cases hs'
  rw [hr, hr']
  congr 1
  apply Array.ext (by omega)
  intro i h₁ h₂
  rw [hval i h₁ (by omega), hval' i h₂ (by omega)]

end Singles

section Binary64

open Ieee

variable (arg : Float → Float → Float)

/-- Rendering on binary64 scalars, with an angle function whose values are NaN or within
`[-4, 4]`, for every clip, tuning and block size. A block size out of `[1, 1024]` is reported
before anything else, and only such a block size is; a tuning out of range is reported next.
Otherwise the result has one sample per input sample. With blocks of 512 to 1024 samples, the
first line's gain reaches one within the first block, so sample `i` is, up to the sign of a
zero, output sample `1024 + i` of a fresh effect at the tuning's ratio fed the clip and 1024
samples of silence; in particular the result does not depend on the block size. -/
theorem render_is_latency_compensated (harg : ∀ y x, Within 4 (arg y x)) (T : Transform Float) :
    letI : Scalar Float := binary64With arg
    ∀ (input : Array Float32) (t : Tuning) (block : Nat),
      (render T input t block = .error (.error (.blockSize block)) ↔ block = 0 ∨ 1024 < block) ∧
      (0 < block → block ≤ 1024 → ∀ e, t.validate = .error e →
        render T input t block = .error (.error e)) ∧
      (0 < block → block ≤ 1024 → t.validate = .ok () →
        ∃ out, render T input t block = .ok out ∧ out.size = input.size) ∧
      (512 ≤ block → block ≤ 1024 → t.validate = .ok () → ∃ c s ys out,
        t.totalCents = .ok c ∧
        (Shifter.fresh.setTuningCents c : Shifter Float32 Float).processMono T
          (input ++ Array.replicate 1024 0) = .ok (s, ys) ∧
        render T input t block = .ok out ∧ ys.size = input.size + 1024 ∧ out.size = input.size ∧
        ∀ i (h₁ : i < out.size) (h₂ : 1024 + i < ys.size), SameUpToZeroSign out[i] ys[1024 + i]) ∧
      (512 ≤ block → block ≤ 1024 → ∀ block', 512 ≤ block' → block' ≤ 1024 →
        render T input t block = render T input t block') := by
  intro input t block
  let : Scalar Float := binary64With arg
  have hI := phasesBounded_cycleSafe arg harg T
  have hok : ∀ (c : Int) (zs : List (PitchRatio × Float32)), ∃ p,
      ({ Engine.fresh with ratio := PitchRatio.ofCents c } : Engine Float).run T zs = .ok p := by
    intro c zs
    obtain ⟨p, hp, -⟩ := Engine.run_safe hI zs (hI.ratio (PitchRatio.ofCents c) phasesBounded_fresh)
    exact ⟨p, hp⟩
  have hlen : 0 < block → block ≤ 1024 → t.validate = .ok () →
      ∃ out, render T input t block = .ok out ∧ out.size = input.size := by
    intro hb hb' hv
    obtain ⟨c, hc⟩ := Tuning.totalCents_of_validate hv
    obtain ⟨out, -, -, hr, -, hsize, -⟩ := render_eq_ok T input hb hb' hv hc (hok c)
    exact ⟨out, hr, hsize⟩
  refine ⟨⟨fun h => ?_, render_blockSize T input t⟩,
    fun hb hb' e he => render_invalid T input hb hb' he, hlen, ?_, ?_⟩
  · -- a block size in range is never what is reported
    by_contra hb
    rcases hv : t.validate with e | ⟨⟩
    · rw [render_invalid T input (by omega) (by omega) hv] at h
      rcases Tuning.validate_error hv with rfl | rfl <;> cases h
    · obtain ⟨out, hr, -⟩ := hlen (by omega) (by omega) hv
      rw [hr] at h
      cases h
  · intro hb hb' hv
    obtain ⟨c, hc⟩ := Tuning.totalCents_of_validate hv
    obtain ⟨s, ys, out, hs, hr, hys, hsize, hval⟩ := render_singles T input hb hb' hv hc (hok c)
    refine ⟨c, s, ys, out, hc, hs, hr, hys, hsize, fun i h₁ h₂ => ?_⟩
    rw [hval i h₁ h₂]
    exact single_zero_add _
  · intro hb hb' block' hb₂ hb₂'
    rcases hv : t.validate with e | ⟨⟩
    · rw [render_invalid T input (by omega) hb' hv, render_invalid T input (by omega) hb₂' hv]
    · obtain ⟨c, hc⟩ := Tuning.totalCents_of_validate hv
      exact render_block_independent T input hb hb' hb₂ hb₂' hv hc (hok c)

/-- With the library's `atan2` read as the C library documents it, a clip of 300 ones renders
at blocks of 1024 to 300 samples, each the one the shifter hands back 1024 samples later when
fed the clip and a frame of silence. -/
theorem ones_clip_renders_compensated :
    letI : Scalar Float := binary64With documentedAngle
    ∃ c s ys out, Tuning.default.totalCents = .ok c ∧
      (Shifter.fresh.setTuningCents c : Shifter Float32 Float).processMono Transform.radix2
        (Array.replicate 300 1 ++ Array.replicate 1024 0) = .ok (s, ys) ∧
      render Transform.radix2 (Array.replicate 300 (1 : Float32)) Tuning.default 1024 = .ok out ∧
      ys.size = 300 + 1024 ∧ out.size = 300 ∧
      ∀ i (h₁ : i < out.size) (h₂ : 1024 + i < ys.size), SameUpToZeroSign out[i] ys[1024 + i] := by
  let : Scalar Float := binary64With documentedAngle
  obtain ⟨c, s, ys, out, hc, hp, hr, hys, hout, hsame⟩ :=
    (render_is_latency_compensated _ within_documentedAngle Transform.radix2
      (Array.replicate 300 1) Tuning.default 1024).2.2.2.1 (by decide) (by decide) rfl
  rw [Array.size_replicate] at hys hout
  exact ⟨c, s, ys, out, hc, hp, hr, hys, hout, hsame⟩

end Binary64

end PhaseVocoder
