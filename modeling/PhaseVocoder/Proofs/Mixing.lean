import PhaseVocoder.Proofs.Basic
import PhaseVocoder.Mix.Ramp
import Mathlib

/-!
# Mixing without faults, line by line (`mix_samples`, mixer.rs:109-154)

`mix` checks the window `[outPos, outPos + L)` against every output line before it adds
anything. When the window fits in every line, no check fails (`mix_ok`): the loop over the
lines keeps each line's length, so every later line still has room.

The loop does what it would do to each line on its own (`mix_eq`): after `i` steps the
lines before `i` are mixed and the rest are as they were (`mixedBefore`), so each of the
first sixteen lines is mixed from the samples it was given, with its own slot's current and
target gain, and its slot stores the gain its ramp reached. Within one line (`mixLine`) the
samples outside the window are kept (`mixLine_getD_outside`); inside, the ramped gain weighs
the first `min counter L` samples when the step is above epsilon, and the stored gain the rest
unless it is silent (`mixLine_getD_window`, `mixLine_gain`).
-/

namespace PhaseVocoder.Mix

variable {σ : Type} [SampleArith σ]

theorem mixLine_size (input out : Array σ) (g t delta : σ) (counter pos : Nat) :
    (mixLine input out g t delta counter pos).1.size = out.size := by
  simp [mixLine]

section Line

variable (input out : Array σ) (g t delta : σ) (counter pos : Nat)

/-- The gain a line's ramp stores: the target when the ramp ends within the block or its step
is within epsilon, else the gain reached after the block. -/
theorem mixLine_gain :
    (mixLine input out g t delta counter pos).2 =
      if SampleArith.lt SampleArith.epsilon (SampleArith.abs ((t - g) * delta)) = true ∧
          min counter input.size ≠ counter then
        g + (t - g) * delta * SampleArith.ofNat (min counter input.size)
      else t := by
  simp only [mixLine]
  split_ifs <;> simp_all

theorem mixLine_getD_outside {p : Nat} (hp : p < pos ∨ pos + input.size ≤ p) :
    (mixLine input out g t delta counter pos).1.getD p 0 = out.getD p 0 := by
  by_cases hs : p < out.size
  · simp [mixLine, Array.getD, hs, show ¬ (pos ≤ p ∧ p < pos + input.size) by omega]
  · simp [Array.getD, mixLine_size, hs]

/-- Inside the window: sample `i` of the input is added with the ramped gain while the ramp
lasts, then with the stored gain unless that gain is silent. -/
theorem mixLine_getD_window {i : Nat} (hi : i < input.size) (hp : pos + i < out.size) :
    (mixLine input out g t delta counter pos).1.getD (pos + i) 0 =
      if SampleArith.lt SampleArith.epsilon (SampleArith.abs ((t - g) * delta)) = true ∧
          i < min counter input.size then
        out.getD (pos + i) 0 + input[i] * (g + (t - g) * delta * SampleArith.ofNat i)
      else if SampleArith.le (SampleArith.abs (mixLine input out g t delta counter pos).2) silence then
        out.getD (pos + i) 0
      else out.getD (pos + i) 0 + input[i] * (mixLine input out g t delta counter pos).2 := by
  have hw : pos ≤ pos + i ∧ pos + i < pos + input.size := by omega
  have hp' : pos + i < (mixLine input out g t delta counter pos).1.size := by
    rw [mixLine_size]; exact hp
  rw [Array.getD_eq_getD_getElem?, Array.getD_eq_getD_getElem?, getElem?_pos (mixLine input out g t delta counter pos).1 (pos + i) hp',
    getElem?_pos out _ hp, Option.getD_some, Option.getD_some]
  simp only [mixLine, Array.getElem_ofFn, hw, and_self, if_true, Nat.add_sub_cancel_left,
    Array.getD_eq_getD_getElem?, getElem?_pos input i hi, Option.getD_some]
  split_ifs <;> simp_all

end Line

section Loop

variable (input : Array σ) (lines : Array (Array σ)) (current target : Vector σ 16)
  (counter outPos : Nat)

/-- The lines and gains once the loop has mixed the lines before `i`: each such line mixed on
its own, with its slot's gains, and each of their slots holding the gain its ramp stores. -/
def mixedBefore (i : Nat) : Array (Array σ) × Vector σ 16 :=
  (Array.ofFn fun j : Fin lines.size =>
      if h : j.val < i ∧ j.val < 16 then
        (mixLine input lines[j] (current.get ⟨j, h.2⟩) (target.get ⟨j, h.2⟩)
          (if counter > 0 then 1 / SampleArith.ofNat counter else 0) counter outPos).1
      else lines[j],
    Vector.ofFn fun j : Fin 16 =>
      if j.val < i ∧ j.val < lines.size then
        (mixLine input (lines.getD j #[]) (current.get j) (target.get j)
          (if counter > 0 then 1 / SampleArith.ofNat counter else 0) counter outPos).2
      else current.get j)

theorem mixedBefore_zero :
    mixedBefore input lines current target counter outPos 0 = (lines, current) := by
  simp only [mixedBefore, Nat.not_lt_zero, false_and, ↓reduceDIte, Fin.getElem_fin,
    Array.ofFn_getElem, ↓reduceIte, Prod.mk.injEq, true_and]
  apply Vector.ext
  simp [Vector.get_eq_getElem]

@[simp] theorem mixedBefore_size (i : Nat) :
    (mixedBefore input lines current target counter outPos i).1.size = lines.size :=
  Array.size_ofFn

theorem mixedBefore_getD_of_le {i j : Nat} (h : i ≤ j) :
    (mixedBefore input lines current target counter outPos i).1.getD j #[] = lines.getD j #[] := by
  by_cases hj : j < lines.size
  · simp [mixedBefore, Array.getD, hj, show ¬ j < i by omega]
  · simp [Array.getD, hj]

theorem mixedBefore_succ_of_le {i : Nat} (h : lines.size ≤ i) :
    mixedBefore input lines current target counter outPos (i + 1) =
      mixedBefore input lines current target counter outPos i := by
  simp only [mixedBefore, Prod.mk.injEq]
  constructor
  · apply Array.ext
    · simp
    · intro j h₁ h₂
      simp at h₁
      simp [show j ≤ i by omega, show j < i by omega]
  · apply Vector.ext
    intro j hj
    simp only [Vector.getElem_ofFn]
    by_cases hj' : j < lines.size
    · simp [show j < i + 1 ∧ j < i by omega, hj']
    · simp [hj']

/-- The step of the loop at a line it reaches: the line is mixed with its slot's gains, and the
slot holds the gain the ramp stores. -/
theorem mixedBefore_succ {i : Nat} (hi : i < 16) (h : i < lines.size) :
    mixedBefore input lines current target counter outPos (i + 1) =
      ((mixedBefore input lines current target counter outPos i).1.setIfInBounds i
          (mixLine input ((mixedBefore input lines current target counter outPos i).1.getD i #[])
            (current.get ⟨i, hi⟩) (target.get ⟨i, hi⟩)
            (if counter > 0 then 1 / SampleArith.ofNat counter else 0) counter outPos).1,
        (mixedBefore input lines current target counter outPos i).2.set i
          (mixLine input ((mixedBefore input lines current target counter outPos i).1.getD i #[])
            (current.get ⟨i, hi⟩) (target.get ⟨i, hi⟩)
            (if counter > 0 then 1 / SampleArith.ofNat counter else 0) counter outPos).2 hi) := by
  rw [mixedBefore_getD_of_le _ _ _ _ _ _ (Nat.le_refl i)]
  simp only [mixedBefore, Prod.mk.injEq]
  constructor
  · apply Array.ext
    · simp
    · intro j h₁ h₂
      simp at h₁
      rw [Array.getElem_setIfInBounds (by simpa using h₁)]
      by_cases hj : j = i
      · subst hj
        simp [Array.getD, h, hi]
      · simp [Ne.symm hj, show (j ≤ i ↔ j < i) by omega]
  · apply Vector.ext
    intro j hj
    rw [Vector.getElem_set]
    by_cases hji : j = i
    · subst hji
      simp [h, Vector.get_eq_getElem]
    · simp [Ne.symm hji, show (j ≤ i ↔ j < i) by omega]

/-- Mixing, when the window fits in every line: each of the first sixteen lines is mixed on its
own with its slot's gains, and each of their slots stores the gain its ramp reached. The loop
keeps the lines it has not reached as they were, so each line is mixed from what it held. -/
theorem mix_eq (hword : outPos + input.size < 18446744073709551616)
    (hw : ∀ l ∈ lines, outPos + input.size ≤ l.size) :
    mix input lines current target counter outPos =
      .ok (mixedBefore input lines current target counter outPos 16) := by
  unfold mix
  simp only [Std.Legacy.Range.forIn'_eq_forIn'_range', show Std.Legacy.Range.size [:16] = 16 from rfl]
  refine bind_pure_eq_ok (fun b => b = mixedBefore input lines current target counter outPos 16)
    ?_ (fun b hb => by rw [hb])
  -- the invariant: after `i` steps the state is the one with the lines before `i` mixed
  refine forIn'_ok_indexed (List.range' 0 16)
    (fun i b => b = mixedBefore input lines current target counter outPos i) _ ?_ (lines, current)
    (mixedBefore_zero input lines current target counter outPos).symm
  intro i hi a ha hai b hb
  simp only [List.length_range'] at hi
  have hai : a = i := by rw [← hai, List.getElem_range']; omega
  subst hai hb
  by_cases hl : a < lines.size
  · have hwl : outPos + input.size ≤
        ((mixedBefore input lines current target counter outPos a).1.getD a #[]).size := by
      rw [mixedBefore_getD_of_le _ _ _ _ _ _ (Nat.le_refl a)]
      exact hw _ (by simp [Array.getD, hl])
    rw [if_pos (by simpa using hl), Word.add_eq_ok (by simp [Word.u64]; omega), ok_bind,
      show ((outPos : Int) + (input.size : Int)).toNat = outPos + input.size by omega,
      checkSlice_ok (by omega) hwl, ok_bind]
    exact ⟨_, rfl, (mixedBefore_succ input lines current target counter outPos hi hl).symm⟩
  · rw [if_neg (by simpa using hl)]
    exact ⟨_, rfl, (mixedBefore_succ_of_le input lines current target counter outPos
      (Nat.le_of_not_lt hl)).symm⟩

theorem mix_ok (hw : outPos + input.size < 18446744073709551616)
    (hl : ∀ l ∈ lines, outPos + input.size ≤ l.size) :
    ∃ r, mix input lines current target counter outPos = .ok r :=
  ⟨_, mix_eq input lines current target counter outPos hw hl⟩

/-- A line the loop has mixed: the line it was given, mixed with its slot's gains. -/
theorem mixedBefore_getD_of_lt {i : Nat} (j : Fin 16) (hi : j.val < i) (h : j.val < lines.size) :
    (mixedBefore input lines current target counter outPos i).1.getD j #[] =
      (mixLine input (lines.getD j #[]) (current.get j) (target.get j)
        (if counter > 0 then 1 / SampleArith.ofNat counter else 0) counter outPos).1 := by
  simp [mixedBefore, Array.getD, h, hi]

theorem mixedBefore_getD_size (i j : Nat) :
    ((mixedBefore input lines current target counter outPos i).1.getD j #[]).size =
      (lines.getD j #[]).size := by
  by_cases hj : j < lines.size
  · by_cases hm : j < i ∧ j < 16
    · simp [mixedBefore, Array.getD, hj, hm, mixLine_size]
    · simp [mixedBefore, Array.getD, hj, hm]
  · simp [Array.getD, hj]

/-- The loop touches no line from the sixteenth on, and no sample outside the window. -/
theorem mixedBefore_frame (i : Nat) {j p : Nat} (h : 16 ≤ j ∨ p < outPos ∨ outPos + input.size ≤ p) :
    ((mixedBefore input lines current target counter outPos i).1.getD j #[]).getD p 0 =
      (lines.getD j #[]).getD p 0 := by
  by_cases hj : j < lines.size
  · by_cases hm : j < i ∧ j < 16
    · rw [mixedBefore_getD_of_lt input lines current target counter outPos ⟨j, hm.2⟩ hm.1 hj]
      exact mixLine_getD_outside input _ _ _ _ counter outPos (by omega)
    · simp [mixedBefore, Array.getD, hj, hm]
  · simp [Array.getD, hj]

/-- The gains after the loop: the stored gain of each line mixed, the current one elsewhere. -/
theorem mixedBefore_gain (j : Fin 16) :
    (mixedBefore input lines current target counter outPos 16).2.get j =
      if j.val < lines.size then
        (mixLine input (lines.getD j #[]) (current.get j) (target.get j)
          (if counter > 0 then 1 / SampleArith.ofNat counter else 0) counter outPos).2
      else current.get j := by
  simp [mixedBefore, Vector.get_eq_getElem]

end Loop

end PhaseVocoder.Mix
