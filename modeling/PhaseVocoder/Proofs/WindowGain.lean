import PhaseVocoder.Proofs.Exact

/-!
# The window's overlap-add gain (core/window.rs:18-36)

Read over the reals, the window table is the squared sine `sin²((i + ½) π / 1024)` at every
place (`table_eq`): reflecting the first half onto the second gives the same angle turned by
`π - θ`, whose sine is the same. So the table is symmetric about the middle of the frame. The
half-sample offset keeps every angle strictly inside `(0, π)` and off `π / 2`, so every entry
lies strictly between zero and one (`exact_pos`, `exact_lt_one`): the edges never vanish and
the middle never reaches one.

The squares of the four entries a hop apart that cover one output sample add up to the overlap
gain `3/2` (`overlap_sum`), the mean `3/8` of `sin⁴` over a period times four frames. The
output scale `1 / (1024 · 3/2)` therefore undoes exactly that gain together with the
unnormalised inverse transform (`table_overlap_gain_unity`).
-/

namespace PhaseVocoder.Window

open Real

/-- The angle `(j + ½) π / 1024` of a place of the frame lies strictly inside the half turn. -/
theorem angle_mem_Ioo {j : ℕ} (hj : j < 1024) :
    0 < ((j : ℝ) + 1 / 2) * (π / 1024) ∧ ((j : ℝ) + 1 / 2) * (π / 1024) < π := by
  have hj' : (j : ℝ) + 1 / 2 < 1024 := by
    have : (j : ℝ) ≤ 1023 := by exact_mod_cast Nat.le_of_lt_succ hj
    linarith
  constructor
  · positivity
  · calc ((j : ℝ) + 1 / 2) * (π / 1024) < 1024 * (π / 1024) :=
          mul_lt_mul_of_pos_right hj' (by positivity)
      _ = π := by ring

theorem exact_pos {j : ℕ} (hj : j < 1024) : 0 < exact j := by
  obtain ⟨h₀, hπ⟩ := angle_mem_Ioo hj
  exact pow_pos (Real.sin_pos_of_pos_of_lt_pi h₀ hπ) 2

/-- No place of the frame sits at the quarter turn: `(j + ½) / 1024 = (2k + 1) / 2` would make
the odd number `2j + 1` a multiple of 1024. -/
theorem cos_angle_ne_zero (j : ℕ) : Real.cos (((j : ℝ) + 1 / 2) * (π / 1024)) ≠ 0 := by
  rw [Ne, Real.cos_eq_zero_iff]
  rintro ⟨k, hk⟩
  have hr : ((2 * j + 1 : ℤ) : ℝ) = ((1024 * (2 * k + 1) : ℤ) : ℝ) := by
    push_cast
    have := congrArg (· * (2048 / π)) hk
    field_simp at this
    linarith
  have hz : (2 * j + 1 : ℤ) = 1024 * (2 * k + 1) := by exact_mod_cast hr
  omega

theorem exact_lt_one (j : ℕ) : exact j < 1 := by
  have hc : 0 < Real.cos (((j : ℝ) + 1 / 2) * (π / 1024)) ^ 2 :=
    sq_pos_of_ne_zero (cos_angle_ne_zero j)
  have := Real.sin_sq_add_cos_sq (((j : ℝ) + 1 / 2) * (π / 1024))
  simp only [exact]
  linarith

theorem table_rev (i : Fin 1024) : (table.get i.rev : ℝ) = table.get i := by
  rw [table_eq, table_eq, exact, exact, Fin.val_rev,
    show ((1024 - (i.val + 1) : ℕ) : ℝ) + 1 / 2 = 1024 - ((i.val : ℝ) + 1 / 2) by
      rw [Nat.cast_sub (by omega)]; push_cast; ring,
    show (1024 - ((i.val : ℝ) + 1 / 2)) * (π / 1024) = π - ((i.val : ℝ) + 1 / 2) * (π / 1024) by
      ring,
    Real.sin_pi_sub]

theorem overlapGain_eq : (overlapGain : ℝ) = 3 / 2 := by
  simp only [overlapGain]
  norm_num

/-- The squared window at the four places a hop apart that cover one output sample adds up to
the overlap gain. -/
theorem overlap_sum (i : Fin 256) :
    ∑ m : Fin 4, (table.get ⟨i + 256 * m, by omega⟩ : ℝ) ^ 2 = 3 / 2 := by
  simp only [table_eq]
  rw [Fin.sum_univ_eq_sum_range (fun l => exact (i + 256 * l) ^ 2) 4]
  simp only [exact_add]
  exact sum_sq_sin_sq _

/-- Over the reals the window table is symmetric, equal to `sin²((i + ½) π / 1024)` and
strictly between zero and one at every place; at every place of a hop the squares of the four
entries a hop apart add up to the overlap gain `3/2`, and the output scale times the frame
length times that sum is one. -/
theorem table_overlap_gain_unity :
    (∀ i : Fin 1024, (table.get i : ℝ) = table.get i.rev ∧
      (table.get i : ℝ) = Real.sin (((i : ℝ) + 1 / 2) * (π / 1024)) ^ 2 ∧
      0 < (table.get i : ℝ) ∧ (table.get i : ℝ) < 1) ∧
    (overlapGain : ℝ) = 3 / 2 ∧
    (∀ i : Fin 256, ∑ m : Fin 4, (table.get ⟨i + 256 * m, by omega⟩ : ℝ) ^ 2 = overlapGain) ∧
    ∀ i : Fin 256,
      (outputScale : ℝ) * 1024 * ∑ m : Fin 4, (table.get ⟨i + 256 * m, by omega⟩ : ℝ) ^ 2 = 1 := by
  refine ⟨fun i => ⟨(table_rev i).symm, table_eq i, ?_, ?_⟩, overlapGain_eq,
    fun i => by rw [overlap_sum, overlapGain_eq], fun i => by rw [overlap_sum, outputScale_eq]; norm_num⟩
  · rw [table_eq]; exact exact_pos i.isLt
  · rw [table_eq]; exact exact_lt_one i

end PhaseVocoder.Window
