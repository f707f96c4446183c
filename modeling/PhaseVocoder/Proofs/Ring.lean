import PhaseVocoder.Frame.Ring
import Mathlib

/-!
# The sample ring, one entry at a time (`StftFifo`, core/ring_buffer.rs:15-102)

A ring is read through `sample`, which takes its index modulo 1024, so two rings with the same
slot, fill and 1024 entries are equal (`ext_sample`). The stream enters at the `cursor`, `fill`
entries into the current hop slot. `put` writes one entry there and moves on, advancing the
slot when the hop fills.

The one fact the rest of the development needs about `ingest` is `ingest_cons`: a block that fits
in the current hop is its first sample `put` at the cursor, followed by the rest of the block.
So a block is a run of single samples, whatever its length. `storeHop_spec` and `load` describe
the other two writes: a hop stored over the current slot, and a ring holding a given frame in
stream order.
-/

namespace PhaseVocoder

namespace Ring

variable {α : Type}

theorem pos_le (r : Ring α) : r.pos ≤ 768 := by
  have := r.slot.isLt
  simp only [pos]; omega

theorem cursor_add_room (r : Ring α) : r.cursor + (256 - r.fill.val) ≤ 1024 := by
  have := r.slot.isLt; have := r.fill.isLt
  simp only [cursor, pos]; omega

theorem sample_mod (r : Ring α) (i : Nat) : r.sample (i % 1024) = r.sample i := by
  simp [sample]

theorem ext_sample {r r' : Ring α} (hs : r.slot = r'.slot) (hf : r.fill = r'.fill)
    (hd : ∀ i < 1024, r.sample i = r'.sample i) : r = r' := by
  obtain ⟨d, s, f⟩ := r
  obtain ⟨d', s', f'⟩ := r'
  simp only at hs hf
  subst hs hf
  congr
  ext i hi
  simpa [sample, Nat.mod_eq_of_lt hi, Vector.get_eq_getElem] using hd i hi

/-! ## One sample -/

theorem sample_put (r : Ring α) (v : α) (i : Nat) :
    (r.put v).sample i = if i % 1024 = r.cursor then v else r.sample i := by
  unfold put sample
  split <;> simp

theorem put_of_lt {r : Ring α} (v : α) (h : r.fill.val + 1 < 256) :
    (r.put v).slot = r.slot ∧ (r.put v).fill.val = r.fill.val + 1 := by
  simp [put, h]

theorem put_of_full {r : Ring α} (v : α) (h : r.fill.val = 255) :
    (r.put v).slot = r.slot + 1 ∧ (r.put v).fill.val = 0 := by
  simp [put, nextSlot, h]

theorem cursor_put {r : Ring α} (v : α) (h : r.fill.val + 1 < 256) :
    (r.put v).cursor = r.cursor + 1 := by
  simp only [cursor, pos, put_of_lt v h]; omega

/-! ## Blocks -/

section Ingest

variable {σ : Type} [Widening σ α]

/-- What `ingest` does when the input fits in the current hop: entries from the cursor on take
the widened input, the replaced entries come out narrowed, and a full hop moves to the next
slot. -/
theorem ingest_spec (r : Ring α) (input : Array σ) (h : r.fill.val + input.size ≤ 256) :
    ∃ r' out, r.ingest input = .ok (r', out, decide (r.fill.val + input.size = 256)) ∧
      (∀ i < 1024, r'.sample i =
        if r.cursor ≤ i then (input[i - r.cursor]?.map Widening.widen).getD (r.sample i)
        else r.sample i) ∧
      out = Array.ofFn (n := input.size) (fun i => Widening.narrow (r.sample (r.cursor + i.val))) ∧
      (if r.fill.val + input.size < 256 then r'.slot = r.slot ∧ r'.fill.val = r.fill.val + input.size
        else r'.slot = r.slot + 1 ∧ r'.fill.val = 0) := by
  -- `ingest` guards its write with a dependent test on the block's range; past the block the
  -- lookup fails, which is the form the statement uses
  have key : ∀ i < 1024, (if h : r.pos + r.fill.val ≤ i ∧ i < r.pos + r.fill.val + input.size then
      Widening.widen input[i - (r.pos + r.fill.val)] else r.sample i) =
      if r.cursor ≤ i then (input[i - r.cursor]?.map Widening.widen).getD (r.sample i)
      else r.sample i := by
    intro i hi
    by_cases hin : r.cursor ≤ i ∧ i < r.cursor + input.size
    · have h1 : r.pos + r.fill.val ≤ i ∧ i < r.pos + r.fill.val + input.size := hin
      rw [dif_pos h1, if_pos hin.1, getElem?_pos input _ (by omega)]
      rfl
    · have h1 : ¬ (r.pos + r.fill.val ≤ i ∧ i < r.pos + r.fill.val + input.size) := hin
      rw [dif_neg h1]
      by_cases hle : r.cursor ≤ i
      · rw [if_pos hle, getElem?_neg input _ (by omega)]; rfl
      · rw [if_neg hle]
  unfold ingest
  rw [if_neg (by omega)]
  by_cases hlt : r.fill.val + input.size < 256
  · rw [dif_pos hlt, decide_eq_false (by omega)]
    refine ⟨_, _, rfl, fun i hi => ?_, rfl, by simp [hlt]⟩
    rw [← key i hi]
    simp [sample, Nat.mod_eq_of_lt hi]
  · rw [dif_neg hlt, decide_eq_true (by omega)]
    refine ⟨_, _, rfl, fun i hi => ?_, rfl, by simp [hlt]⟩
    rw [← key i hi]
    simp [sample, Nat.mod_eq_of_lt hi]

/-- Ingesting one more sample in front of a nonempty block is writing it first: the block's
remaining samples then go into the ring that has it. -/
theorem ingest_cons (r : Ring α) (x : σ) (xs : List σ) (hne : xs ≠ [])
    (h : r.fill.val + (xs.length + 1) ≤ 256) :
    r.ingest (x :: xs).toArray = ((r.put (Widening.widen x)).ingest xs.toArray).map
      fun (r', out, d) => (r', #[Widening.narrow (r.sample r.cursor)] ++ out, d) := by
  have hlen : xs.length ≠ 0 := by simpa using hne
  have hput := put_of_lt (Widening.widen x) (r := r) (by omega)
  have hcur := cursor_put (Widening.widen x) (r := r) (by omega)
  have hc := r.cursor_add_room
  obtain ⟨r₁, o₁, e₁, s₁, rfl, f₁⟩ := ingest_spec r (x :: xs).toArray (by simpa using h)
  obtain ⟨r₂, o₂, e₂, s₂, rfl, f₂⟩ :=
    ingest_spec (r.put (Widening.widen x)) xs.toArray (by simp [hput.2]; omega)
  rw [e₁, e₂]
  simp only [List.size_toArray, List.length_cons, hput.2, hcur] at f₁ f₂ ⊢
  have hr : r₁ = r₂ := by
    refine ext_sample ?_ ?_ fun i hi => ?_
    · split at f₁ <;> split at f₂ <;> omega
    · split at f₁ <;> split at f₂ <;> omega
    · rw [s₁ i hi, s₂ i hi, sample_put, Nat.mod_eq_of_lt hi, hcur]
      by_cases hx : i = r.cursor
      · subst hx
        simp only [Nat.le_refl, if_true, Nat.sub_self, show ¬ (r.cursor + 1 ≤ r.cursor) by omega,
          if_false]
        simp
      · by_cases hle : r.cursor + 1 ≤ i
        · rw [if_pos (by omega), if_pos hle, if_neg hx,
            show i - r.cursor = (i - (r.cursor + 1)) + 1 by omega]
          simp
        · rw [if_neg (by omega), if_neg hle, if_neg hx]
  subst hr
  refine congrArg Except.ok (Prod.ext rfl (Prod.ext ?_ ?_))
  · ext i hi₁ hi₂
    · simp; omega
    · rcases i with _ | i
      · simp
      · have hi : i < xs.length := by simpa using hi₁
        simp only [Array.getElem_ofFn]
        simp
        rw [sample_put, Nat.mod_eq_of_lt (by omega), if_neg (by omega), Nat.add_assoc, Nat.add_comm 1]
  · simp only [decide_eq_decide]; omega

/-- A single sample is `put` at the cursor, and the hop is complete when it was the last
one missing. -/
theorem ingest_singleton (r : Ring α) (x : σ) :
    r.ingest #[x] = .ok (r.put (Widening.widen x), #[Widening.narrow (r.sample r.cursor)],
      decide (r.fill.val + 1 = 256)) := by
  have hc := r.cursor_add_room
  obtain ⟨r', o, e, s, rfl, f⟩ := ingest_spec r #[x]
    (by simp only [List.size_toArray, List.length_singleton]; exact r.fill.isLt)
  rw [e]
  have hr : r' = r.put (Widening.widen x) := by
    refine ext_sample ?_ ?_ fun i hi => ?_
    · split at f
      · rw [f.1, (put_of_lt _ (by simpa using ‹_›)).1]
      · rw [f.1, (put_of_full _ (by simp at *; omega)).1]
    · split at f
      · exact Fin.ext (by rw [f.2, (put_of_lt _ (by simpa using ‹_›)).2]; simp)
      · exact Fin.ext (by rw [f.2, (put_of_full _ (by simp at *; omega)).2])
    · rw [s i hi, sample_put, Nat.mod_eq_of_lt hi]
      by_cases hx : i = r.cursor
      · subst hx; simp
      · by_cases hle : r.cursor ≤ i
        · rw [if_pos hle, if_neg hx, getElem?_neg _ _ (by simp; omega)]; rfl
        · rw [if_neg hle, if_neg hx]
  subst hr
  congr 3

end Ingest

/-! ## Hops and frames -/

/-- `storeHop` puts the hop over the current slot and leaves every other entry. -/
theorem storeHop_spec (r : Ring α) (hop : Array α) (h : hop.size = 256) :
    ∃ r', r.storeHop hop = .ok r' ∧ r'.slot = r.slot ∧ r'.fill = r.fill ∧
      ∀ i < 1024, r'.sample i =
        if r.pos ≤ i ∧ i < r.pos + 256 then (hop[i - r.pos]?).getD (r.sample i) else r.sample i := by
  unfold storeHop
  rw [dif_pos h]
  refine ⟨_, rfl, rfl, rfl, fun i hi => ?_⟩
  simp only [sample, Vector.get_ofFn, Nat.mod_eq_of_lt hi]
  split
  · rw [getElem?_pos hop _ (by omega)]; rfl
  · rfl

theorem sample_load (slot : Fin 4) (f : Vector α 1024) (j : Nat) (hj : j < 1024) :
    (load slot f).sample ((load slot f).pos + j) = f.get ⟨j, hj⟩ := by
  have := slot.isLt
  simp only [load, sample, pos, Vector.get_ofFn]
  congr 2
  omega

end Ring

end PhaseVocoder
