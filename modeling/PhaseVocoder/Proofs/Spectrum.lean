import PhaseVocoder.Proofs.Schedule

/-!
# The spectral stages, one at a time (shift/analysis.rs, shift/remap.rs, shift/synthesis.rs)

A cycle is three loops over the bins and a fold over the kept ones. Each is given its value
here whenever its per-bin steps succeed, for any scalars: `analyze` is the vector of analysed
bins (`analyze_eq`), `spectrum` the vector of wrapped phases with the mirrored spectrum of
their phasors (`spectrum_eq`), and at unity `remap` leaves every bin at its own place, deposited
on a silent one (`remap_unity`). `cycle_eq` assembles a cycle from its analysis and synthesis:
it keeps the new phases, publishes the overlap-added accumulator over the current slot and
clears that slot.
-/

namespace PhaseVocoder

variable {α : Type} [Scalar α]

namespace Analysis

/-- When every bin's analysis succeeds, `analyze` gives the new phases and the bins, in order. -/
theorem analyze_eq {last : Vector α 513} {spectrum : Vector (Phasor α) 513}
    {p : Fin 513 → α} {b : Fin 513 → Bin α}
    (h : ∀ k : Fin 513, analyzeBin k.val (last.get k) (spectrum.get k) = .ok (p k, b k)) :
    analyze last spectrum = .ok (Vector.ofFn p, Vector.ofFn b) := by
  unfold analyze
  simp only [Std.Legacy.Range.forIn'_eq_forIn'_range']
  -- after `i` bins the first `i` entries are set and the others are as they started
  refine bind_pure_eq_ok _ (forIn'_ok_indexed _ (fun i (st : Vector α 513 × BinSet α) =>
      ∀ k : Fin 513, st.1.get k = (if k.val < i then p k else last.get k) ∧
        st.2.get k = if k.val < i then b k else BinSet.zero.get k) _ ?_ _ ?_) ?_
  · intro i hi a ha he st hst
    have hi' : i < 513 := by simpa using hi
    have hai : a = i := by rw [← he, List.getElem_range']; omega
    subst hai
    simp only [h ⟨a, hi'⟩]
    refine ⟨_, rfl, fun k => ?_⟩
    simp only [Vector.get_eq_getElem, Vector.getElem_set] at hst ⊢
    have := hst k
    by_cases hk : k.val = a
    · subst hk; simp
    · have hk' : k.val < a + 1 ↔ k.val < a := by omega
      simp only [this, hk', Ne.symm hk, if_false, and_self]
  · intro k; simp
  · intro st hst
    have hs : (List.range' 0 [:513].size).length = 513 := by simp
    rw [hs] at hst
    ext k hk
    · simpa [hk, Vector.get_eq_getElem] using (hst ⟨k, hk⟩).1
    · simpa [hk, Vector.get_eq_getElem] using (hst ⟨k, hk⟩).2

end Analysis

namespace BinSet

theorem binCount_unity : PitchRatio.unity.binCount = 513 := by decide

theorem targetBin_unity (k : Nat) : PitchRatio.unity.targetBin k = k := by
  simp only [PitchRatio.targetBin, PitchRatio.unity]
  have : (65536 : UInt32).toNat = 65536 := rfl
  rw [this]
  omega

theorem deposit_of_lt (r : PitchRatio) (s : BinSet α) {j : Nat} (h : j < 513) (src : Bin α) :
    deposit r s j src = s.set j ⟨(s.get ⟨j, h⟩).magnitude + src.magnitude,
      if Scalar.lt (s.get ⟨j, h⟩).magnitude src.magnitude then src.freq * r.scale
      else (s.get ⟨j, h⟩).freq⟩ h := by
  simp only [deposit, dif_pos h]

/-- At unity every bin lands on its own place, so each synthesis bin is its analysis bin
deposited on a silent one. -/
theorem remap_unity (bins : BinSet α) (k : Fin 513) :
    (bins.remap PitchRatio.unity).get k =
      ⟨0 + (bins.get k).magnitude, if Scalar.lt 0 (bins.get k).magnitude
        then (bins.get k).freq * PitchRatio.unity.scale else 0⟩ := by
  -- after the first `i` bins, the first `i` places hold them and the others are silent
  have key : ∀ i ≤ 513, ∀ k : Fin 513, ((List.range i).foldl (fun s k =>
      if h : k < 513 then deposit PitchRatio.unity s (PitchRatio.unity.targetBin k) (bins.get ⟨k, h⟩)
      else s) BinSet.zero).get k = if k.val < i then
        ⟨0 + (bins.get k).magnitude, if Scalar.lt 0 (bins.get k).magnitude
          then (bins.get k).freq * PitchRatio.unity.scale else 0⟩ else Bin.zero := by
    intro i hi
    induction i with
    | zero => intro k; simp [BinSet.zero]
    | succ i ih =>
      intro k
      rw [List.range_succ, List.foldl_append, List.foldl_cons, List.foldl_nil,
        dif_pos (by omega : i < 513), targetBin_unity]
      rw [deposit_of_lt _ _ (by omega : i < 513)]
      have hz := ih (by omega) ⟨i, by omega⟩
      simp only [lt_irrefl, if_false] at hz
      simp only [Vector.get_eq_getElem, Vector.getElem_set] at hz ⊢
      by_cases hk : k.val = i
      · obtain ⟨k, hk0⟩ := k
        simp only at hk
        subst hk
        simp [hz, Bin.zero]
      · have hk' : k.val < i + 1 ↔ k.val < i := by omega
        have := ih (by omega) k
        simp only [Vector.get_eq_getElem] at this
        simp only [Ne.symm hk, if_false, this, hk']
  unfold remap
  rw [binCount_unity]
  simpa using key 513 le_rfl k

end BinSet

namespace Synthesis

/-- The 1024-bin spectrum whose bins up to 512 are `half` and whose others are the conjugates
of bins 511 down to 1. -/
def mirror (half : Nat → Phasor α) : Vector (Phasor α) 1024 :=
  Vector.ofFn fun k => if k.val < 513 then half k.val else (half (1024 - k.val)).conj

/-- When every bin's phase wraps, `spectrum` gives the wrapped phases and the mirrored
spectrum of their phasors. -/
theorem spectrum_eq {sum : Vector α 513} {bins : BinSet α} {θ : Fin 513 → α}
    (h : ∀ k : Fin 513,
      Phase.radians (sum.get k + (bins.get k).freq * Window.expectedCycles) = .ok (θ k)) :
    spectrum sum bins = .ok (Vector.ofFn θ, mirror fun k =>
      if hk : k < 513 then Phasor.polar (bins.get ⟨k, hk⟩).magnitude (θ ⟨k, hk⟩)
      else Phasor.zero) := by
  unfold spectrum
  dsimp only
  -- after `i` bins, the first `i` phases are wrapped and `i` phasors are pushed
  refine bind_pure_eq_ok _ (forIn_ok_indexed _ (fun i (st : Vector α 513 × Array (Phasor α)) =>
      (∀ k : Fin 513, st.1.get k = if k.val < i then θ k else sum.get k) ∧
        st.2.toList = ((List.finRange 513).take i).map fun k =>
          Phasor.polar (bins.get k).magnitude (θ k)) _ ?_ _ ?_) ?_
  · intro i hi a he st hst
    have hi' : i < 513 := by simpa using hi
    have hai : a = ⟨i, hi'⟩ := by rw [← he, List.getElem_finRange]; rfl
    subst hai
    rw [h]
    refine ⟨_, rfl, fun k => ?_, ?_⟩
    · simp only [Vector.get_eq_getElem, Vector.getElem_set]
      have := hst.1 k
      simp only [Vector.get_eq_getElem] at this
      by_cases hk : k.val = i
      · obtain rfl : k = ⟨i, hi'⟩ := Fin.ext hk
        simp
      · have hk' : k.val < i + 1 ↔ k.val < i := by omega
        simp only [Ne.symm hk, if_false, this, hk']
    · rw [Array.toList_push, hst.2, List.take_add_one, List.map_append,
        List.getElem?_eq_getElem (by simpa using hi'), List.getElem_finRange]
      rfl
  · exact ⟨fun k => by simp, rfl⟩
  · intro st hst
    simp only [List.length_finRange] at hst
    refine Prod.ext ?_ ?_
    · ext k hk
      simpa [hk, Vector.get_eq_getElem] using hst.1 ⟨k, hk⟩
    · -- the pushed phasors, read back by index
      have hget : ∀ k, st.2.getD k Phasor.zero = if hk : k < 513 then
          Phasor.polar (bins.get ⟨k, hk⟩).magnitude (θ ⟨k, hk⟩) else Phasor.zero := by
        intro k
        rw [List.take_of_length_le (by simp)] at hst
        rw [Array.getD_eq_getD_getElem?, ← Array.getElem?_toList, hst.2, List.getElem?_map]
        split
        · rename_i hk
          rw [List.getElem?_eq_getElem (by simpa using hk), List.getElem_finRange]
          rfl
        · rename_i hk
          rw [List.getElem?_eq_none (by simp; omega)]
          rfl
      simp only [mirror, hget]

end Synthesis

namespace Engine

/-- A cycle whose analysis and synthesis succeed: it keeps the new phases, publishes the
overlap-added accumulator over the current slot, and clears that slot of the accumulator. -/
theorem cycle_eq {T : Transform α} {e : Engine α} {L S : Vector α 513} {B : BinSet α}
    {F : Vector (Phasor α) 1024}
    (ha : Analysis.analyze e.lastPhase (Vector.ofFn fun k : Fin 513 =>
      (T.forward (e.ring.frame Window.table)).get (Fin.castLE (by decide) k)) = .ok (L, B))
    (hs : Synthesis.spectrum e.sumPhase (B.remap e.ratio) = .ok (S, F)) :
    ∃ e', e.cycle T = .ok e' ∧ e'.lastPhase = L ∧ e'.sumPhase = S ∧ e'.ratio = e.ratio ∧
      e'.ring.slot = e.ring.slot ∧ e'.ring.fill = e.ring.fill ∧
      (∀ i < 256, e'.hop i = (Synthesis.overlapAdd e.accum (T.inverse F) e.ring.pos).get
        ⟨(e.ring.pos + i) % 1024, Nat.mod_lt _ (by decide)⟩) ∧
      ∀ j : Fin 1024, e'.accum.get j = if e.ring.pos ≤ j.val ∧ j.val < e.ring.pos + 256 then 0
        else (Synthesis.overlapAdd e.accum (T.inverse F) e.ring.pos).get j := by
  have hp := e.ring.pos_le
  obtain ⟨ring, hr, hslot, hfill, hsample⟩ := Ring.storeHop_spec e.ring
    (Array.ofFn (n := 256) fun i =>
      (Synthesis.overlapAdd e.accum (T.inverse F) e.ring.pos).get
        ⟨(e.ring.pos + i.val) % 1024, Nat.mod_lt _ (by decide)⟩) (by simp)
  -- each stage is rewritten to its result rather than reduced: reducing the binds makes the
  -- kernel unfold the whole cycle again
  unfold cycle
  dsimp only
  rw [ha, ok_bind]
  dsimp only
  rw [hs, ok_bind]
  dsimp only
  rw [hr, ok_bind]
  refine ⟨_, rfl, rfl, rfl, rfl, hslot, hfill, fun i hi => ?_, fun j => ?_⟩
  · have hpos : ring.pos = e.ring.pos := by simp only [Ring.pos, hslot]
    rw [hop, hpos, hsample _ (by omega), if_pos (by omega), Nat.add_sub_cancel_left,
      getElem?_pos _ _ (by simp; omega)]
    simp
  · simp only [Vector.get_ofFn]

end Engine

end PhaseVocoder
