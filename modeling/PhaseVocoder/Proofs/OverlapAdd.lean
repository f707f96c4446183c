import PhaseVocoder.Proofs.Spectrum

/-!
# Overlap-add bookkeeping (shift/synthesis.rs:46-91)

The accumulator half of a cycle (`Synthesis.publish`) overlap-adds a frame at the ring
position, hands out the 256 samples from that position on as the hop, and clears them. Cycles
run one hop apart round the ring, so over a run (`accumAfter`, `hopAfter`) every accumulator
entry is read relative to the next cycle's position: `q` hops ahead of it, entry `i` holds,
summed from zero in the order the cycles ran, sample `256 (q + l) + i` of the frame of the
cycle `l` hops back, for each cycle so far that reached it (`pending`, `accumAfter_get`).

The hop a cycle publishes is therefore `0 + c(n-3, 768+i) + c(n-2, 512+i) + c(n-1, 256+i) +
c(n, i)`, the terms of cycles before the first left out (`hopAfter_get_add_three`). Sample `t`
of a frame is published once, by the cycle `t / 256` hops later, and the slot it was summed
in has been cleared by then: the accumulator after `n` cycles depends on the frames of the
last three only (`accumAfter_congr`). `replay_accumAfter` shows the engine's cycles are such
a run, from slot 0, of the frames they synthesise.
-/

namespace PhaseVocoder

namespace Synthesis

variable {α : Type} [Scalar α]

/-- Frame places are taken modulo the frame length; the definitions below name this fact
rather than prove it in their bodies. -/
theorem frame_neZero : NeZero 1024 := ⟨by decide⟩

/-- What overlap-adding the frame `F` adds at frame place `t`: its windowed real part, scaled. -/
def contribution (F : Vector (Phasor α) 1024) (t : Nat) : α :=
  Window.table.get (@Fin.ofNat 1024 frame_neZero t) * (F.get (@Fin.ofNat 1024 frame_neZero t)).re *
    Window.outputScale

/-- The accumulator half of a cycle at ring position `p`: the frame `F` is overlap-added, and
the 256 samples from `p` on are handed out as the hop and cleared. -/
def publish (accum : Vector α 1024) (F : Vector (Phasor α) 1024) (p : Nat) :
    Vector α 1024 × Vector α 256 :=
  let summed := overlapAdd accum F p
  (Vector.ofFn fun j => if p ≤ j.val ∧ j.val < p + 256 then 0 else summed.get j,
    Vector.ofFn fun i => summed.get (@Fin.ofNat 1024 frame_neZero (p + i.val)))

theorem overlapAdd_get (accum : Vector α 1024) (F : Vector (Phasor α) 1024) (p : Nat)
    (j : Fin 1024) :
    (overlapAdd accum F p).get j = accum.get j + contribution F ((j.val + 1024 - p % 1024) % 1024) := by
  have hj : Fin.ofNat 1024 ((j.val + 1024 - p % 1024) % 1024) =
      ⟨(j.val + 1024 - p % 1024) % 1024, Nat.mod_lt _ (by decide)⟩ := Fin.ext (by simp)
  simp only [overlapAdd, contribution, Vector.get_ofFn, hj]

theorem get_ofNat_congr {β : Type} (v : Vector β 1024) {a b : Nat} (h : a % 1024 = b % 1024) :
    v.get (Fin.ofNat 1024 a) = v.get (Fin.ofNat 1024 b) :=
  congrArg v.get (Fin.ext (by simpa using h))

/-! ## A run of cycles one hop apart -/

/-- The ring position of cycle `n` of a run whose cycle 0 is at slot `s`. -/
def slotPos (s n : Nat) : Nat := 256 * ((s + n) % 4)

/-- The accumulator after `n` cycles from a silent one, cycle `k` overlap-adding the frame
`F k` at `slotPos s k`. -/
def accumAfter (F : Nat → Vector (Phasor α) 1024) (s : Nat) : Nat → Vector α 1024
  | 0 => Vector.replicate 1024 0
  | n + 1 => (publish (accumAfter F s n) (F n) (slotPos s n)).1

/-- The hop cycle `n` of that run publishes. -/
def hopAfter (F : Nat → Vector (Phasor α) 1024) (s n : Nat) : Vector α 256 :=
  (publish (accumAfter F s n) (F n) (slotPos s n)).2

/-- What the accumulator holds after `n` cycles at entry `i` of the slot `q` hops past the next
cycle's position: zero, plus sample `256 (q + l) + i` of the frame of each cycle `l` hops back
that reached it, the oldest first. From three hops on the slot is the one just cleared. -/
def pending (F : Nat → Vector (Phasor α) 1024) : Nat → Nat → Nat → α
  | 0, _, _ => 0
  | n + 1, q, i =>
    if q < 3 then pending F n (q + 1) i + contribution (F n) (256 * (q + 1) + i) else 0

theorem pending_three (F : Nat → Vector (Phasor α) 1024) (n i : Nat) : pending F n 3 i = 0 := by
  cases n <;> simp [pending]

theorem pending_add_three (F : Nat → Vector (Phasor α) 1024) (n i : Nat) :
    pending F (n + 3) 0 i =
      0 + contribution (F n) (768 + i) + contribution (F (n + 1)) (512 + i) +
        contribution (F (n + 2)) (256 + i) := by
  simp only [pending]
  norm_num [pending_three]

theorem pending_congr {F G : Nat → Vector (Phasor α) 1024} :
    ∀ n q i, (∀ m < n, n + q < m + 4 → F m = G m) → pending F n q i = pending G n q i
  | 0, _, _, _ => rfl
  | n + 1, q, i, h => by
    simp only [pending]
    split
    · rw [pending_congr n (q + 1) i fun m hm hq => h m (by omega) (by omega),
        h n (by omega) (by omega)]
    · rfl

/-- Entry `i` of the slot `q` hops past the next cycle's position holds the pending sum. -/
theorem accumAfter_get (F : Nat → Vector (Phasor α) 1024) (s : Nat) :
    ∀ n q i, q < 4 → i < 256 →
      (accumAfter F s n).get (Fin.ofNat 1024 (slotPos s n + 256 * q + i)) = pending F n q i
  | 0, q, i, _, _ => by simp [accumAfter, pending]
  | n + 1, q, i, hq, hi => by
    have hp : (slotPos s (n + 1) + 256 * q + i) % 1024 =
        (slotPos s n + 256 * (q + 1) + i) % 1024 := by
      simp only [slotPos]; omega
    rw [get_ofNat_congr _ hp]
    simp only [accumAfter, publish, Vector.get_ofFn, pending, Fin.val_ofNat]
    by_cases hq3 : q < 3
    · -- not published yet: cycle `n` added its frame there
      rw [if_neg (by simp only [slotPos]; omega), if_pos hq3, overlapAdd_get,
        accumAfter_get F s n (q + 1) i (by omega) hi, Fin.val_ofNat]
      congr 2
      simp only [slotPos]; omega
    · -- the slot cycle `n` published and cleared
      rw [if_pos (by simp only [slotPos]; omega), if_neg hq3]

theorem accumAfter_succ_published (F : Nat → Vector (Phasor α) 1024) (s n : Nat) (j : Fin 1024)
    (h₁ : slotPos s n ≤ j.val) (h₂ : j.val < slotPos s n + 256) :
    (accumAfter F s (n + 1)).get j = 0 := by
  simp only [accumAfter, publish, Vector.get_ofFn]
  exact if_pos ⟨h₁, h₂⟩

/-- Entry `i` of the hop cycle `n` publishes: the pending sum at its slot and the cycle's own
frame. -/
theorem hopAfter_get (F : Nat → Vector (Phasor α) 1024) (s n : Nat) (i : Fin 256) :
    (hopAfter F s n).get i = pending F n 0 i + contribution (F n) i := by
  have h := accumAfter_get F s n 0 i (by decide) i.isLt
  rw [Nat.mul_zero, Nat.add_zero] at h
  simp only [hopAfter, publish, Vector.get_ofFn, overlapAdd_get, h, Fin.val_ofNat]
  congr 2
  simp only [slotPos]; omega

/-- The hop cycle `n` publishes, entry by entry: zero, plus sample `256 l + i` of the frame of
the cycle `l` hops back, for `l` from 3 down to 0, the cycles before the first left out. -/
theorem hopAfter_get_eq_foldl (F : Nat → Vector (Phasor α) 1024) (s n : Nat) (i : Fin 256) :
    (hopAfter F s n).get i = ([3, 2, 1, 0].filter (· ≤ n)).foldl
      (fun acc l => acc + contribution (F (n - l)) (256 * l + i)) 0 := by
  rw [hopAfter_get]
  rcases n with _ | _ | _ | n
  · simp [pending]
  · simp [pending]
  · simp [pending]
  · rw [pending_add_three]
    simp

theorem hopAfter_get_add_three (F : Nat → Vector (Phasor α) 1024) (s n : Nat) (i : Fin 256) :
    (hopAfter F s (n + 3)).get i =
      0 + contribution (F n) (768 + i) + contribution (F (n + 1)) (512 + i) +
        contribution (F (n + 2)) (256 + i) + contribution (F (n + 3)) i := by
  rw [hopAfter_get, pending_add_three]

theorem exists_offset (p : Nat) (j : Fin 1024) :
    ∃ q < 4, ∃ i < 256, Fin.ofNat 1024 (p + 256 * q + i) = j := by
  have hj := j.isLt
  refine ⟨(j.val + 1024 - p % 1024) % 1024 / 256, by omega,
    (j.val + 1024 - p % 1024) % 1024 % 256, by omega, Fin.ext ?_⟩
  rw [Fin.val_ofNat]
  omega

/-- The accumulator after `n` cycles depends on the frames of the last three only: four cycles
on, every sample of a frame has been published and its slot cleared. -/
theorem accumAfter_congr {F G : Nat → Vector (Phasor α) 1024} (s n : Nat)
    (h : ∀ m < n, n < m + 4 → F m = G m) : accumAfter F s n = accumAfter G s n := by
  refine Vector.ext fun j hj => ?_
  obtain ⟨q, hq, i, hi, hji⟩ := exists_offset (slotPos s n) ⟨j, hj⟩
  have hF := accumAfter_get F s n q i hq hi
  have hG := accumAfter_get G s n q i hq hi
  rw [pending_congr n q i fun m hm hmq => h m hm (by omega), ← hG, hji] at hF
  simpa only [Vector.get_eq_getElem] using hF

theorem hopAfter_congr {F G : Nat → Vector (Phasor α) 1024} (s n : Nat)
    (h : ∀ m ≤ n, n < m + 4 → F m = G m) : hopAfter F s n = hopAfter G s n := by
  refine Vector.ext fun i hi => ?_
  have hF := hopAfter_get F s n ⟨i, hi⟩
  rw [pending_congr n 0 i fun m hm hmq => h m hm.le (by omega), h n le_rfl (by omega),
    ← hopAfter_get G s n ⟨i, hi⟩] at hF
  simpa only [Vector.get_eq_getElem] using hF

end Synthesis

/-! ## The engine's cycles -/

namespace Engine

variable {α : Type} [Scalar α]

open Synthesis

/-- `F` is the frame the cycle of `e` overlap-adds: the inverse transform of the spectrum its
analysis and synthesis produce. -/
def Overlaps (T : Transform α) (e : Engine α) (F : Vector (Phasor α) 1024) : Prop :=
  ∃ L B S full, Analysis.analyze e.lastPhase (Vector.ofFn fun k : Fin 513 =>
      (T.forward (e.ring.frame Window.table)).get (Fin.castLE (Nat.le_of_ble_eq_true rfl) k)) =
        .ok (L, B) ∧
    Synthesis.spectrum e.sumPhase (B.remap e.ratio) = .ok (S, full) ∧ F = T.inverse full

/-- A cycle that succeeds is the accumulator step, at the ring position, of the frame it
overlap-adds. -/
theorem cycle_publish {T : Transform α} {e e' : Engine α} (h : e.cycle T = .ok e') :
    ∃ F, Overlaps T e F ∧ e'.accum = (publish e.accum F e.ring.pos).1 ∧
      ∀ i : Fin 256, e'.hop i = (publish e.accum F e.ring.pos).2.get i := by
  have h' := h
  unfold cycle at h'
  obtain ⟨⟨L, B⟩, ha, h'⟩ := bind_eq_ok.1 h'
  obtain ⟨⟨S, full⟩, hs, -⟩ := bind_eq_ok.1 h'
  obtain ⟨e'', hc, -, -, -, -, -, hhop, hacc⟩ := cycle_eq ha hs
  rw [h] at hc
  cases hc
  refine ⟨T.inverse full, ⟨L, B, S, full, ha, hs, rfl⟩, Vector.ext fun j hj => ?_, fun i => ?_⟩
  · simpa [publish, Vector.get_eq_getElem] using hacc ⟨j, hj⟩
  · rw [hhop i i.isLt]
    simp only [publish, Vector.get_ofFn]
    exact congrArg _ (Fin.ext (Fin.val_ofNat _ _).symm)

theorem atCycle_pos {e : Engine α} {n : Nat} (hslot : e.ring.slot.val = (n + 3) % 4)
    (x : Nat → α) (r : PitchRatio) : (e.atCycle x n r).ring.pos = slotPos 0 n := by
  simp only [atCycle, Ring.pos, Ring.load, Ring.nextSlot, Fin.val_add, hslot, slotPos]
  omega

/-- The engine's cycles are a run of accumulator steps from slot 0, of the frames they
overlap-add: after `N` replayed cycles the accumulator is that of the run, and the hop handed
back next is the one the last cycle published. -/
theorem replay_accumAfter {T : Transform α} {x : Nat → α} {ρ : Nat → PitchRatio} :
    ∀ {N e out}, replay T x ρ N = .ok (e, out) →
      ∃ F : Nat → Vector (Phasor α) 1024,
        (∀ n < N, ∃ e₀ out₀, replay T x ρ n = .ok (e₀, out₀) ∧
          Overlaps T (e₀.atCycle x n (ρ (n + 1))) (F n)) ∧
        e.accum = accumAfter F 0 N ∧
        ∀ n, N = n + 1 → ∀ i : Fin 256, e.hop i = (hopAfter F 0 n).get i
  | 0, e, out, h => by
    cases h
    exact ⟨fun _ => Vector.replicate 1024 Phasor.zero, fun n hn => absurd hn (Nat.not_lt_zero n),
      rfl, fun n hn => absurd hn (by omega)⟩
  | N + 1, e, out, h => by
    rw [replay_succ] at h
    obtain ⟨⟨e₀, out₀⟩, h₀, h⟩ := bind_eq_ok.1 h
    obtain ⟨e₁, hc, he⟩ := map_eq_ok.1 h
    cases he
    obtain ⟨F, hF, hacc, -⟩ := replay_accumAfter h₀
    obtain ⟨G, hG, hacc', hhop⟩ := cycle_publish hc
    have hpos := atCycle_pos (replay_ring h₀).2.1 x (ρ (N + 1))
    let F' : Nat → Vector (Phasor α) 1024 := fun m => if m = N then G else F m
    have hrun : accumAfter F' 0 N = e₀.accum := by
      rw [accumAfter_congr 0 N (G := F) fun m hm _ => if_neg (by omega), hacc]
    refine ⟨F', fun n hn => ?_, ?_, fun n hn i => ?_⟩
    · by_cases hnN : n = N
      · subst hnN
        exact ⟨e₀, out₀, h₀, by simpa only [F', if_pos rfl] using hG⟩
      · obtain ⟨e₂, out₂, h₂, hO⟩ := hF n (by omega)
        exact ⟨e₂, out₂, h₂, by simpa only [F', if_neg hnN] using hO⟩
    · -- the cycle reads the accumulator it was handed
      rw [hacc', accumAfter, hrun, ← hpos]
      simp only [F', if_pos rfl, atCycle]
    · obtain rfl : n = N := by omega
      rw [hhop i, hopAfter, hrun, ← hpos]
      simp only [F', if_pos rfl, atCycle]

/-- Overlap-add bookkeeping. Over a run of cycles one hop apart round the ring from a silent
accumulator, whatever their frames, the hop cycle `n` publishes is, entry by entry, zero plus
sample `256 l + i` of the frame of the cycle `l` hops back, for `l` from 3 down to 0 and the
cycles before the first left out; the slot it published is cleared; the accumulator then
depends on the frames of the last three cycles only, and each hop on those of its own four,
so every windowed sample is published once and none stays behind. The engine's cycles are
such a run from slot 0, of the frames they synthesise. -/
theorem overlap_add_publishes_each_sample_once :
    (∀ (F : Nat → Vector (Phasor α) 1024) (s n : Nat) (i : Fin 256),
      (hopAfter F s n).get i = ([3, 2, 1, 0].filter (· ≤ n)).foldl
        (fun acc l => acc + contribution (F (n - l)) (256 * l + i)) 0) ∧
    (∀ (F : Nat → Vector (Phasor α) 1024) (s n : Nat) (i : Fin 256),
      (hopAfter F s (n + 3)).get i =
        0 + contribution (F n) (768 + i) + contribution (F (n + 1)) (512 + i) +
          contribution (F (n + 2)) (256 + i) + contribution (F (n + 3)) i) ∧
    (∀ (F : Nat → Vector (Phasor α) 1024) (s n : Nat) (j : Fin 1024),
      slotPos s n ≤ j.val → j.val < slotPos s n + 256 → (accumAfter F s (n + 1)).get j = 0) ∧
    (∀ (F G : Nat → Vector (Phasor α) 1024) (s n : Nat), (∀ m < n, n < m + 4 → F m = G m) →
      accumAfter F s n = accumAfter G s n) ∧
    (∀ (F G : Nat → Vector (Phasor α) 1024) (s n : Nat), (∀ m ≤ n, n < m + 4 → F m = G m) →
      hopAfter F s n = hopAfter G s n) ∧
    ∀ (T : Transform α) (x : Nat → α) (ρ : Nat → PitchRatio) (N : Nat) (e : Engine α)
      (out : List α), replay T x ρ N = .ok (e, out) →
      ∃ F : Nat → Vector (Phasor α) 1024,
        (∀ n < N, ∃ e₀ out₀, replay T x ρ n = .ok (e₀, out₀) ∧
          Overlaps T (e₀.atCycle x n (ρ (n + 1))) (F n)) ∧
        e.accum = accumAfter F 0 N ∧
        ∀ n, N = n + 1 → ∀ i : Fin 256, e.hop i = (hopAfter F 0 n).get i :=
  ⟨hopAfter_get_eq_foldl, hopAfter_get_add_three, accumAfter_succ_published,
    fun _ _ s n h => accumAfter_congr s n h, fun _ _ s n h => hopAfter_congr s n h,
    fun _ _ _ _ _ _ h => replay_accumAfter h⟩

end Engine

end PhaseVocoder
