import PhaseVocoder.Proofs.OverlapAdd

/-!
# Turning the ring (core/ring_buffer.rs:62-97, shift/synthesis.rs:84-91)

A cycle depends on where the ring's entries sit only relative to the current slot. Turning a
ring `d` hops on (`Ring.turn`) moves its slot and every entry `256 d` places; turning an
engine (`Engine.turn`) moves its accumulator with them. A turned ring hands a cycle the same
frame (`Ring.frame_turn`) and stores a hop at the turned place (`Ring.storeHop_turn`), and
overlap-adding at the turned position gives the turned accumulator (`Synthesis.overlapAdd_turn`).
So a cycle commutes with turning (`Engine.cycle_turn`), and a turned engine hands back the
same hop (`Engine.hop_turn`).
-/

namespace PhaseVocoder

namespace Ring

variable {α : Type}

/-- The ring turned `d` hops on: its slot and every entry move `256 d` places. -/
def turn (d : Fin 4) (r : Ring α) : Ring α :=
  ⟨Vector.ofFn fun j => r.sample (j.val + 1024 - 256 * d.val), r.slot + d, r.fill⟩

theorem sample_congr (r : Ring α) {a b : Nat} (h : a % 1024 = b % 1024) :
    r.sample a = r.sample b := by
  rw [← r.sample_mod a, h, sample_mod]

theorem sample_turn (d : Fin 4) (r : Ring α) (i : Nat) :
    (r.turn d).sample (i + 256 * d.val) = r.sample i := by
  have := d.isLt
  simp only [turn, sample, Vector.get_ofFn]
  congr 2
  omega

theorem pos_turn (d : Fin 4) (r : Ring α) : (r.turn d).pos = (r.pos + 256 * d.val) % 1024 := by
  have := r.slot.isLt
  have := d.isLt
  simp only [turn, pos, Fin.val_add]
  omega

theorem frame_turn [Scalar α] (d : Fin 4) (r : Ring α) (w : Vector α 1024) :
    (r.turn d).frame w = r.frame w := by
  unfold frame
  refine congrArg Vector.ofFn (funext fun j => ?_)
  rw [pos_turn, sample_congr _ (b := r.pos + j.val + 256 * d.val) (by omega), sample_turn]

/-- A ring loaded at slot `s`, turned `d` hops on, is the same frame loaded at slot `s + d`. -/
theorem load_turn (d s : Fin 4) (f : Vector α 1024) : (load s f).turn d = load (s + d) f := by
  refine ext_sample rfl rfl fun i hi => ?_
  have hs := (s + d).isLt
  obtain ⟨j, hj, rfl⟩ : ∃ j < 1024, (256 * (s + d).val + j) % 1024 = i :=
    ⟨(i + 1024 - 256 * (s + d).val) % 1024, Nat.mod_lt _ (by decide), by omega⟩
  have hl := sample_load (s + d) f j hj
  rw [show (load (s + d) f).pos = 256 * (s + d).val from rfl] at hl
  rw [sample_mod, sample_mod, hl, sample_congr _ (b := (load s f).pos + j + 256 * d.val),
    sample_turn, sample_load]
  simp only [load, pos, Fin.val_add]
  omega

theorem storeHop_turn (d : Fin 4) (r : Ring α) (hop : Array α) :
    (r.turn d).storeHop hop = (r.storeHop hop).map (turn d) := by
  by_cases h : hop.size = 256
  · obtain ⟨r₁, h₁, hs₁, hf₁, hd₁⟩ := storeHop_spec r hop h
    obtain ⟨r₂, h₂, hs₂, hf₂, hd₂⟩ := storeHop_spec (r.turn d) hop h
    rw [h₁, h₂]
    refine congrArg Except.ok (ext_sample ?_ ?_ fun i hi => ?_)
    · simp only [turn, hs₂, hs₁]
    · simp only [turn, hf₂, hf₁]
    · have hp := r.pos_le
      have hd := d.isLt
      have hpd : r.pos % 256 = 0 := by simp only [pos]; omega
      set k := (i + 1024 - 256 * d.val) % 1024 with hk
      have hik : i % 1024 = (k + 256 * d.val) % 1024 := by omega
      rw [hd₂ i hi, pos_turn, sample_congr _ hik, sample_congr _ hik, sample_turn, sample_turn,
        hd₁ k (by omega)]
      by_cases hin : r.pos ≤ k ∧ k < r.pos + 256
      · rw [if_pos (by omega), if_pos hin, show i - (r.pos + 256 * d.val) % 1024 = k - r.pos by omega]
      · rw [if_neg (by omega), if_neg hin]
  · simp [storeHop, h, Except.map]

end Ring

namespace Synthesis

/-- An accumulator turned `d` hops on: every entry moves `256 d` places. -/
def turnAccum {α : Type} (d : Fin 4) (A : Vector α 1024) : Vector α 1024 :=
  Vector.ofFn fun j => A.get (@Fin.ofNat 1024 frame_neZero (j.val + 1024 - 256 * d.val))

theorem overlapAdd_turn {α : Type} [Scalar α] (d : Fin 4) (A : Vector α 1024)
    (F : Vector (Phasor α) 1024) (p : Nat) :
    overlapAdd (turnAccum d A) F ((p + 256 * d.val) % 1024) = turnAccum d (overlapAdd A F p) := by
  have hd := d.isLt
  have key : ∀ j : Fin 1024, (overlapAdd (turnAccum d A) F ((p + 256 * d.val) % 1024)).get j =
      (turnAccum d (overlapAdd A F p)).get j := by
    intro j
    have hj := j.isLt
    simp only [overlapAdd_get, turnAccum, Vector.get_ofFn]
    congr 2
    simp only [Fin.val_ofNat]
    omega
  exact Vector.ext fun j hj => key ⟨j, hj⟩

end Synthesis

namespace Engine

variable {α : Type}

open Synthesis

/-- The engine turned `d` hops on: its ring, and its accumulator with it. -/
def turn (d : Fin 4) (e : Engine α) : Engine α :=
  { e with ring := e.ring.turn d, accum := turnAccum d e.accum }

theorem turn_mk (d : Fin 4) (r : Ring α) (L S : Vector α 513) (A : Vector α 1024)
    (q : PitchRatio) : turn d ⟨r, L, S, A, q⟩ = ⟨r.turn d, L, S, turnAccum d A, q⟩ := rfl

theorem hop_turn (d : Fin 4) (e : Engine α) (i : Nat) : (e.turn d).hop i = e.hop i := by
  simp only [hop, turn]
  rw [Ring.pos_turn, Ring.sample_congr _ (b := e.ring.pos + i + 256 * d.val) (by omega),
    Ring.sample_turn]

/-- A cycle commutes with turning: the turned engine analyses the same frame with the same
phases, then overlap-adds, publishes and clears at the turned place. -/
theorem cycle_turn [Scalar α] (T : Transform α) (d : Fin 4) (e : Engine α) :
    (e.turn d).cycle T = (e.cycle T).map (turn d) := by
  have hp := e.ring.pos_le
  have hpd : e.ring.pos % 256 = 0 := by simp only [Ring.pos]; omega
  have hd := d.isLt
  -- the turn is unfolded before the cycle, and the binds are rewritten rather than reduced:
  -- the other way the kernel unfolds the whole cycle again
  dsimp only [turn]
  unfold cycle
  simp only [Ring.frame_turn, Ring.pos_turn, overlapAdd_turn]
  cases ha : Analysis.analyze e.lastPhase (Vector.ofFn fun k : Fin 513 =>
      (T.forward (e.ring.frame Window.table)).get (Fin.castLE (by decide) k)) with
  | error f => rfl
  | ok LB =>
    rw [ok_bind, ok_bind]
    cases hs : Synthesis.spectrum e.sumPhase (BinSet.remap e.ratio LB.2) with
    | error f => rfl
    | ok SF =>
      rw [ok_bind, ok_bind]
      set A := overlapAdd e.accum (T.inverse SF.2) e.ring.pos
      have hhop : (Array.ofFn fun i : Fin 256 => (turnAccum d A).get
            ⟨((e.ring.pos + 256 * d.val) % 1024 + i.val) % 1024, Nat.mod_lt _ (by decide)⟩) =
          Array.ofFn fun i : Fin 256 =>
            A.get ⟨(e.ring.pos + i.val) % 1024, Nat.mod_lt _ (by decide)⟩ := by
        refine congrArg Array.ofFn (funext fun i => ?_)
        simp only [turnAccum, Vector.get_ofFn]
        exact congrArg A.get (Fin.ext (by simp only [Fin.val_ofNat]; omega))
      rw [hhop, Ring.storeHop_turn]
      cases e.ring.storeHop _ with
      | error f => rfl
      | ok r =>
        rw [map_ok, ok_bind, ok_bind]
        refine congrArg Except.ok ?_
        rw [turn_mk, Engine.mk.injEq]
        refine ⟨rfl, rfl, rfl, ?_, rfl⟩
        refine Vector.ext fun j hj => ?_
        simp only [turnAccum, Vector.getElem_ofFn, Vector.get_ofFn, Fin.val_ofNat]
        by_cases hin : e.ring.pos ≤ (j + 1024 - 256 * d.val) % 1024 ∧
            (j + 1024 - 256 * d.val) % 1024 < e.ring.pos + 256
        · rw [if_pos hin, if_pos (by omega)]
        · rw [if_neg hin, if_neg (by omega)]

/-- `e'` is `e` with its ring `d` hops on: the same phases, the accumulator turned, and the
same hop to hand back. -/
structure Shifted (d : Fin 4) (e' e : Engine α) : Prop where
  slot : e'.ring.slot = e.ring.slot + d
  last : e'.lastPhase = e.lastPhase
  sum : e'.sumPhase = e.sumPhase
  accum : e'.accum = turnAccum d e.accum
  hop : ∀ i < 256, e'.hop i = e.hop i

theorem shifted_turn (d : Fin 4) (e : Engine α) : Shifted d (e.turn d) e := by
  have hhop := hop_turn d e
  obtain ⟨r, L, S, A, q⟩ := e
  rw [turn_mk] at hhop ⊢
  exact ⟨rfl, rfl, rfl, rfl, fun i _ => hhop i⟩

variable [Scalar α]

theorem atCycle_mk (x : Nat → α) (n : Nat) (r : PitchRatio) (ring : Ring α) (L S : Vector α 513)
    (A : Vector α 1024) (q : PitchRatio) :
    atCycle x n r ⟨ring, L, S, A, q⟩ = ⟨Ring.load ring.nextSlot (frameAt x (n + 1)), L, S, A, r⟩ :=
  rfl

/-- Engines `d` hops apart start the same cycle on the same frame `d` hops apart. -/
theorem atCycle_shifted {d : Fin 4} {e' e : Engine α} (h : Shifted d e' e) {x x' : Nat → α}
    {n n' : Nat} (hf : frameAt x' (n' + 1) = frameAt x (n + 1)) (r : PitchRatio) :
    e'.atCycle x' n' r = (e.atCycle x n r).turn d := by
  obtain ⟨ring', L', S', A', r'⟩ := e'
  obtain ⟨ring, L, S, A, q⟩ := e
  obtain ⟨hs, hl, hsum, ha, -⟩ := h
  simp only at hs hl hsum ha
  subst hl hsum ha
  rw [atCycle_mk, atCycle_mk, turn_mk, Ring.load_turn, hf, Ring.nextSlot, Ring.nextSlot, hs,
    add_right_comm]

/-- Cycles on the same frame from engines `d` hops apart end `d` hops apart, or fail alike. -/
theorem cycle_shifted (T : Transform α) {d : Fin 4} {e' e : Engine α} (h : Shifted d e' e)
    {x x' : Nat → α} {n n' : Nat} (hf : frameAt x' (n' + 1) = frameAt x (n + 1))
    (r : PitchRatio) :
    (e'.atCycle x' n' r).cycle T = ((e.atCycle x n r).cycle T).map (turn d) := by
  rw [atCycle_shifted h hf, cycle_turn]

end Engine

end PhaseVocoder
