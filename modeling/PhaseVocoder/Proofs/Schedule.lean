import PhaseVocoder.Proofs.Stream

/-!
# The hop schedule (effect/pshifter.rs:139-186)

From a fresh engine the stream is cut into hops of 256 samples, and cycle `n` runs when hop
`n` is complete, on sample `256 n - 1`. `Engine.replay` writes that schedule out: cycle `n`
runs on `frameAt x n`, the 1024 samples before sample `256 n` in stream order with zeros
before the stream starts, at the ratio `ρ n` in force on sample `256 n - 1`; and hop `n`
hands back, entry by entry, the hop that cycle `n` published (the fresh ring's zeros for
hop 0). The ring plays no other part: a hop the cycles store is read back only as output,
never as a frame.

`Engine.run_schedule` shows that the engine keeps this schedule on every stream: after `T`
samples the current hop holds `T % 256` of them, the slot has moved on once per hop, the
analysis and synthesis state is that of the `T / 256` replayed cycles, and the output is the
replayed hops, narrowed. `Shifter.hop_schedule` says the same of any sequence of calls from a
fresh or reset effect, and adds what follows from `Engine.replay_congr`: an input sample
reaches no output before the next hop boundary after it, and a ratio takes effect from the
hop of the next cycle.
-/

namespace PhaseVocoder

namespace Ring

variable {α : Type}

theorem eq_load {r : Ring α} {f : Vector α 1024} (hf : r.fill = 0)
    (h : ∀ j (hj : j < 1024), r.sample (r.pos + j) = f.get ⟨j, hj⟩) : r = load r.slot f := by
  have hs : r.slot = (load r.slot f).slot := by simp only [load]
  have hf' : r.fill = (load r.slot f).fill := by simp only [load]; exact hf
  refine ext_sample hs hf' fun i hi => ?_
  have hp := r.pos_le
  obtain ⟨j, hj, rfl⟩ : ∃ j < 1024, (r.pos + j) % 1024 = i :=
    ⟨(i + 1024 - r.pos) % 1024, Nat.mod_lt _ (by decide), by omega⟩
  have hl := sample_load r.slot f j hj
  rw [show (load r.slot f).pos = r.pos by simp only [load, pos]] at hl
  rw [sample_mod, sample_mod, h j hj, hl]

theorem frame_load [Scalar α] (slot : Fin 4) (f w : Vector α 1024) :
    (load slot f).frame w = Vector.ofFn fun j => ⟨f.get j * w.get j, 0⟩ := by
  unfold frame
  refine congrArg Vector.ofFn (funext fun j => ?_)
  rw [sample_load slot f j.val j.isLt]

end Ring

namespace Engine

variable {α : Type} [Scalar α]

/-! ## The schedule written out -/

/-- The frame cycle `n` reads: samples `256 n - 1024` to `256 n - 1` of the stream `x`, oldest
first, zero before the stream starts. -/
def frameAt (x : Nat → α) (n : Nat) : Vector α 1024 :=
  Vector.ofFn fun j => if 1024 ≤ 256 * n + j.val then x (256 * n + j.val - 1024) else 0

/-- Entry `i` of the hop the engine's last cycle published, which the next hop hands back. -/
def hop (e : Engine α) (i : Nat) : α := e.ring.sample (e.ring.pos + i)

/-- The engine cycle `n + 1` runs on, after `e`: the ring holds frame `n + 1` at the next
slot, and the ratio is `r`. -/
def atCycle (x : Nat → α) (n : Nat) (r : PitchRatio) (e : Engine α) : Engine α :=
  { e with ring := Ring.load e.ring.nextSlot (frameAt x (n + 1)), ratio := r }

/-! The fields of `atCycle` are read by cases on the engine: `rfl` on the projections alone
would compare the loaded ring with the old one entry by entry. -/

theorem atCycle_lastPhase (x : Nat → α) (n : Nat) (r : PitchRatio) (e : Engine α) :
    (e.atCycle x n r).lastPhase = e.lastPhase := by
  cases e; rfl

theorem atCycle_sumPhase (x : Nat → α) (n : Nat) (r : PitchRatio) (e : Engine α) :
    (e.atCycle x n r).sumPhase = e.sumPhase := by
  cases e; rfl

theorem atCycle_ratio (x : Nat → α) (n : Nat) (r : PitchRatio) (e : Engine α) :
    (e.atCycle x n r).ratio = r := by
  cases e; rfl

/-- The engine after `n` cycles on the stream `x`, with the `256 n` samples the first `n` hops
hand back: cycle `n` runs on `frameAt x n` at ratio `ρ n`, and hop `n` hands back the hop of
cycle `n`. -/
def replay (T : Transform α) (x : Nat → α) (ρ : Nat → PitchRatio) :
    Nat → Except Fault (Engine α × List α)
  | 0 => .ok (fresh, [])
  | n + 1 => do
    let (e, out) ← replay T x ρ n
    let e' ← cycle T (e.atCycle x n (ρ (n + 1)))
    pure (e', out ++ (List.range 256).map e.hop)

theorem replay_succ (T : Transform α) (x : Nat → α) (ρ : Nat → PitchRatio) (n : Nat) :
    replay T x ρ (n + 1) = replay T x ρ n >>= fun (e, out) =>
      (cycle T (e.atCycle x n (ρ (n + 1)))).map fun e' =>
        (e', out ++ (List.range 256).map e.hop) := by
  simp only [replay, bind, Except.bind]
  rcases replay T x ρ n with f | ⟨e, out⟩
  · rfl
  · simp only
    rcases cycle T _ with f | e' <;> rfl

theorem hop_fresh (i : Nat) : (fresh : Engine α).hop i = 0 := by
  simp [hop, fresh, Ring.fresh, Ring.sample]

theorem frameAt_succ_low (x : Nat → α) (n j : Nat) (hj : j < 768) :
    (frameAt x (n + 1)).get ⟨j, by omega⟩ = (frameAt x n).get ⟨256 + j, by omega⟩ := by
  simp only [frameAt, Vector.get_ofFn]
  rw [show 256 * (n + 1) + j = 256 * n + (256 + j) by ring]

theorem frameAt_succ_high (x : Nat → α) (n j : Nat) (h₁ : 768 ≤ j) (h₂ : j < 1024) :
    (frameAt x (n + 1)).get ⟨j, h₂⟩ = x (256 * n + (j - 768)) := by
  simp only [frameAt, Vector.get_ofFn]
  rw [if_pos (by omega), show 256 * (n + 1) + j - 1024 = 256 * n + (j - 768) by omega]

theorem frameAt_congr {x x' : Nat → α} {n : Nat} (h : ∀ t < 256 * n, x t = x' t) :
    frameAt x n = frameAt x' n := by
  unfold frameAt
  congr 1
  funext j
  have := j.isLt
  split
  · rw [h _ (by omega)]
  · rfl

/-- The first `n` cycles and hops depend on the stream only before sample `256 n`, and on the
ratios of cycles `1` to `n`. -/
theorem replay_congr (T : Transform α) {x x' : Nat → α} {ρ ρ' : Nat → PitchRatio} :
    ∀ n, (∀ t < 256 * n, x t = x' t) → (∀ m, 1 ≤ m → m ≤ n → ρ m = ρ' m) →
      replay T x ρ n = replay T x' ρ' n
  | 0, _, _ => rfl
  | n + 1, hx, hρ => by
    have ih := replay_congr T n (fun t ht => hx t (by omega)) fun m h₁ h₂ => hρ m h₁ (by omega)
    rw [replay_succ, replay_succ, ih]
    simp only [atCycle, frameAt_congr hx, hρ (n + 1) (by omega) le_rfl]

/-- What a replayed engine holds: nothing of the next hop, its slot moved on once per cycle
from slot 3, outside that slot the 768 newest samples of its frame, and `256 n` samples
handed back. -/
theorem replay_ring {T : Transform α} {x : Nat → α} {ρ : Nat → PitchRatio} {n : Nat}
    {e : Engine α} {out : List α} (h : replay T x ρ n = .ok (e, out)) :
    e.ring.fill = 0 ∧ e.ring.slot.val = (n + 3) % 4 ∧ out.length = 256 * n ∧
      ∀ j (hj : j < 768),
        e.ring.sample (e.ring.pos + 256 + j) = (frameAt x n).get ⟨256 + j, by omega⟩ := by
  induction n generalizing e out with
  | zero =>
    cases h
    refine ⟨rfl, rfl, rfl, fun j hj => ?_⟩
    simp [frameAt, fresh, Ring.fresh, Ring.sample, show ¬ (1024 ≤ 256 + j) by omega]
  | succ n ih =>
    rw [replay_succ] at h
    obtain ⟨⟨e₀, out₀⟩, h₀, h⟩ := bind_eq_ok.1 h
    obtain ⟨e₁, hc, he⟩ := map_eq_ok.1 h
    cases he
    obtain ⟨-, hs₀, hl₀, -⟩ := ih h₀
    obtain ⟨-, hslot, hfill, hkeep⟩ := cycle_frame hc
    have hpos : e.ring.pos = (e₀.atCycle x n (ρ (n + 1))).ring.pos := by
      simp only [Ring.pos, hslot]
    have hp := (e₀.atCycle x n (ρ (n + 1))).ring.pos_le
    have hlen : (out₀ ++ (List.range 256).map e₀.hop).length = 256 * (n + 1) := by
      simp only [List.length_append, List.length_map, List.length_range, hl₀]; ring
    refine ⟨hfill, ?_, hlen, fun j hj => ?_⟩
    · rw [hslot]
      simp only [atCycle, Ring.load, Ring.nextSlot, Fin.val_add, hs₀]
      omega
    · -- outside its slot the cycle left the loaded frame as it was
      rw [← Ring.sample_mod, hkeep _ (Nat.mod_lt _ (by decide)) (by rw [hpos]; omega),
        Ring.sample_mod, hpos, Nat.add_assoc]
      simp only [atCycle]
      rw [Ring.sample_load]

/-! ## Within a hop -/

section Hops

variable {σ : Type} [Widening σ α]

/-- Until a hop completes no cycle runs, so within a hop only the last sample's ratio
matters. -/
theorem run_retag (T : Transform α) (e : Engine α) (zs : List (PitchRatio × σ))
    (z : PitchRatio × σ) (h : e.ring.fill.val + zs.length < 256) :
    e.run T (zs ++ [z]) =
      ({ e with ratio := z.1 }).run T
        ((zs ++ [z]).map fun (w : PitchRatio × σ) => (z.1, w.2)) := by
  induction zs generalizing e with
  | nil =>
    obtain ⟨r, x⟩ := z
    simp only [List.nil_append, List.map_cons, List.map_nil, run_cons]
  | cons w zs ih =>
    obtain ⟨r, x⟩ := w
    have hlt : e.ring.fill.val + 1 < 256 := by simp at h; omega
    simp only [List.cons_append, List.map_cons, run_cons]
    rw [push_of_lt T { e with ratio := r } x hlt, push_of_lt T { e with ratio := z.1 } x hlt]
    simp only [bind, Except.bind]
    rw [ih _ (by simp only [Ring.put_of_lt _ hlt]; simp at h; omega)]

/-- Samples that fit in the current hop, whatever their ratios, are one `ingest`, followed by a
cycle at the last sample's ratio when they complete the hop. -/
theorem run_in_hop (T : Transform α) (e : Engine α) (zs : List (PitchRatio × σ))
    (z : PitchRatio × σ) (h : e.ring.fill.val + zs.length < 256) :
    e.run T (zs ++ [z]) = e.ring.ingest ((zs ++ [z]).map Prod.snd).toArray >>=
      fun (ring, out, done) => (if done then ({ e with ring, ratio := z.1 }).cycle T
        else .ok { e with ring, ratio := z.1 }).map (·, out.toList) := by
  rw [run_retag T e zs z h]
  have hc := run_chunk T { e with ratio := z.1 } ((zs ++ [z]).map Prod.snd) (by simp)
    (by simp; omega)
  simp only [List.map_map] at hc
  exact hc

omit [Scalar α] in
/-- While an empty hop fills, the ring hands back, sample by sample, the hop it holds. -/
theorem handed_back_hop {e : Engine α} (hf : e.ring.fill = 0) {m k : Nat} (h : m = k) :
    (Array.ofFn (n := m)
      fun i => (Widening.narrow (e.ring.sample (e.ring.cursor + i.val)) : σ)).toList =
      (List.range k).map fun i => (Widening.narrow (e.hop i) : σ) := by
  subst h
  have hcur : e.ring.cursor = e.ring.pos := by simp [Ring.cursor, hf]
  apply List.ext_getElem
  · simp only [Array.toList_ofFn, List.length_ofFn, List.length_map, List.length_range]
  · intro i h₁ h₂
    simp only [Array.toList_ofFn, List.getElem_ofFn, List.getElem_map, List.getElem_range, hop,
      hcur]

/-- A replayed engine given the next 256 samples of the stream runs the next cycle of the
schedule at the last sample's ratio, and hands back the hop it holds. -/
theorem run_full_hop (T : Transform α) {x : Nat → α} {n : Nat} {e : Engine α}
    (hf : e.ring.fill = 0)
    (hold : ∀ j (hj : j < 768),
      e.ring.sample (e.ring.pos + 256 + j) = (frameAt x n).get ⟨256 + j, by omega⟩)
    (zs : List (PitchRatio × σ)) (z : PitchRatio × σ) (hlen : zs.length = 255)
    (hx : ∀ i (hi : i < (zs ++ [z]).length), Widening.widen (zs ++ [z])[i].2 = x (256 * n + i)) :
    e.run T (zs ++ [z]) = (cycle T (e.atCycle x n z.1)).map
      (·, (List.range 256).map fun i => Widening.narrow (e.hop i)) := by
  have hsize : ((zs ++ [z]).map Prod.snd).toArray.size = 256 := by simp [hlen]
  rw [run_in_hop T e zs z (by simp [hf, hlen])]
  obtain ⟨r', out, hi, hs, rfl, hslot⟩ :=
    Ring.ingest_spec e.ring ((zs ++ [z]).map Prod.snd).toArray (by simp [hf, hlen])
  rw [hi]
  simp only [hsize, hf, Fin.val_zero] at hslot
  rw [if_neg (by omega)] at hslot
  have hcur : e.ring.cursor = e.ring.pos := by simp [Ring.cursor, hf]
  have hs₄ := e.ring.slot.isLt
  have hr : r' = Ring.load (e.ring.slot + 1) (frameAt x (n + 1)) := by
    rw [← hslot.1]
    refine Ring.eq_load (Fin.ext hslot.2) fun j hj => ?_
    have hpos : r'.pos = 256 * ((e.ring.slot.val + 1) % 4) := by
      simp [Ring.pos, hslot.1, Fin.val_add]
    rw [← Ring.sample_mod, hs _ (Nat.mod_lt _ (by decide)), hcur, hpos]
    by_cases hj' : 768 ≤ j
    · -- a sample of the hop just completed
      have hk : (256 * ((e.ring.slot.val + 1) % 4) + j) % 1024 = e.ring.pos + (j - 768) := by
        simp only [Ring.pos]; omega
      rw [hk, if_pos (by omega), Nat.add_sub_cancel_left, getElem?_pos _ _ (by simp; omega)]
      simp only [Option.map_some, Option.getD_some, List.getElem_toArray, List.getElem_map]
      rw [hx _ (by simp; omega), frameAt_succ_high x n j hj' hj]
    · -- an older sample, kept from the frame before
      have hk : (256 * ((e.ring.slot.val + 1) % 4) + j) % 1024 = (e.ring.pos + 256 + j) % 1024 := by
        simp only [Ring.pos]; omega
      have hkeep : (if e.ring.pos ≤ (e.ring.pos + 256 + j) % 1024 then
          (((zs ++ [z]).map Prod.snd).toArray[(e.ring.pos + 256 + j) % 1024 - e.ring.pos]?.map
            Widening.widen).getD (e.ring.sample ((e.ring.pos + 256 + j) % 1024))
          else e.ring.sample ((e.ring.pos + 256 + j) % 1024)) =
          e.ring.sample ((e.ring.pos + 256 + j) % 1024) := by
        split
        · rw [getElem?_neg _ _ (by simp only [Ring.pos] at *; simp; omega)]; rfl
        · rfl
      rw [hk, hkeep, Ring.sample_mod, hold j (by omega), frameAt_succ_low x n j (by omega)]
  subst hr
  simp only [bind, Except.bind, hf, hsize, Fin.val_zero, Nat.zero_add, decide_true, if_true,
    handed_back_hop hf hsize]
  simp only [atCycle, Ring.nextSlot]

/-- Fewer than 256 samples into an engine whose hop is empty run no cycle: they fill the hop
that far, and hand back the start of the hop the engine holds. -/
theorem run_part_hop (T : Transform α) {e : Engine α} (hf : e.ring.fill = 0)
    (ws : List (PitchRatio × σ)) (hw : ws.length < 256) :
    ∃ e', e.run T ws =
        .ok (e', (List.range ws.length).map fun i => (Widening.narrow (e.hop i) : σ)) ∧
      e'.ring.fill.val = ws.length ∧ e'.ring.slot = e.ring.slot ∧
      e'.lastPhase = e.lastPhase ∧ e'.sumPhase = e.sumPhase ∧ e'.accum = e.accum := by
  rcases List.eq_nil_or_concat ws with rfl | ⟨zs, z, rfl⟩
  · exact ⟨e, rfl, by simp [hf], rfl, rfl, rfl, rfl⟩
  · simp only [List.concat_eq_append] at hw ⊢
    have hlen : zs.length + 1 < 256 := by simpa using hw
    have hsize : ((zs ++ [z]).map Prod.snd).toArray.size = zs.length + 1 := by simp
    rw [run_in_hop T e zs z (by simp [hf]; omega)]
    obtain ⟨r', out, hi, -, rfl, hslot⟩ :=
      Ring.ingest_spec e.ring ((zs ++ [z]).map Prod.snd).toArray (by simp [hf]; omega)
    rw [hi]
    simp only [hsize, hf, Fin.val_zero, Nat.zero_add] at hslot
    rw [if_pos hlen] at hslot
    refine ⟨{ e with ring := r', ratio := z.1 }, ?_, by simp [hslot.2], hslot.1, rfl, rfl, rfl⟩
    simp only [bind, Except.bind]
    rw [handed_back_hop hf
      (show ((zs ++ [z]).map Prod.snd).toArray.size = (zs ++ [z]).length by simp)]
    simp only [hf, hsize, Fin.val_zero, Nat.zero_add,
      decide_eq_false (show zs.length + 1 ≠ 256 by omega)]
    rfl

end Hops

/-! ## The schedule of a stream -/

section Stream

variable {σ : Type} [Widening σ α]

/-- The stream's samples as scalars; past its end, zero. -/
def inputAt (zs : List (PitchRatio × σ)) (t : Nat) : α :=
  (zs[t]?.map fun z => Widening.widen z.2).getD 0

/-- The ratio of cycle `n`: the one in force on sample `256 n - 1`, the last of hop `n`. -/
def ratioAt (zs : List (PitchRatio × σ)) (n : Nat) : PitchRatio :=
  (zs[256 * n - 1]?.map Prod.fst).getD PitchRatio.unity

/-- Hop by hop: the first `256 n` samples of a stream take a fresh engine through the first
`n` cycles of the schedule, and hand back their hops. -/
theorem run_hops (T : Transform α) (zs : List (PitchRatio × σ)) :
    ∀ n, 256 * n ≤ zs.length →
      fresh.run T (zs.take (256 * n)) =
        (replay T (inputAt zs) (ratioAt zs) n).map fun (e, out) => (e, out.map Widening.narrow)
  | 0, _ => rfl
  | n + 1, hn => by
    -- hop `n`: the 256 samples after the first `256 n`, the last of which sets the ratio
    obtain ⟨ws, z, hws⟩ : ∃ ws z, (zs.drop (256 * n)).take 256 = ws ++ [z] := by
      rcases List.eq_nil_or_concat ((zs.drop (256 * n)).take 256) with h | ⟨ws, z, h⟩
      · have := congrArg List.length h
        simp at this; omega
      · exact ⟨ws, z, by simpa using h⟩
    have hlen : ws.length = 255 := by
      have := congrArg List.length hws
      simp at this; omega
    have hx : ∀ i (hi : i < (ws ++ [z]).length),
        (Widening.widen (ws ++ [z])[i].2 : α) = inputAt zs (256 * n + i) := by
      intro i hi
      have hi' : 256 * n + i < zs.length := by simp at hi; omega
      simp only [← hws, List.getElem_take, List.getElem_drop]
      simp [inputAt, hi']
    have hρ : ratioAt zs (n + 1) = z.1 := by
      have h₁ := congrArg (·[255]?) hws
      simp only [List.getElem?_take, List.getElem?_drop] at h₁
      rw [List.getElem?_append_right (by omega), hlen] at h₁
      simp only [ratioAt, show 256 * (n + 1) - 1 = 256 * n + 255 by omega]
      simp_all
    rw [show 256 * (n + 1) = 256 * n + 256 by ring, List.take_add, hws, run_append,
      run_hops T zs n (by omega), replay_succ]
    rcases hr : replay T (inputAt zs) (ratioAt zs) n with f | ⟨e, out⟩
    · rfl
    · obtain ⟨hf, -, -, hold⟩ := replay_ring hr
      simp only [Except.map, bind, Except.bind]
      rw [run_full_hop T hf hold ws z hlen hx, hρ]
      rcases cycle T (e.atCycle (inputAt zs) n z.1) with f | e'
      · rfl
      · simp only [List.map_append, List.map_map, Function.comp_def, Except.map]

/-- The engine keeps the schedule on every stream from a fresh engine. After `T` samples the
current hop holds `T % 256` of them and the slot has moved on once per hop from slot 3; the
analysis and synthesis state is that of the first `T / 256` cycles of the schedule, and the
samples handed back are their hops followed by the start of the next, narrowed. A fault is
the first fault of one of those cycles. -/
theorem run_schedule (T : Transform α) (zs : List (PitchRatio × σ)) :
    (fresh.run T zs).map (fun (e, ys) =>
        (e.ring.fill.val, e.ring.slot.val, e.lastPhase, e.sumPhase, e.accum, ys)) =
      (replay T (inputAt zs) (ratioAt zs) (zs.length / 256)).map fun (e, out) =>
        (zs.length % 256, (zs.length / 256 + 3) % 4, e.lastPhase, e.sumPhase, e.accum,
          (out ++ (List.range (zs.length % 256)).map e.hop).map Widening.narrow) := by
  have hsplit : fresh.run T zs = fresh.run T
      (zs.take (256 * (zs.length / 256)) ++ zs.drop (256 * (zs.length / 256))) := by
    rw [List.take_append_drop]
  rw [hsplit, run_append, run_hops T zs _ (Nat.mul_div_le _ _)]
  rcases hr : replay T (inputAt zs) (ratioAt zs) (zs.length / 256) with f | ⟨e, out⟩
  · rfl
  · obtain ⟨hf, hslot, -, -⟩ := replay_ring hr
    have hrest : (zs.drop (256 * (zs.length / 256))).length = zs.length % 256 := by
      simp only [List.length_drop]; omega
    obtain ⟨e', hrun, hfill, hsl, h₁, h₂, h₃⟩ :=
      run_part_hop T hf (zs.drop (256 * (zs.length / 256))) (by omega)
    simp only [Except.map, bind, Except.bind]
    rw [hrun]
    simp only [hfill, hrest, hsl, hslot, h₁, h₂, h₃, List.map_append, List.map_map,
      Function.comp_def]

/-- Sample `t` handed back in the replayed hops is entry `t % 256` of the hop published by
cycle `t / 256`. -/
theorem replay_out {T : Transform α} {x : Nat → α} {ρ : Nat → PitchRatio} :
    ∀ {n : Nat} {e : Engine α} {out : List α}, replay T x ρ n = .ok (e, out) →
      ∀ t (ht : t < out.length), ∃ e' out', replay T x ρ (t / 256) = .ok (e', out') ∧
        out[t] = e'.hop (t % 256)
  | 0, _, _, h, t, ht => by cases h; simp at ht
  | n + 1, e, out, h, t, ht => by
    rw [replay_succ] at h
    obtain ⟨⟨e₀, out₀⟩, h₀, h⟩ := bind_eq_ok.1 h
    obtain ⟨e₁, -, he⟩ := map_eq_ok.1 h
    cases he
    have hl₀ := (replay_ring h₀).2.2.1
    by_cases hlt : t < out₀.length
    · obtain ⟨e', out', hr, hv⟩ := replay_out h₀ t hlt
      exact ⟨e', out', hr, by rw [List.getElem_append_left hlt, hv]⟩
    · -- the hop of cycle `n`, handed back by hop `n`
      have hq : t / 256 = n := by simp at ht; omega
      refine ⟨e₀, out₀, by rw [hq]; exact h₀, ?_⟩
      rw [List.getElem_append_right (by omega)]
      simp only [List.getElem_map, List.getElem_range, hl₀]
      congr 1
      omega

end Stream

end Engine

/-! ## Resets -/

theorem Ring.reset_eq_fresh {α : Type} [Scalar α] (r : Ring α) : r.reset = Ring.fresh := rfl

theorem Engine.reset_eq_fresh {α : Type} [Scalar α] (e : Engine α) : e.reset = Engine.fresh := by
  simp only [Engine.reset, Ring.reset_eq_fresh]
  rfl

/-! ## Calls from a fresh effect -/

namespace Shifter

variable {σ α : Type} [SampleArith σ] [Scalar α] [Widening σ α]

omit [Widening σ α] in
theorem reset_eq_fresh (s : Shifter σ α) : s.reset = fresh := by
  simp only [reset, Engine.reset_eq_fresh]
  rfl

/-- A reset, or a new device, brings any state back to the fresh one, part by part: the ring
silent at slot 3 with nothing filled, the analysis and synthesis phases and the accumulator
cleared, unity pitch, a silent output buffer and zero gains. A second reset changes nothing,
and every later sequence of calls gives what it gives on a fresh effect. -/
theorem reset_restores_fresh (T : Transform α) (s : Shifter σ α) :
    s.reset = fresh ∧ s.deviceUpdate = fresh ∧ s.reset.reset = s.reset ∧
      ∀ cs : List (Call σ), s.reset.runCalls T cs = fresh.runCalls T cs := by
  have h := reset_eq_fresh s
  refine ⟨h, h, ?_, fun cs => by rw [h]⟩
  rw [reset_eq_fresh, h]

/-- Calls from a fresh or reset effect run the stream they hand over through a fresh engine,
at unity pitch until the first retuning. -/
theorem runCalls_eq_fresh_run (T : Transform α) {s : Shifter σ α} {cs : List (Call σ)}
    (hs : s.engine = Engine.fresh) (hw : ∀ c ∈ cs, c.WellFormed) :
    (s.runCalls T cs).map (fun (s', ys) => (s'.engine, ys)) =
      (Engine.fresh.run T (Call.stream PitchRatio.unity cs)).map fun (p : Engine α × List σ) =>
        ({ p.1 with ratio := Call.finalRatio PitchRatio.unity cs }, p.2) := by
  rw [runCalls_eq_run T s cs hw, hs]
  rfl

/-- The schedule of a sequence of calls from a fresh or reset effect, `T` samples in all:
the current hop holds `T % 256` samples, its slot starts at `(768 + 256 ⌊T / 256⌋) % 1024`,
the analysis and synthesis state is that of the first `⌊T / 256⌋` cycles, and the mono output
is their hops followed by the start of the next, narrowed. -/
theorem runCalls_schedule (T : Transform α) {s : Shifter σ α} {cs : List (Call σ)}
    (hs : s.engine = Engine.fresh) (hw : ∀ c ∈ cs, c.WellFormed) :
    (s.runCalls T cs).map (fun (s', ys) => (s'.engine.ring.fill.val, s'.engine.ring.pos,
        s'.engine.lastPhase, s'.engine.sumPhase, s'.engine.accum, ys)) =
      (Engine.replay T (Engine.inputAt (Call.stream PitchRatio.unity cs))
        (Engine.ratioAt (Call.stream PitchRatio.unity cs))
        ((Call.stream PitchRatio.unity cs).length / 256)).map fun (e, out) =>
        ((Call.stream PitchRatio.unity cs).length % 256,
          (768 + 256 * ((Call.stream PitchRatio.unity cs).length / 256)) % 1024,
          e.lastPhase, e.sumPhase, e.accum,
          (out ++ (List.range ((Call.stream PitchRatio.unity cs).length % 256)).map e.hop).map
            Widening.narrow) := by
  have hb := runCalls_eq_fresh_run T hs hw
  have hsch := Engine.run_schedule T (Call.stream PitchRatio.unity cs)
  rcases hx : s.runCalls T cs with f | ⟨s', ys⟩ <;> rw [hx] at hb
  · rw [map_eq_error.1 hb.symm] at hsch
    rw [map_eq_error.1 hsch.symm]
    rfl
  · obtain ⟨⟨e, ys'⟩, hrun, he⟩ := map_eq_ok.1 hb.symm
    simp only [Prod.mk.injEq] at he
    obtain ⟨he, rfl⟩ := he
    rw [hrun] at hsch
    obtain ⟨⟨e₀, out⟩, hrep, hv⟩ := map_eq_ok.1 hsch.symm
    rw [hrep]
    simp only [Prod.mk.injEq] at hv
    obtain ⟨h₁, h₂, h₃, h₄, h₅, h₆⟩ := hv
    simp only [Except.map, ← he, Ring.pos, ← h₁, ← h₂, ← h₃, ← h₄, ← h₅, ← h₆]
    congr 3
    omega

/-- Output sample `t` of a sequence of calls from a fresh or reset effect is entry `t % 256` of
the hop published by cycle `⌊t / 256⌋`, narrowed; before the first cycle, the fresh ring's
zeros. -/
theorem runCalls_output (T : Transform α) {s : Shifter σ α} {cs : List (Call σ)}
    (hs : s.engine = Engine.fresh) (hw : ∀ c ∈ cs, c.WellFormed) {s' : Shifter σ α}
    {ys : List σ} (h : s.runCalls T cs = .ok (s', ys)) (t : Nat) (ht : t < ys.length) :
    (∃ e out, Engine.replay T (Engine.inputAt (Call.stream PitchRatio.unity cs))
        (Engine.ratioAt (Call.stream PitchRatio.unity cs)) (t / 256) = .ok (e, out) ∧
      ys[t] = Widening.narrow (e.hop (t % 256))) ∧
    (t < 256 → ys[t] = Widening.narrow (0 : α)) := by
  have hsch := runCalls_schedule T hs hw
  rw [h] at hsch
  obtain ⟨⟨e, out⟩, hrep, hv⟩ := map_eq_ok.1 hsch.symm
  simp only [Prod.mk.injEq] at hv
  obtain ⟨-, -, -, -, -, rfl⟩ := hv
  have hl := (Engine.replay_ring hrep).2.2.1
  have ht' : t < (out ++ (List.range ((Call.stream PitchRatio.unity cs).length % 256)).map
      e.hop).length := by simpa using ht
  have hout : ∃ e' out', Engine.replay T (Engine.inputAt (Call.stream PitchRatio.unity cs))
        (Engine.ratioAt (Call.stream PitchRatio.unity cs)) (t / 256) = .ok (e', out') ∧
      (out ++ (List.range ((Call.stream PitchRatio.unity cs).length % 256)).map e.hop)[t] =
        e'.hop (t % 256) := by
    by_cases hlt : t < out.length
    · obtain ⟨e', out', hr, hv⟩ := Engine.replay_out hrep t hlt
      exact ⟨e', out', hr, by rw [List.getElem_append_left hlt, hv]⟩
    · -- the start of the hop of the last cycle
      have hq : t / 256 = (Call.stream PitchRatio.unity cs).length / 256 := by simp at ht; omega
      refine ⟨e, out, by rw [hq]; exact hrep, ?_⟩
      rw [List.getElem_append_right (by omega)]
      simp only [List.getElem_map, List.getElem_range, hl]
      congr 1
      omega
  obtain ⟨e', out', hr, hv⟩ := hout
  refine ⟨⟨e', out', hr, by rw [List.getElem_map, hv]⟩, fun h₂₅₆ => ?_⟩
  rw [Nat.div_eq_of_lt h₂₅₆] at hr
  cases hr
  rw [List.getElem_map, hv, Engine.hop_fresh]

/-- No input sample reaches the output before the next hop boundary after it, and a ratio
takes effect from the hop of the next cycle: two sequences of calls from fresh or reset effects
whose streams agree on the first `256 k` samples, with the same ratios at cycles `1` to `k`,
give the same output up to sample `256 (k + 1)`. -/
theorem runCalls_causal (T : Transform α) {s₁ s₂ : Shifter σ α} {cs₁ cs₂ : List (Call σ)}
    (hs₁ : s₁.engine = Engine.fresh) (hs₂ : s₂.engine = Engine.fresh)
    (hw₁ : ∀ c ∈ cs₁, c.WellFormed) (hw₂ : ∀ c ∈ cs₂, c.WellFormed) (k : Nat)
    (hx : ∀ t < 256 * k, (Call.stream PitchRatio.unity cs₁)[t]?.map Prod.snd =
      (Call.stream PitchRatio.unity cs₂)[t]?.map Prod.snd)
    (hρ : ∀ n, 1 ≤ n → n ≤ k → Engine.ratioAt (Call.stream PitchRatio.unity cs₁) n =
      Engine.ratioAt (Call.stream PitchRatio.unity cs₂) n)
    {r₁ r₂ : Shifter σ α} {ys₁ ys₂ : List σ}
    (h₁ : s₁.runCalls T cs₁ = .ok (r₁, ys₁)) (h₂ : s₂.runCalls T cs₂ = .ok (r₂, ys₂))
    (t : Nat) (ht₁ : t < ys₁.length) (ht₂ : t < ys₂.length) (ht : t < 256 * (k + 1)) :
    ys₁[t] = ys₂[t] := by
  obtain ⟨⟨e₁, o₁, hr₁, hv₁⟩, -⟩ := runCalls_output T hs₁ hw₁ h₁ t ht₁
  obtain ⟨⟨e₂, o₂, hr₂, hv₂⟩, -⟩ := runCalls_output T hs₂ hw₂ h₂ t ht₂
  -- both come from cycle `t / 256 ≤ k`, which reads only what the two streams agree on
  have hin : ∀ u < 256 * (t / 256), Engine.inputAt (α := α) (Call.stream PitchRatio.unity cs₁) u =
      Engine.inputAt (Call.stream PitchRatio.unity cs₂) u := by
    intro u hu
    have h := congrArg (fun o => (o.map Widening.widen).getD (0 : α)) (hx u (by omega))
    simpa [Engine.inputAt, Option.map_map, Function.comp_def] using h
  have hrep := Engine.replay_congr T (t / 256) hin fun n h₁ h₂ => hρ n h₁ (by omega)
  rw [hr₁, hr₂] at hrep
  cases hrep
  rw [hv₁, hv₂]

/-- The hop schedule of the effect on any sequence of calls from a fresh or reset state: the
ring law, the cycles run so far, each output sample's source, the silent first hop, and
causality. -/
theorem hop_schedule (T : Transform α) (s : Shifter σ α) (cs : List (Call σ))
    (hs : s.engine = Engine.fresh) (hw : ∀ c ∈ cs, c.WellFormed) :
    let zs := Call.stream PitchRatio.unity cs
    let replayed := Engine.replay T (Engine.inputAt zs) (Engine.ratioAt zs)
    (s.runCalls T cs).map (fun (s', ys) => (s'.engine.ring.fill.val, s'.engine.ring.pos,
        s'.engine.lastPhase, s'.engine.sumPhase, s'.engine.accum, ys)) =
      (replayed (zs.length / 256)).map (fun (e, out) =>
        (zs.length % 256, (768 + 256 * (zs.length / 256)) % 1024, e.lastPhase, e.sumPhase,
          e.accum, (out ++ (List.range (zs.length % 256)).map e.hop).map Widening.narrow)) ∧
    (∀ s' ys, s.runCalls T cs = .ok (s', ys) → ∀ t (ht : t < ys.length),
      (∃ e out, replayed (t / 256) = .ok (e, out) ∧ ys[t] = Widening.narrow (e.hop (t % 256))) ∧
      (t < 256 → ys[t] = Widening.narrow (0 : α))) ∧
    (∀ (s₂ : Shifter σ α) (cs₂ : List (Call σ)), s₂.engine = Engine.fresh →
      (∀ c ∈ cs₂, c.WellFormed) → ∀ k,
      (∀ t < 256 * k, zs[t]?.map Prod.snd = (Call.stream PitchRatio.unity cs₂)[t]?.map Prod.snd) →
      (∀ n, 1 ≤ n → n ≤ k →
        Engine.ratioAt zs n = Engine.ratioAt (Call.stream PitchRatio.unity cs₂) n) →
      ∀ r₁ ys₁ r₂ ys₂, s.runCalls T cs = .ok (r₁, ys₁) → s₂.runCalls T cs₂ = .ok (r₂, ys₂) →
      ∀ t (ht₁ : t < ys₁.length) (ht₂ : t < ys₂.length), t < 256 * (k + 1) → ys₁[t] = ys₂[t]) := by
  intro zs replayed
  exact ⟨runCalls_schedule T hs hw, fun s' ys h t ht => runCalls_output T hs hw h t ht,
    fun s₂ cs₂ hs₂ hw₂ k hx hρ r₁ ys₁ r₂ ys₂ h₁ h₂ t ht₁ ht₂ ht =>
      runCalls_causal T hs hs₂ hw hw₂ k hx hρ h₁ h₂ t ht₁ ht₂ ht⟩

/-- 300 samples into a fresh effect run one cycle. The run succeeds exactly when that cycle
of the schedule does, and then the hop holds 44 samples, the ring position has moved on one
hop, and 300 samples come out. -/
theorem hop_schedule_one_cycle :
    ((fresh : Shifter Float32 Float).runCalls Transform.radix2 [.mono (Array.replicate 300 1)]).map
        (fun (s', ys) => (s'.engine.ring.fill.val, s'.engine.ring.pos, ys.length)) =
      (Engine.replay Transform.radix2
        (Engine.inputAt (Call.stream PitchRatio.unity [.mono (Array.replicate 300 (1 : Float32))]))
        (Engine.ratioAt (Call.stream PitchRatio.unity [.mono (Array.replicate 300 (1 : Float32))]))
        1).map fun _ => (44, 0, 300) := by
  have hlen : (Call.stream PitchRatio.unity [.mono (Array.replicate 300 (1 : Float32))]).length =
      300 := by
    rw [Call.length_stream_mono, Array.size_replicate]
  have h := (hop_schedule Transform.radix2 (fresh : Shifter Float32 Float)
    [.mono (Array.replicate 300 1)] rfl (by simp [Call.WellFormed])).1
  simp only [hlen] at h
  rcases hr : Engine.replay Transform.radix2
      (Engine.inputAt (Call.stream PitchRatio.unity [.mono (Array.replicate 300 (1 : Float32))]))
      (Engine.ratioAt (Call.stream PitchRatio.unity [.mono (Array.replicate 300 (1 : Float32))]))
      1 with f | ⟨e, out⟩ <;> rw [hr] at h
  · -- the cycle faults, and the run with it
    rcases hx : (fresh : Shifter Float32 Float).runCalls Transform.radix2
      [.mono (Array.replicate 300 1)] with f' | ⟨s', ys⟩ <;> rw [hx] at h <;> cases h
    rfl
  · -- the cycle succeeds: one hop handed back and 44 samples of the next
    have hout := (Engine.replay_ring hr).2.2.1
    rcases hx : (fresh : Shifter Float32 Float).runCalls Transform.radix2
      [.mono (Array.replicate 300 1)] with f' | ⟨s', ys⟩ <;> rw [hx] at h
    · cases h
    · simp only [Except.map, Except.ok.injEq, Prod.mk.injEq] at h ⊢
      obtain ⟨hfill, hpos, -, -, -, hys⟩ := h
      refine ⟨hfill, hpos, ?_⟩
      rw [hys, List.length_map, List.length_append, List.length_map, List.length_range, hout]

end Shifter

end PhaseVocoder
