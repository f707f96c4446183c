import PhaseVocoder.Proofs.Basic
import PhaseVocoder.Proofs.Mixing
import PhaseVocoder.Proofs.Ring
import PhaseVocoder.Shifter.Effect

/-!
# The engine as a stream of samples (effect/pshifter.rs:139-169, 224-246)

`Engine.feed` cuts its input into pieces that fit the current hop and ingests each piece
whole. Its meaning is simpler: samples go through the engine one at a time (`push`), each
written at the ring's cursor, handing back the entry it replaces, and running a cycle when it
completes a hop. `run` pushes a list of samples, each tagged with the pitch ratio in force
when it arrives.

`feed_eq_run` shows the two agree, whatever the block. From it, every way the effect takes
input (`processMono` on any buffer, `process` on a line) is a `run` of its samples, and so
is any sequence of such calls with retunings between them (`runCalls_eq_run`): the engine
sees only the tagged stream. Two sequences of calls that hand over the same stream, with the
same ratio at every sample, leave the same engine and give the same output
(`runCalls_eq_of_same_stream`).

What `process` does to the output lines is the mixer's part: the block the engine gave back is
mixed in at position 0 with a ramp of `max k 512` samples (`Shifter.process_mix`), so no sample
from `min n 1024` on changes (`Shifter.process_frame`) and a call of 512 samples or more ends
every ramp (`Shifter.process_settles`).
-/

namespace PhaseVocoder

namespace Engine

variable {α : Type} [Scalar α] {σ : Type} [Widening σ α]

/-- One sample through the engine: it is written at the ring's cursor, the entry it replaces
comes out narrowed, and a completed hop runs a cycle. -/
def push (T : Transform α) (e : Engine α) (x : σ) : Except Fault (Engine α × σ) :=
  let y := Widening.narrow (e.ring.sample e.ring.cursor)
  let e' := { e with ring := e.ring.put (Widening.widen x) }
  if e.ring.fill.val = 255 then (e'.cycle T).map (·, y) else .ok (e', y)

/-- Samples through the engine one at a time, each with the ratio in force when it
arrives. -/
def run (T : Transform α) : Engine α → List (PitchRatio × σ) → Except Fault (Engine α × List σ)
  | e, [] => .ok (e, [])
  | e, (r, x) :: zs => do
    let (e', y) ← ({ e with ratio := r }).push T x
    let (e'', ys) ← run T e' zs
    pure (e'', y :: ys)

/-- What a cycle leaves of the engine: the ratio, the slot and fill of the ring, and every
ring entry outside the current hop slot, which receives the published hop. -/
theorem cycle_frame {T : Transform α} {e e' : Engine α} (h : e.cycle T = .ok e') :
    e'.ratio = e.ratio ∧ e'.ring.slot = e.ring.slot ∧ e'.ring.fill = e.ring.fill ∧
      ∀ i < 1024, (i < e.ring.pos ∨ e.ring.pos + 256 ≤ i) → e'.ring.sample i = e.ring.sample i := by
  unfold cycle at h
  obtain ⟨⟨last, bins⟩, -, h⟩ := bind_eq_ok.1 h
  obtain ⟨⟨sum, full⟩, -, h⟩ := bind_eq_ok.1 h
  obtain ⟨ring, hs, h⟩ := bind_eq_ok.1 h
  cases h
  unfold Ring.storeHop at hs
  rw [dif_pos (by simp)] at hs
  obtain rfl := (Except.ok.inj hs).symm
  refine ⟨rfl, rfl, rfl, fun i hi hout => ?_⟩
  simp only [Ring.sample, Vector.get_ofFn, Nat.mod_eq_of_lt hi]
  rw [dif_neg (by omega)]

theorem run_cons (T : Transform α) (e : Engine α) (r : PitchRatio) (x : σ)
    (zs : List (PitchRatio × σ)) :
    e.run T ((r, x) :: zs) = ({ e with ratio := r }).push T x >>= fun (e', y) =>
      (e'.run T zs).map fun (e'', ys) => (e'', y :: ys) := by
  simp only [run, bind, Except.bind, pure, Except.pure]
  cases ({ e with ratio := r }).push T x with
  | error f => rfl
  | ok p => cases run T p.1 zs <;> rfl

theorem push_of_lt (T : Transform α) (e : Engine α) (x : σ) (h : e.ring.fill.val + 1 < 256) :
    e.push T x = .ok ({ e with ring := e.ring.put (Widening.widen x) },
      Widening.narrow (e.ring.sample e.ring.cursor)) := by
  simp [push, show e.ring.fill.val ≠ 255 by omega]

/-- A block that fits in the current hop, sample by sample, is one `ingest` followed by the
cycle of the hop it completes, if it completes one. -/
theorem run_chunk (T : Transform α) (e : Engine α) (c : List σ) (hne : c ≠ [])
    (h : e.ring.fill.val + c.length ≤ 256) :
    e.run T (c.map (e.ratio, ·)) = e.ring.ingest c.toArray >>= fun (ring, out, done) =>
      (if done then ({ e with ring }).cycle T else .ok { e with ring }).map (·, out.toList) := by
  induction c generalizing e with
  | nil => contradiction
  | cons x xs ih =>
    rcases xs with _ | ⟨x', xs⟩
    · rw [Ring.ingest_singleton]
      simp only [List.map_cons, List.map_nil, run_cons, run]
      by_cases hf : e.ring.fill.val = 255
      · simp only [push, hf, if_true, decide_true, bind, Except.bind]
        rcases cycle T { e with ring := e.ring.put (Widening.widen x) } with f | e' <;> rfl
      · simp only [push, hf, if_false, decide_eq_false (show e.ring.fill.val + 1 ≠ 256 by omega)]
        rfl
    · have hlt : e.ring.fill.val + 1 < 256 := by simp at h; omega
      have hput := Ring.put_of_lt (Widening.widen x) hlt
      rw [Ring.ingest_cons _ _ _ (by simp) (by simpa using h)]
      rw [List.map_cons, run_cons, push_of_lt T e x hlt]
      have ih' := ih { e with ring := e.ring.put (Widening.widen x) } (by simp)
        (by simp only [hput.2]; simp at h ⊢; omega)
      simp only [bind, Except.bind]
      rw [ih']
      cases (e.ring.put (Widening.widen x)).ingest (x' :: xs).toArray with
      | error f => rfl
      | ok res =>
        obtain ⟨ring, out, done⟩ := res
        simp only [Except.map, bind, Except.bind]
        rcases (if done = true then ({ e with ring } : Engine α).cycle T else .ok { e with ring })
          with f | e' <;> simp

theorem run_append (T : Transform α) (e : Engine α) (zs zs' : List (PitchRatio × σ)) :
    e.run T (zs ++ zs') = e.run T zs >>= fun (e', ys) =>
      (e'.run T zs').map fun (e'', ys') => (e'', ys ++ ys') := by
  induction zs generalizing e with
  | nil =>
    simp only [List.nil_append, run, bind, Except.bind]
    rcases e.run T zs' with f | ⟨e₁, ys⟩ <;> rfl
  | cons z zs ih =>
    obtain ⟨r, x⟩ := z
    rw [List.cons_append, run_cons, run_cons]
    generalize Engine.push T { e with ratio := r } x = p
    rcases p with f | ⟨e₁, y⟩
    · rfl
    · simp only [bind, Except.bind, ih]
      generalize e₁.run T zs = q
      rcases q with f | ⟨e₂, ys⟩
      · rfl
      · simp only [Except.map]
        generalize e₂.run T zs' = q
        rcases q with f | ⟨e₃, ys₂⟩ <;> rfl

/-- Feeding a block, one hop's room at a time, is running its samples one by one. -/
theorem feed_eq_run (T : Transform α) (e : Engine α) (out : Array σ) (xs : List σ) :
    e.feed T out xs = (e.run T (xs.map (e.ratio, ·))).map fun (e', ys) => (e', out ++ ys.toArray) := by
  fun_induction feed T e out xs with
  | case1 e out => simp [run, Except.map]
  | case2 e out x xs n ih =>
    have hroom : 1 ≤ n ∧ e.ring.fill.val + n ≤ 256 ∧ n ≤ xs.length + 1 := by
      have := e.ring.fill.isLt
      simp only [n, Ring.room]; omega
    have hsplit : (x :: xs).map (e.ratio, ·) =
        ((x :: xs).take n).map (e.ratio, ·) ++ ((x :: xs).drop n).map (e.ratio, ·) := by
      rw [← List.map_append, List.take_append_drop]
    rw [hsplit, run_append, run_chunk T e _ (by simp; omega) (by simp; omega)]
    simp only [bind, Except.bind]
    rcases e.ring.ingest ((x :: xs).take n).toArray with f | ⟨ring, chunkOut, done⟩
    · rfl
    · have key : ∀ e'' : Engine α, e''.ratio = e.ratio →
          feed T e'' (out ++ chunkOut) ((x :: xs).drop n) =
            ((e''.run T (((x :: xs).drop n).map (e.ratio, ·))).map fun (e₁, ys) =>
              (e₁, chunkOut.toList ++ ys)).map fun (e', ys) => (e', out ++ ys.toArray) := by
        intro e'' hr
        rw [ih chunkOut e'', hr]
        rcases e''.run T (((x :: xs).drop n).map (e.ratio, ·)) with f | ⟨e₁, ys⟩
        · rfl
        · simp only [Except.map, Array.append_assoc, ← List.append_toArray, Array.toArray_toList]
      cases done
      · exact key _ rfl
      · simp only [if_true]
        rcases hc : cycle T { e with ring } with f | e''
        · rfl
        · exact key e'' (cycle_frame hc).1


theorem push_ratio {T : Transform α} {e e' : Engine α} {x y : σ} (h : e.push T x = .ok (e', y)) :
    e'.ratio = e.ratio := by
  unfold push at h
  split at h
  · obtain ⟨e₁, hc, he⟩ := map_eq_ok.1 h
    cases he
    exact (cycle_frame hc).1
  · cases h; rfl

theorem run_ratio {T : Transform α} {e e' : Engine α} {zs : List (PitchRatio × σ)} {ys : List σ}
    (h : e.run T zs = .ok (e', ys)) (hz : ∀ z ∈ zs, z.1 = e.ratio) : e'.ratio = e.ratio := by
  induction zs generalizing e ys with
  | nil => cases h; rfl
  | cons z zs ih =>
    obtain ⟨r, x⟩ := z
    obtain rfl : r = e.ratio := hz _ List.mem_cons_self
    rw [run_cons] at h
    obtain ⟨⟨e₁, y⟩, h₁, h⟩ := bind_eq_ok.1 h
    obtain ⟨⟨e₂, ys₂⟩, h₂, -⟩ := map_eq_ok.1 h
    have he₁ : e₁.ratio = e.ratio := push_ratio h₁
    obtain rfl : e₂ = e' := by cases map_eq_ok.1 h; simp_all
    rw [← he₁]
    exact ih h₂ fun z hz' => (hz z (List.mem_cons_of_mem _ hz')).trans he₁.symm

theorem run_map_ratio {T : Transform α} {e e' : Engine α} {xs : List σ} {ys : List σ}
    (h : e.run T (xs.map (e.ratio, ·)) = .ok (e', ys)) : e'.ratio = e.ratio :=
  run_ratio h fun _ hz => by obtain ⟨x, -, rfl⟩ := List.mem_map.1 hz; rfl

theorem run_length {T : Transform α} {e e' : Engine α} {zs : List (PitchRatio × σ)} {ys : List σ}
    (h : e.run T zs = .ok (e', ys)) : ys.length = zs.length := by
  induction zs generalizing e e' ys with
  | nil => cases h; rfl
  | cons z zs ih =>
    obtain ⟨r, x⟩ := z
    rw [run_cons] at h
    obtain ⟨⟨e₁, y⟩, -, h⟩ := bind_eq_ok.1 h
    obtain ⟨⟨e₂, ys₂⟩, h₂, he⟩ := map_eq_ok.1 h
    cases he
    simp [ih h₂]

/-- The ratio an engine starts a run with is overwritten by the first sample's, so it does not
matter once the final ratio is set. -/
theorem run_with_ratio (T : Transform α) (e : Engine α) (r q : PitchRatio)
    (zs : List (PitchRatio × σ)) :
    (({ e with ratio := r }).run T zs).map
        (fun (p : Engine α × List σ) => ({ p.1 with ratio := q }, p.2)) =
      (e.run T zs).map fun (p : Engine α × List σ) => ({ p.1 with ratio := q }, p.2) := by
  cases zs with
  | nil => rfl
  | cons z zs =>
    obtain ⟨r', x⟩ := z
    rw [run_cons, run_cons]

end Engine

/-! ## The effect's calls -/

namespace Shifter

variable {σ α : Type}

@[simp] theorem engine_withOut (s : Shifter σ α) (y : Array σ) :
    (s.withOut y).engine = s.engine := by
  simp only [withOut]

theorem out_withOut_take (s : Shifter σ α) (y : Array σ) (h : y.size ≤ 1024) :
    (s.withOut y).out.toList.take y.size = y.toList := by
  apply List.ext_getElem
  · simp; omega
  · intro i h₁ h₂
    have hi : i < y.size := by simpa using h₂
    simp [withOut, hi]

variable [Scalar α] [Widening σ α]

theorem shiftBlock_eq_run (T : Transform α) (s : Shifter σ α) (block : Array σ) :
    s.shiftBlock T block = (s.engine.run T (block.toList.map (s.engine.ratio, ·))).map
      fun (e, ys) => ({ s with engine := e }.withOut ys.toArray, ys.toArray) := by
  unfold shiftBlock Engine.shiftBlock
  rw [Engine.feed_eq_run]
  rcases s.engine.run T _ with f | ⟨e, ys⟩ <;> simp [Except.map, bind, Except.bind, pure, Except.pure]

theorem shiftChunks_eq_run (T : Transform α) (s : Shifter σ α) (acc : Array σ)
    (cs : List (Array σ)) :
    (s.shiftChunks T acc cs).map (fun (s', y) => (s'.engine, y.toList)) =
      (s.engine.run T ((cs.flatMap Array.toList).map (s.engine.ratio, ·))).map
        fun (e, ys) => (e, acc.toList ++ ys) := by
  induction cs generalizing s acc with
  | nil => simp [shiftChunks, Engine.run, Except.map]
  | cons c cs ih =>
    rw [List.flatMap_cons, List.map_append, Engine.run_append]
    rcases hr : s.engine.run T (c.toList.map (s.engine.ratio, ·)) with f | ⟨e₁, ys₁⟩
    · simp [shiftChunks, shiftBlock_eq_run, hr, Except.map, bind, Except.bind]
    · have h₁ : e₁.ratio = s.engine.ratio := Engine.run_map_ratio hr
      have hs : s.shiftChunks T acc (c :: cs) =
          shiftChunks T ({ s with engine := e₁ }.withOut ys₁.toArray) (acc ++ ys₁.toArray) cs := by
        simp only [shiftChunks, shiftBlock_eq_run, hr]; rfl
      rw [hs, ih]
      simp only [bind, Except.bind, engine_withOut, h₁]
      rcases Engine.run T e₁ _ with f | ⟨e₂, ys₂⟩ <;> simp [Except.map]

theorem flatMap_chunks1024 (input : Array σ) :
    (chunks1024 input).flatMap Array.toList = input.toList := by
  have key : ∀ m, ((List.range m).map fun i =>
      input.extract (1024 * i) (1024 * i + 1024)).flatMap Array.toList =
        (input.extract 0 (1024 * m)).toList := by
    intro m
    induction m with
    | zero => simp
    | succ m ih =>
      rw [List.range_succ, List.map_append, List.flatMap_append, ih]
      simp only [List.map_cons, List.map_nil, List.flatMap_cons, List.flatMap_nil, List.append_nil]
      rw [← Array.toList_append, Array.extract_append_extract]
      congr 2
      omega
  rw [chunks1024, key, Array.extract_eq_self_of_le (by omega)]

/-- `processMono` is a run of the whole buffer at the current ratio, whatever its length. -/
theorem processMono_eq_run (T : Transform α) (s : Shifter σ α) (input : Array σ) :
    (s.processMono T input).map (fun (s', y) => (s'.engine, y.toList)) =
      s.engine.run T (input.toList.map (s.engine.ratio, ·)) := by
  rw [processMono, shiftChunks_eq_run, flatMap_chunks1024]
  rcases s.engine.run T _ with f | ⟨e, ys⟩ <;> simp [Except.map]

variable [SampleArith σ]

/-- With lines of 1024 samples, as the effect receives them, `process` is a run of the first
`min n 1024` samples of its input line, and the output buffer starts with what the run gave
back: the mixing that follows cannot fault. -/
theorem process_eq_run (T : Transform α) (s : Shifter σ α) (n : Nat) (line : Array σ)
    (lines : Array (Array σ)) (hline : line.size = 1024) (hlines : ∀ l ∈ lines, l.size = 1024) :
    (s.process T n (some line) lines).map
        (fun (s', _) => (s'.engine, s'.out.toList.take (min n 1024))) =
      s.engine.run T ((line.extract 0 (min n 1024)).toList.map (s.engine.ratio, ·)) := by
  rcases hr : s.engine.run T ((line.extract 0 (min n 1024)).toList.map (s.engine.ratio, ·))
    with f | ⟨e, ys⟩
  · simp only [process, shiftBlock_eq_run, hr]
    rfl
  · have hlen : ys.length = min n 1024 := by
      have := Engine.run_length hr
      simp [hline] at this; omega
    let s₁ := { s with engine := e }.withOut ys.toArray
    obtain ⟨⟨ls, gs⟩, hm⟩ := Mix.mix_ok ys.toArray lines s₁.current s₁.target
      (max (min n 1024) 512) 0 (by simp; omega) (fun l hl => by simp [hlines l hl]; omega)
    have hout := out_withOut_take { s with engine := e } ys.toArray (by simp; omega)
    simp only [List.size_toArray, hlen] at hout
    simp only [process, shiftBlock_eq_run, hr]
    simp only [Except.map, bind, Except.bind]
    rw [hm]
    simp only [pure, Except.pure, engine_withOut, hout]

/-- A `process` call that succeeds has mixed the block the engine gave back, one sample for
each sample it took from the input line, into the lines at position 0, ramping over
`max k 512` samples for `k = min n 1024`; the targets are kept. -/
theorem process_mix {T : Transform α} {s s' : Shifter σ α} {n : Nat} {line : Array σ}
    {lines lines' : Array (Array σ)} (h : s.process T n (some line) lines = .ok (s', lines')) :
    ∃ y : Array σ, y.size = min (min n 1024) line.size ∧
      Mix.mix y lines s.current s.target (max (min n 1024) 512) 0 = .ok (lines', s'.current) ∧
      s'.target = s.target := by
  simp only [process, shiftBlock_eq_run] at h
  obtain ⟨⟨s₁, y⟩, hb, h⟩ := bind_eq_ok.1 h
  obtain ⟨⟨e, ys⟩, hrun, he⟩ := map_eq_ok.1 hb
  obtain ⟨⟨ls, gs⟩, hm, h⟩ := bind_eq_ok.1 h
  cases h
  simp only [Prod.mk.injEq] at he
  obtain ⟨rfl, rfl⟩ := he
  have hlen := Engine.run_length hrun
  simp only [List.length_map, Array.length_toList, Array.size_extract] at hlen
  exact ⟨ys.toArray, by simp [hlen], hm, rfl⟩

/-- `process` changes no sample of the lines at or after `min n 1024`: the block it mixes is at
most that long and starts at position 0. -/
theorem process_frame {T : Transform α} {s s' : Shifter σ α} {n : Nat} {line : Option (Array σ)}
    {lines lines' : Array (Array σ)} (hl : ∀ l ∈ lines, l.size = 1024)
    (h : s.process T n line lines = .ok (s', lines')) {j p : Nat} (hp : min n 1024 ≤ p) :
    (lines'.getD j #[]).getD p 0 = (lines.getD j #[]).getD p 0 := by
  cases line with
  | none => cases h; rfl
  | some x =>
    obtain ⟨y, hy, hm, -⟩ := process_mix h
    have hy' : y.size ≤ min n 1024 := by rw [hy]; omega
    rw [Mix.mix_eq y lines s.current s.target _ 0 (by omega)
      (fun l hl' => by rw [hl l hl']; omega)] at hm
    rw [← (Prod.mk.inj (Except.ok.inj hm)).1]
    exact Mix.mixedBefore_frame _ _ _ _ _ _ 16 (by omega)

/-- After a `process` call of at least 512 samples from a full input line, every line it mixed
has reached its target gain: the ramp is no longer than the block. -/
theorem process_settles {T : Transform α} {s s' : Shifter σ α} {n : Nat} {x : Array σ}
    {lines lines' : Array (Array σ)} (hl : ∀ l ∈ lines, l.size = 1024) (hx : x.size = 1024)
    (hn : 512 ≤ n) (h : s.process T n (some x) lines = .ok (s', lines')) (j : Fin 16)
    (hj : j.val < lines.size) : s'.current.get j = s'.target.get j := by
  obtain ⟨y, hy, hm, ht⟩ := process_mix h
  have hy' : y.size = min n 1024 := by rw [hy, hx]; omega
  rw [Mix.mix_eq y lines s.current s.target _ 0 (by omega)
    (fun l hl' => by rw [hl l hl']; omega)] at hm
  have hc : s'.current =
      (Mix.mixedBefore y lines s.current s.target (max (min n 1024) 512) 0 16).2 :=
    (Prod.mk.inj (Except.ok.inj hm)).2.symm
  rw [ht, hc, Mix.mixedBefore_gain, if_pos hj, Mix.mixLine_gain]
  rw [if_neg (by omega)]

end Shifter

/-! ## Sequences of calls -/

/-- A call that hands the effect input, or retunes it between two such calls: `mono` shifts
a whole buffer, `block n line lines` shifts the first `min n 1024` samples of `line` and mixes
them into `lines`. -/
inductive Call (σ : Type) where
  | mono (input : Array σ)
  | block (n : Nat) (line : Array σ) (lines : Array (Array σ))
  | tune (cents : Int)

namespace Call

variable {σ : Type}

/-- The samples a call hands over, each tagged with the ratio `r` in force. -/
def samples (r : PitchRatio) : Call σ → List (PitchRatio × σ)
  | mono input => input.toList.map (r, ·)
  | block n line _ => (line.extract 0 (min n 1024)).toList.map (r, ·)
  | tune _ => []

/-- The ratio in force after a call, `r` before it. -/
def ratioAfter (r : PitchRatio) : Call σ → PitchRatio
  | tune cents => PitchRatio.ofCents cents
  | _ => r

/-- The effect's lines hold 1024 samples each. -/
def WellFormed : Call σ → Prop
  | block _ line lines => line.size = 1024 ∧ ∀ l ∈ lines, l.size = 1024
  | _ => True

/-- The stream a sequence of calls hands over, starting at ratio `r`: every sample with the
ratio in force when it arrives. -/
def stream (r : PitchRatio) : List (Call σ) → List (PitchRatio × σ)
  | [] => []
  | c :: cs => c.samples r ++ stream (c.ratioAfter r) cs

/-- The ratio in force after a sequence of calls, `r` before it. -/
def finalRatio (r : PitchRatio) : List (Call σ) → PitchRatio
  | [] => r
  | c :: cs => finalRatio (c.ratioAfter r) cs

theorem stream_mono (r : PitchRatio) (xs : Array σ) :
    stream r [mono xs] = xs.toList.map (r, ·) := by
  simp only [stream, samples, List.append_nil]

theorem length_stream_mono (r : PitchRatio) (xs : Array σ) :
    (stream r [mono xs]).length = xs.size := by
  rw [stream_mono, List.length_map, Array.length_toList]

end Call

namespace Shifter

variable {σ α : Type} [SampleArith σ] [Scalar α] [Widening σ α]

/-- One call on the effect, with the mono output it gives: all of `processMono`'s, and the
first `min n 1024` samples of the output buffer after `process`. -/
def call (T : Transform α) (s : Shifter σ α) : Call σ → Except Fault (Shifter σ α × List σ)
  | .mono input => (s.processMono T input).map fun (s', y) => (s', y.toList)
  | .block n line lines =>
    (s.process T n (some line) lines).map fun (s', _) => (s', s'.out.toList.take (min n 1024))
  | .tune cents => .ok (s.setTuningCents cents, [])

/-- Calls in order, with their mono outputs concatenated. -/
def runCalls (T : Transform α) :
    Shifter σ α → List (Call σ) → Except Fault (Shifter σ α × List σ)
  | s, [] => .ok (s, [])
  | s, c :: cs => do
    let (s₁, y) ← s.call T c
    let (s₂, ys) ← runCalls T s₁ cs
    pure (s₂, y ++ ys)

theorem call_eq_run (T : Transform α) (s : Shifter σ α) (c : Call σ) (hc : c.WellFormed) :
    (s.call T c).map (fun (s', y) => (s'.engine, y)) =
      (s.engine.run T (c.samples s.engine.ratio)).map fun (p : Engine α × List σ) =>
        ({ p.1 with ratio := c.ratioAfter s.engine.ratio }, p.2) := by
  cases c with
  | mono input =>
    have h := processMono_eq_run T s input
    rcases hp : s.processMono T input with f | ⟨s', y⟩ <;> rw [hp] at h
    · simp only [call, hp, Call.samples, ← h]; rfl
    · have hr : s'.engine.ratio = s.engine.ratio := Engine.run_map_ratio h.symm
      simp only [call, hp, Call.samples, Call.ratioAfter, ← h]
      simp [Except.map, ← hr]
  | block n line lines =>
    have h := process_eq_run T s n line lines hc.1 hc.2
    rcases hp : s.process T n (some line) lines with f | ⟨s', ls⟩ <;> rw [hp] at h
    · simp only [call, hp, Call.samples, ← h]; rfl
    · have hr : s'.engine.ratio = s.engine.ratio := Engine.run_map_ratio h.symm
      simp only [call, hp, Call.samples, Call.ratioAfter, ← h]
      simp [Except.map, ← hr]
  | tune cents => rfl

/-- A sequence of calls is a run of the stream it hands over, each sample at the ratio in force
when it arrives; after it, the ratio is the last one set. -/
theorem runCalls_eq_run (T : Transform α) (s : Shifter σ α) (cs : List (Call σ))
    (hw : ∀ c ∈ cs, c.WellFormed) :
    (s.runCalls T cs).map (fun (s', ys) => (s'.engine, ys)) =
      (s.engine.run T (Call.stream s.engine.ratio cs)).map fun (p : Engine α × List σ) =>
        ({ p.1 with ratio := Call.finalRatio s.engine.ratio cs }, p.2) := by
  induction cs generalizing s with
  | nil => rfl
  | cons c cs ih =>
    have hc := call_eq_run T s c (hw c List.mem_cons_self)
    simp only [runCalls, Call.stream, Call.finalRatio, Engine.run_append]
    rcases hx : s.call T c with f | ⟨s₁, y⟩ <;> rw [hx] at hc
    · rw [map_eq_error.1 hc.symm]; rfl
    · obtain ⟨⟨e₁, y'⟩, hr, he⟩ := map_eq_ok.1 hc.symm
      simp only [Prod.mk.injEq] at he
      obtain ⟨he₁, rfl⟩ := he
      have ih' := ih s₁ fun c' h' => hw c' (List.mem_cons_of_mem _ h')
      rw [← he₁, Engine.run_with_ratio] at ih'
      simp only [bind, Except.bind, hr]
      simp only at ih'
      generalize runCalls T s₁ cs = x at ih' ⊢
      generalize Engine.run T e₁ (Call.stream (c.ratioAfter s.engine.ratio) cs) = z at ih' ⊢
      rcases x with f | ⟨s₂, ys⟩ <;> rcases z with f' | ⟨e₂, ys₂⟩ <;>
        simp_all [Except.map, pure, Except.pure]

/-- How the input is cut into calls does not matter. Two sequences of well-formed calls that
hand over the same stream, with the same ratio in force at every sample and at the end, leave
the same engine (ring, analysis and synthesis phases, accumulator and ratio) and give the same
mono output, or fail with the same fault. -/
theorem runCalls_eq_of_same_stream (T : Transform α) (s : Shifter σ α) (cs₁ cs₂ : List (Call σ))
    (hw₁ : ∀ c ∈ cs₁, c.WellFormed) (hw₂ : ∀ c ∈ cs₂, c.WellFormed)
    (hs : Call.stream s.engine.ratio cs₁ = Call.stream s.engine.ratio cs₂)
    (hr : Call.finalRatio s.engine.ratio cs₁ = Call.finalRatio s.engine.ratio cs₂) :
    (s.runCalls T cs₁).map (fun (s', ys) => (s'.engine, ys)) =
      (s.runCalls T cs₂).map (fun (s', ys) => (s'.engine, ys)) := by
  rw [runCalls_eq_run T s cs₁ hw₁, runCalls_eq_run T s cs₂ hw₂, hs, hr]

/-- Six hundred samples in one buffer, or in a buffer of 300 and the first 300 of a line: the
cut falls inside the second hop, and the two runs of two cycles agree. -/
theorem runCalls_eq_of_same_stream_split :
    ((fresh : Shifter Float32 Float).runCalls Transform.radix2
        [.mono (Array.replicate 600 1)]).map (fun (s', ys) => (s'.engine, ys)) =
      ((fresh : Shifter Float32 Float).runCalls Transform.radix2
        [.mono (Array.replicate 300 1), .block 300 (Array.replicate 1024 1) #[]]).map
        (fun (s', ys) => (s'.engine, ys)) := by
  refine runCalls_eq_of_same_stream Transform.radix2 fresh _ _ (by simp [Call.WellFormed])
    (by simp [Call.WellFormed]) ?_ (by simp only [Call.finalRatio, Call.ratioAfter])
  simp only [Call.stream, Call.samples, Call.ratioAfter, List.append_nil, Array.toList_replicate,
    List.map_replicate, Array.extract_replicate, List.replicate_append_replicate]
  rfl

end Shifter

/-! ## What mixing touches -/

section Mixing

variable {σ α : Type} [SampleArith σ] [Scalar α] [Widening σ α]

/-- Gain-ramped mixing touches only its window and completes its ramps. When the window
`[outPos, outPos + L)` fits in every line, `mix` succeeds; it changes no line from the
sixteenth on and no sample outside the window, and no gain slot past the last line. Line
`j` gets `input[i] · (gⱼ + stepⱼ · i)` added for `i < min counter L` when its step is above
epsilon, and `input[i] · g'ⱼ` for the other samples of the window unless `g'ⱼ` is silent; its
slot stores `g'ⱼ`, the target unless the ramp outlasts the block. Since `process` mixes its
block at position 0 with a ramp of `max k 512` samples for `k = min n 1024`, it changes no
sample from `min n 1024` on, and after a call of at least 512 samples every line it mixed is at
its target gain. -/
theorem mixing_touches_only_its_window (input : Array σ) (lines : Array (Array σ))
    (current target : Vector σ 16) (counter outPos : Nat)
    (hword : outPos + input.size < 18446744073709551616)
    (hfit : ∀ l ∈ lines, outPos + input.size ≤ l.size) :
    (∃ lines' gains', Mix.mix input lines current target counter outPos = .ok (lines', gains') ∧
      lines'.size = lines.size ∧
      (∀ j, (lines'.getD j #[]).size = (lines.getD j #[]).size) ∧
      (∀ j p, (16 ≤ j ∨ p < outPos ∨ outPos + input.size ≤ p) →
        (lines'.getD j #[]).getD p 0 = (lines.getD j #[]).getD p 0) ∧
      (∀ j : Fin 16, lines.size ≤ j.val → gains'.get j = current.get j) ∧
      ∀ j : Fin 16, j.val < lines.size →
        let g := current.get j
        let step := (target.get j - g) * (if counter > 0 then 1 / SampleArith.ofNat counter else 0)
        let ramps := SampleArith.lt SampleArith.epsilon (SampleArith.abs step)
        let n := min counter input.size
        let g' := if ramps = true ∧ n ≠ counter then g + step * SampleArith.ofNat n else target.get j
        gains'.get j = g' ∧
        ∀ i (hi : i < input.size), (lines'.getD j #[]).getD (outPos + i) 0 =
          if ramps = true ∧ i < n then
            (lines.getD j #[]).getD (outPos + i) 0 + input[i] * (g + step * SampleArith.ofNat i)
          else if SampleArith.le (SampleArith.abs g') Mix.silence then
            (lines.getD j #[]).getD (outPos + i) 0
          else (lines.getD j #[]).getD (outPos + i) 0 + input[i] * g') ∧
    ∀ (T : Transform α) (s s' : Shifter σ α) (n : Nat) (line : Option (Array σ))
      (ls ls' : Array (Array σ)), (∀ l ∈ ls, l.size = 1024) →
      s.process T n line ls = .ok (s', ls') →
      (∀ j p, min n 1024 ≤ p → (ls'.getD j #[]).getD p 0 = (ls.getD j #[]).getD p 0) ∧
      ∀ x, line = some x → x.size = 1024 → 512 ≤ n →
        ∀ j : Fin 16, j.val < ls.size → s'.current.get j = s'.target.get j := by
  have hmix := Mix.mix_eq input lines current target counter outPos hword hfit
  refine ⟨⟨(Mix.mixedBefore input lines current target counter outPos 16).1,
      (Mix.mixedBefore input lines current target counter outPos 16).2, hmix,
      Mix.mixedBefore_size .., Mix.mixedBefore_getD_size input lines current target counter outPos 16,
      fun j p hp => Mix.mixedBefore_frame input lines current target counter outPos 16 hp,
      fun j hj => ?_, fun j hj => ?_⟩,
    fun T s s' n line ls ls' hl h => ⟨fun j p hp => Shifter.process_frame hl h hp,
      fun x hx hxs hn j hj => Shifter.process_settles hl hxs hn (hx ▸ h) j hj⟩⟩
  · rw [Mix.mixedBefore_gain, if_neg (by omega)]
  · have hw : outPos + input.size ≤ (lines.getD j #[]).size :=
      hfit _ (by simp [Array.getD, hj, Array.getElem_mem])
    refine ⟨by rw [Mix.mixedBefore_gain, if_pos hj, Mix.mixLine_gain], fun i hi => ?_⟩
    rw [Mix.mixedBefore_getD_of_lt _ _ _ _ _ _ j (by omega) hj,
      Mix.mixLine_getD_window _ _ _ _ _ _ _ hi (by omega), Mix.mixLine_gain]

/-- Two samples mixed from position 1 into a silent line of four, ramping from silence toward
one over 512 samples: the samples outside the window stay silent. -/
theorem mixing_two_samples :
    (1 + 2 < 18446744073709551616 ∧ ∀ l ∈ #[Array.replicate 4 (0 : Float32)], 1 + 2 ≤ l.size) ∧
      ∃ lines' gains', Mix.mix (#[1, 1] : Array Float32) #[Array.replicate 4 0]
        (Vector.replicate 16 0) (Vector.replicate 16 1) 512 1 = .ok (lines', gains') ∧
        (lines'.getD 0 #[]).getD 0 0 = 0 ∧ (lines'.getD 0 #[]).getD 3 0 = 0 := by
  have hfit : ∀ l ∈ #[Array.replicate 4 (0 : Float32)], 1 + 2 ≤ l.size := by simp
  obtain ⟨⟨lines', gains', hm, -, -, hframe, -, -⟩, -⟩ :=
    mixing_touches_only_its_window (α := Float) (#[1, 1] : Array Float32)
      #[Array.replicate 4 0] (Vector.replicate 16 0) (Vector.replicate 16 1) 512 1 (by decide) hfit
  refine ⟨⟨by decide, hfit⟩, lines', gains', hm, ?_, ?_⟩
  · rw [hframe 0 0 (by omega)]
    rfl
  · rw [hframe 0 3 (by simp)]
    rfl

end Mixing

end PhaseVocoder
