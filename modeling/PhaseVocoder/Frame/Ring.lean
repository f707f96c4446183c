import PhaseVocoder.Fault
import PhaseVocoder.Frame.Window
import PhaseVocoder.Signal.Sample

/-!
# The sample ring: `StftFifo` (core/ring_buffer.rs:15-102)

The ring holds the last 1024 samples of the stream, as scalars, in a circular buffer. The
stream is cut into hops of 256 samples; the hop being filled sits in one of four slots, at
`pos = 256 · slot`, and `fill` samples of it have arrived. Both bounds are part of the type.

* `ingest` writes incoming samples into the current hop and hands back, sample for sample,
  what the slot held before: the hop of output that a spectral cycle stored there. When the
  hop is full the slot advances and `ingest` reports it.
* `frame` reads the 1024 samples in stream order, oldest first (starting at `pos`, which after
  a completed hop is the oldest slot), multiplied by a window.
* `storeHop` overwrites the current slot with a hop of output, to be read out by the next 256
  calls' worth of `ingest`.

A fresh ring is silent with its slot at 3 and nothing filled, so the first 256 samples
returned are the zeros of slot 3.
-/

namespace PhaseVocoder

/-- A circular buffer of 1024 scalars, filling one hop slot at a time. -/
structure Ring (α : Type) where
  data : Vector α 1024
  slot : Fin 4
  fill : Fin 256

namespace Ring

variable {α : Type}

def pos (r : Ring α) : Nat := 256 * r.slot.val

def fresh [Scalar α] : Ring α := ⟨Vector.replicate 1024 0, 3, 0⟩

/-- Silences every entry and rewinds to slot 3 with nothing filled. -/
def reset [Scalar α] (r : Ring α) : Ring α :=
  { r with data := Vector.replicate 1024 0, slot := 3, fill := 0 }

def room (r : Ring α) (remaining : Nat) : Nat := min (256 - r.fill.val) remaining

def sample (r : Ring α) (i : Nat) : α :=
  r.data.get ⟨i % 1024, Nat.mod_lt _ (by decide)⟩

/-- Where the next sample of the stream goes: `fill` entries into the current hop slot. -/
def cursor (r : Ring α) : Nat := r.pos + r.fill.val

def nextSlot (r : Ring α) : Fin 4 := r.slot + 1

/-- One sample of `ingest`: `v` written at the cursor; a full hop moves on to the next
slot. -/
def put (r : Ring α) (v : α) : Ring α :=
  let data := Vector.ofFn fun (j : Fin 1024) => if j.val = r.cursor then v else r.data.get j
  if h : r.fill.val + 1 < 256 then ⟨data, r.slot, ⟨r.fill.val + 1, h⟩⟩ else ⟨data, r.nextSlot, 0⟩

/-- The ring at `slot`, with nothing of its hop filled, whose entries read in stream order
from the slot are `f`. -/
def load (slot : Fin 4) (f : Vector α 1024) : Ring α :=
  ⟨Vector.ofFn fun i => f.get ⟨(i.val + 1024 - 256 * slot.val) % 1024, Nat.mod_lt _ (by decide)⟩,
    slot, 0⟩

/-- Writes `input` into the current hop after its `fill` samples and hands back what it replaced
(`StftFifo::ingest`, core/ring_buffer.rs:62-82). -/
def ingest {σ : Type} [Widening σ α] (r : Ring α) (input : Array σ) :
    Except Fault (Ring α × Array σ × Bool) :=
  let n := input.size
  if r.fill.val + n > 256 then .error .hopOverrun
  else
    let base := r.pos + r.fill.val
    let out := Array.ofFn (n := n) fun i => Widening.narrow (r.sample (base + i.val))
    let data := Vector.ofFn fun (j : Fin 1024) =>
      if h : base ≤ j.val ∧ j.val < base + n then
        Widening.widen (input[j.val - base])
      else r.data.get j
    if h : r.fill.val + n < 256 then
      .ok (⟨data, r.slot, ⟨r.fill.val + n, h⟩⟩, out, false)
    else
      .ok (⟨data, r.slot + 1, 0⟩, out, true)

/-- The 1024 samples in stream order starting at `pos`, each multiplied by the window entry of its
place (`read_frame`, core/ring_buffer.rs:84-90). -/
def frame [Scalar α] (r : Ring α) (w : Vector α 1024) : Vector (Phasor α) 1024 :=
  Vector.ofFn fun j => ⟨r.sample (r.pos + j.val) * w.get j, 0⟩

/-- Overwrites the current hop slot with `hop`, which must hold exactly 256 samples (`store_hop`,
core/ring_buffer.rs:92-97). -/
def storeHop (r : Ring α) (hop : Array α) : Except Fault (Ring α) :=
  if h : hop.size = 256 then
    let p := r.pos
    .ok { r with
      data := Vector.ofFn fun (j : Fin 1024) =>
        if hj : p ≤ j.val ∧ j.val < p + 256 then hop[j.val - p] else r.data.get j }
  else .error (.hopLength hop.size)

end Ring

end PhaseVocoder
