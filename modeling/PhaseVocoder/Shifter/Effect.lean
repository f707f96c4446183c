import PhaseVocoder.Shifter.Engine
import PhaseVocoder.Mix.Ambisonic
import PhaseVocoder.Mix.Ramp
import PhaseVocoder.Tuning

/-!
# The pitch-shift effect: `PshifterState` (effect/pshifter.rs:32-246)

The effect wraps the engine for use in a mixer. It keeps the engine, the mono output of the
last block, and for each of 16 output lines a current and a target gain.

* `update` takes new effect properties, an input gain and an output layout. A tuning sets the
  pitch ratio to `2^(cents/1200)` (properties of another kind leave the ratio); the targets
  become the gains that pan the signal straight ahead into the layout.
* `process n` shifts the first `min n 1024` samples of its input line and mixes the block
  into the output lines, ramping the gains toward their targets over `max n' 512` samples.
  Without an input line it does nothing.
* `processMono` shifts any number of samples, 1024 at a time, without mixing.
* `reset` and a device change return to the fresh state.

An `Effect` is the shifter or the silent effect, which ignores everything.
-/

namespace PhaseVocoder

/-- Properties handed to an effect: a tuning for the shifter, or the empty properties of the
silent effect. -/
inductive EffectProps where
  | empty
  | tuning (t : Tuning)

/-- The pitch-shift effect's state (`PshifterState`, effect/pshifter.rs:32-47). -/
structure Shifter (σ : Type) (α : Type) where
  engine : Engine α
  out : Vector σ 1024
  current : Vector σ 16
  target : Vector σ 16

namespace Shifter

variable {σ α : Type} [SampleArith σ] [Scalar α] [Widening σ α]

def fresh : Shifter σ α :=
  ⟨Engine.fresh, Vector.replicate 1024 0, Vector.replicate 16 0, Vector.replicate 16 0⟩

/-- Each part reset in place: the engine, the output buffer and both gain arrays
(`PshifterState::reset`, effect/pshifter.rs:73-87). -/
def reset (s : Shifter σ α) : Shifter σ α :=
  { s with
    engine := s.engine.reset
    out := Vector.replicate 1024 0
    current := Vector.replicate 16 0
    target := Vector.replicate 16 0 }

/-- A new output device: the state starts over. -/
def deviceUpdate (s : Shifter σ α) : Shifter σ α := s.reset

/-- Sets the pitch to `cents` hundredths of a semitone. -/
def setTuningCents (s : Shifter σ α) (cents : Int) : Shifter σ α :=
  { s with engine := { s.engine with ratio := PitchRatio.ofCents cents } }

/-- Takes new properties, input gain and layout (`PshifterState::update`,
effect/pshifter.rs:204-222). The tuning's total cents are computed first, and a fault there
leaves the state as it was. -/
def update (s : Shifter σ α) (gain : σ) (props : EffectProps) (layout : Layout σ) :
    Except Fault (Shifter σ α) := do
  let s ← match props with
    | .tuning t => do pure (s.setTuningCents (← t.totalCents))
    | .empty => pure s
  pure { s with target := Pan.gains layout Pan.frontCoeffs gain }

def withOut (s : Shifter σ α) (block : Array σ) : Shifter σ α :=
  { s with out := Vector.ofFn fun i => block.getD i.val (s.out.get i) }

/-- Shifts one block of at most 1024 samples and keeps it as the last output (`shift_block`,
effect/pshifter.rs:153-169). -/
def shiftBlock (T : Transform α) (s : Shifter σ α) (block : Array σ) :
    Except Fault (Shifter σ α × Array σ) := do
  let (engine, y) ← s.engine.shiftBlock T block
  pure ({ s with engine }.withOut y, y)

/-- Shifts the chunks of at most 1024 samples in order, collecting the output. -/
def shiftChunks (T : Transform α) (s : Shifter σ α) (acc : Array σ) :
    List (Array σ) → Except Fault (Shifter σ α × Array σ)
  | [] => .ok (s, acc)
  | c :: cs => do
    let (s', y) ← s.shiftBlock T c
    shiftChunks T s' (acc ++ y) cs

def chunks1024 (input : Array σ) : List (Array σ) :=
  (List.range ((input.size + 1023) / 1024)).map fun i => input.extract (1024 * i) (1024 * i + 1024)

/-- Shifts any number of samples without mixing (`process_mono`, effect/pshifter.rs:139-151). -/
def processMono (T : Transform α) (s : Shifter σ α) (input : Array σ) :
    Except Fault (Shifter σ α × Array σ) :=
  s.shiftChunks T #[] (chunks1024 input)

/-- Shifts the first `min n 1024` samples of the input line and mixes them into `lines`,
ramping over `max (min n 1024) 512` samples (effect/pshifter.rs:224-246). Without an input line
nothing happens. -/
def process (T : Transform α) (s : Shifter σ α) (n : Nat) (input : Option (Array σ))
    (lines : Array (Array σ)) : Except Fault (Shifter σ α × Array (Array σ)) := do
  match input with
  | none => pure (s, lines)
  | some line =>
    let k := min n 1024
    let (s, y) ← s.shiftBlock T (line.extract 0 k)
    let (lines, gains) ← Mix.mix y lines s.current s.target (max k 512) 0
    pure ({ s with current := gains }, lines)

end Shifter

/-- An effect slot's state: the pitch shifter, or the silent effect (`EffectType`,
effect/mod.rs:84-107; `NullState`, effect/null.rs). -/
inductive Effect (σ : Type) (α : Type) where
  | shifter (s : Shifter σ α)
  | silent

namespace Effect

variable {σ α : Type} [SampleArith σ] [Scalar α] [Widening σ α]

def deviceUpdate : Effect σ α → Effect σ α
  | .shifter s => .shifter s.deviceUpdate
  | .silent => .silent

def update (e : Effect σ α) (gain : σ) (props : EffectProps) (layout : Layout σ) :
    Except Fault (Effect σ α) :=
  match e with
  | .shifter s => Effect.shifter <$> s.update gain props layout
  | .silent => pure .silent

def process (T : Transform α) (e : Effect σ α) (n : Nat) (input : Option (Array σ))
    (lines : Array (Array σ)) : Except Fault (Effect σ α × Array (Array σ)) :=
  match e with
  | .shifter s => do
    let (s, lines) ← s.process T n input lines
    pure (.shifter s, lines)
  | .silent => pure (.silent, lines)

end Effect

end PhaseVocoder
