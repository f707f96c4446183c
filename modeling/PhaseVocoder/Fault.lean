/-!
# Faults: the panics of the library

A fault is a broken precondition inside the library, which stops the operation that meets
it: integer arithmetic leaving its machine word, a slice that reaches outside its buffer, or
one of the two hop-bookkeeping assertions of the sample ring. Faults are distinct from the
errors an operation reports about its input (`ShiftError`): a fault means the caller asked
for something the code does not support, and the whole operation is abandoned.

`Fault.message` is the one place that spells each fault.
-/

namespace PhaseVocoder

/-- A broken precondition that abandons the current operation. -/
inductive Fault where
  /-- An integer sum left the range of its machine word. -/
  | addOverflow
  /-- An integer product left the range of its machine word. -/
  | mulOverflow
  /-- More samples were offered to the ring than the current hop has room for. -/
  | hopOverrun
  /-- A hop handed back to the ring did not hold exactly one hop of samples. -/
  | hopLength (given : Nat)
  /-- A slice started past the end of its buffer. -/
  | sliceStart (start length : Nat)
  /-- A slice ended past the end of its buffer. -/
  | sliceEnd (stop length : Nat)
deriving DecidableEq, Repr

/-- The text of a fault. -/
def Fault.message : Fault → String
  | .addOverflow => "attempt to add with overflow"
  | .mulOverflow => "attempt to multiply with overflow"
  | .hopOverrun => "assertion failed: self.count + input.len() <= STFT_STEP"
  | .hopLength n => "assertion `left == right` failed\n  left: " ++ toString n ++ "\n right: 256"
  | .sliceStart s n =>
    "range start index " ++ toString s ++ " out of range for slice of length " ++ toString n
  | .sliceEnd e n =>
    "range end index " ++ toString e ++ " out of range for slice of length " ++ toString n

/-- A machine word's range of integers, both ends included. -/
structure Word where
  lo : Int
  hi : Int

def Word.i64 : Word := ⟨-9223372036854775808, 9223372036854775807⟩

def Word.i32 : Word := ⟨-2147483648, 2147483647⟩

def Word.u32 : Word := ⟨0, 4294967295⟩

/-- Unsigned 64-bit words, also the width of sizes and indices: `[0, 2^64)`. -/
def Word.u64 : Word := ⟨0, 18446744073709551615⟩

def Word.holds (w : Word) (n : Int) : Bool :=
  w.lo ≤ n && n ≤ w.hi

def Word.add (w : Word) (a b : Int) : Except Fault Int :=
  if w.holds (a + b) then .ok (a + b) else .error .addOverflow

def Word.mul (w : Word) (a b : Int) : Except Fault Int :=
  if w.holds (a * b) then .ok (a * b) else .error .mulOverflow

/-- The slice `[start, stop)` of a buffer of `length` elements is in range: a start past the
end is reported before an end past it. -/
def checkSlice (start stop length : Nat) : Except Fault Unit :=
  if start > length then .error (.sliceStart start length)
  else if stop > length then .error (.sliceEnd stop length)
  else .ok ()

end PhaseVocoder
