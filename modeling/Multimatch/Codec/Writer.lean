import Multimatch.Codec.Bytes
import Multimatch.Codec.Error

/-!
# Checked writing

Writers into a buffer that exists already. They refuse one that is too small for what they are
asked to write, and a single write past the end of the bytes is a fault.
-/

namespace Multimatch

/-- Writing that may refuse the buffer. -/
abbrev Write := Except (Failure WriteError)

namespace Bytes

/-- The bytes with those from `place` on replaced, one by one, as far as there are any. -/
def setFrom (bytes : Bytes) (place : Nat) : List UInt8 → Bytes
  | [] => bytes
  | byte :: patch => setFrom (bytes.setIfInBounds place byte) (place + 1) patch

/-- Writes `patch` from `place` on, where it has to fit. -/
def write (bytes : Bytes) (place : Nat) (patch : List UInt8) : Write Bytes :=
  if place + patch.length ≤ bytes.size then .ok (bytes.setFrom place patch)
  else .error (.fault (.outOfBounds (place + patch.length) bytes.size))

/-- Writes parts that start `stride` bytes after each other, the first one at `place`. -/
def writeEach (stride : Nat) : Nat → List (List UInt8) → Bytes → Write Bytes
  | _, [], bytes => .ok bytes
  | place, part :: parts, bytes => do
    let bytes ← bytes.write place part
    writeEach stride (place + stride) parts bytes

/-- Runs a writer on the bytes from `start` to `stop`, which have to exist. -/
def within (bytes : Bytes) (start stop : Nat) (writer : Bytes → Write Bytes) : Write Bytes := do
  let part ← bytes.slice start stop
  let written ← writer part
  bytes.write start written.toList

/-- Refuses a buffer that is too small for what should be written. -/
def requireRoom (bytes : Bytes) (length : Nat) (what : String) : Write Unit :=
  if bytes.size < length then .error (.refused ⟨what⟩) else .ok ()

end Bytes

end Multimatch
