import Multimatch.Fault
import Multimatch.Codec.Word

/-!
# Byte arrays

Long runs of bytes are arrays. Slices and words are taken at positions that have to exist: what lies
past the end is a fault, never a default. Words are read in native order.
-/

namespace Multimatch

abbrev Bytes := Array UInt8

namespace Bytes

def slice (bytes : Bytes) (start stop : Nat) : Except Fault Bytes :=
  if start ≤ stop ∧ stop ≤ bytes.size then .ok (bytes.extract start stop)
  else .error (.outOfBounds stop bytes.size)

def byteAt (bytes : Bytes) (place : Nat) : Except Fault UInt8 :=
  match bytes[place]? with
  | some byte => .ok byte
  | none => .error (.outOfBounds place bytes.size)

/-- The word of `width` bytes that starts at `place`. -/
def wordAt (bytes : Bytes) (place width : Nat) : Except Fault Nat :=
  if place + width ≤ bytes.size then
    .ok (Endian.native.decode (bytes.extract place (place + width)).toList)
  else .error (.outOfBounds (place + width) bytes.size)

theorem slice_eq_ok {bytes : Bytes} {start stop : Nat} (ordered : start ≤ stop)
    (inside : stop ≤ bytes.size) : bytes.slice start stop = .ok (bytes.extract start stop) := by
  simp [slice, ordered, inside]

theorem byteAt_eq_ok {bytes : Bytes} {place : Nat} (inside : place < bytes.size) :
    bytes.byteAt place = .ok bytes[place] := by
  simp [byteAt, inside]

theorem wordAt_eq_ok {bytes : Bytes} {place width : Nat} (inside : place + width ≤ bytes.size) :
    bytes.wordAt place width
      = .ok (Endian.native.decode (bytes.extract place (place + width)).toList) := by
  simp [wordAt, inside]

end Bytes

/-- How many bytes bring a length up to a multiple of eight. -/
def paddingLength (length : Nat) : Nat := (8 - length % 8) % 8

theorem add_paddingLength_mod (length : Nat) : (length + paddingLength length) % 8 = 0 := by
  unfold paddingLength
  omega

end Multimatch
