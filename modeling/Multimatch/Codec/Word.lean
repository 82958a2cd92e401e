/-!
# Words as bytes

A word is written in a fixed number of bytes, in one of two orders. `Endian.decode` undoes
`Endian.encode` up to the number of bytes: what does not fit is dropped from the top.
-/

namespace Multimatch

/-- The order of the bytes of a word. -/
inductive Endian where
  | little
  | big
deriving DecidableEq, Repr

namespace Endian

def native : Endian := .little

/-- The low `width` bytes of a number, the least significant one first. -/
def littleBytes : Nat → Nat → List UInt8
  | 0, _ => []
  | width + 1, value => UInt8.ofNat value :: littleBytes width (value / 256)

/-- The number whose bytes are given, the least significant one first. -/
def ofLittleBytes : List UInt8 → Nat
  | [] => 0
  | byte :: bytes => byte.toNat + 256 * ofLittleBytes bytes

def encode (endian : Endian) (width value : Nat) : List UInt8 :=
  match endian with
  | .little => littleBytes width value
  | .big => (littleBytes width value).reverse

def decode (endian : Endian) (bytes : List UInt8) : Nat :=
  match endian with
  | .little => ofLittleBytes bytes
  | .big => ofLittleBytes bytes.reverse

theorem length_littleBytes (width value : Nat) : (littleBytes width value).length = width := by
  induction width generalizing value with
  | zero => rfl
  | succ width ih => simp [littleBytes, ih]

/-- One byte more makes room for 256 times as many numbers. -/
theorem shiftLeft_bytes_succ (width : Nat) :
    1 <<< (8 * (width + 1)) = 256 * (1 <<< (8 * width)) := by
  rw [Nat.mul_succ, Nat.add_comm, Nat.shiftLeft_add, Nat.shiftLeft_eq, Nat.shiftLeft_eq,
    Nat.shiftLeft_eq]
  omega

theorem ofLittleBytes_littleBytes (width value : Nat) :
    ofLittleBytes (littleBytes width value) = value % (1 <<< (8 * width)) := by
  induction width generalizing value with
  | zero => simp [littleBytes, ofLittleBytes, Nat.mod_one]
  | succ width ih =>
    rw [littleBytes, ofLittleBytes, ih, shiftLeft_bytes_succ, Nat.mod_mul]
    simp [UInt8.toNat_ofNat']

theorem length_encode (endian : Endian) (width value : Nat) :
    (endian.encode width value).length = width := by
  cases endian <;> simp [encode, length_littleBytes]

/-- Reading in the order of writing gives the low bytes back. -/
theorem decode_encode (endian : Endian) (width value : Nat) :
    endian.decode (endian.encode width value) = value % (1 <<< (8 * width)) := by
  cases endian <;> simp [encode, decode, ofLittleBytes_littleBytes]

end Endian

end Multimatch
