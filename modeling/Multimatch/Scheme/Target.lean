/-!
# Targets

A target is a set of processor features. A scheme names those that it needs to run fast.
-/

namespace Multimatch

/-- A set of processor features. -/
structure Target where
  ssse3 : Bool := false
  avx2 : Bool := false
deriving DecidableEq, Repr

namespace Target

def none : Target := {}

/-- Byte shuffles of 128 bits. -/
def ssse3Only : Target := { ssse3 := true }

/-- Integer operations of 256 bits. -/
def avx2Only : Target := { avx2 := true }

def all : Target := ⟨true, true⟩

/-- The features whose bits are set; other bits mean nothing. -/
def ofBits (bits : Nat) : Target := ⟨bits.testBit 0, bits.testBit 1⟩

def bits (target : Target) : Nat := target.ssse3.toNat + 2 * target.avx2.toNat

def contains (target other : Target) : Bool :=
  (!other.ssse3 || target.ssse3) && (!other.avx2 || target.avx2)

def union (a b : Target) : Target := ⟨a.ssse3 || b.ssse3, a.avx2 || b.avx2⟩

/-- The quoted names of the features in braces. -/
def text (target : Target) : String :=
  let names := (if target.ssse3 then ["\"ssse3\""] else [])
    ++ (if target.avx2 then ["\"avx2\""] else [])
  "\x7b" ++ ", ".intercalate names ++ "\x7d"

end Target

end Multimatch
