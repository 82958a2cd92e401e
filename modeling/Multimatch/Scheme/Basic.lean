import Multimatch.Fault
import Multimatch.Scheme.Target

/-!
# Matching schemes

A scheme says how a literal table is laid out. A table has a word for each of `2 ^ bits` hash keys,
and a word of `width` bits is shared by `buckets` buckets: each has `width / buckets` positions in
it, interleaved so that a shift by `buckets` moves every bucket on by one position. A scan makes one
probe for every `stride` bytes. The known schemes differ in these numbers; the number of hash bits,
the domain, is chosen for each table.
-/

namespace Multimatch

def minDomain : Nat := 9

/-- The greatest number of hash bits. A hash key is made of two bytes. -/
def maxDomain : Nat := 15

/-- The number of hash bits of a scheme for which nobody chose one. -/
def defaultDomain : Nat := 13

/-- The layout of a literal table. -/
structure Scheme where
  id : Nat
  /-- The bits of a table word: 32, 64 or 128. -/
  width : Nat
  /-- The buckets that share a word. -/
  buckets : Nat
  /-- The bytes between two probes. -/
  stride : Nat
  target : Target
  /-- How many bytes less than eight the quick check of a literal covers. -/
  pullBack : Nat
  /-- The bits of the last byte by which the literals of a bucket are split. -/
  split : Nat
  bits : Nat := defaultDomain
deriving DecidableEq, Repr

namespace Scheme

def known : List Scheme := [
  ⟨0, 32, 8, 1, .none, 0, 0, defaultDomain⟩,
  ⟨1, 32, 8, 2, .none, 1, 0, defaultDomain⟩,
  ⟨2, 32, 8, 4, .none, 3, 0, defaultDomain⟩,
  ⟨3, 64, 8, 1, .none, 0, 1, defaultDomain⟩,
  ⟨4, 64, 8, 2, .none, 1, 1, defaultDomain⟩,
  ⟨5, 64, 8, 4, .none, 3, 1, defaultDomain⟩,
  ⟨6, 64, 16, 1, .none, 0, 2, defaultDomain⟩,
  ⟨7, 128, 8, 1, .ssse3Only, 0, 2, defaultDomain⟩,
  ⟨8, 128, 16, 1, .ssse3Only, 0, 2, defaultDomain⟩,
  ⟨9, 128, 16, 2, .ssse3Only, 1, 2, defaultDomain⟩,
  ⟨10, 128, 16, 4, .avx2Only, 3, 2, defaultDomain⟩]

def find? (id : Nat) : Option Scheme := known.find? (·.id == id)

/-- Every number of hash bits that a table may have. -/
def domains : List Nat := List.range' minDomain (maxDomain + 1 - minDomain)

/-- A table may have so many hash bits. -/
def IsDomain (bits : Nat) : Prop := minDomain ≤ bits ∧ bits ≤ maxDomain

instance (bits : Nat) : Decidable (IsDomain bits) := inferInstanceAs (Decidable (_ ∧ _))

/-- The scheme with another number of hash bits. -/
def withBits (scheme : Scheme) (bits : Nat) : Except Fault Scheme :=
  if IsDomain bits then .ok { scheme with bits } else .error (.domainOutside bits)

/-- The target has every feature that the scheme needs. -/
def runsOn (scheme : Scheme) (target : Target) : Bool := target.contains scheme.target

/-- The positions that a bucket has in a word. -/
def bucketWidth (scheme : Scheme) : Nat := scheme.width / scheme.buckets

/-- The bit of a word for a position of a bucket. -/
def bitAt (scheme : Scheme) (bucket position : Nat) : Nat := position * scheme.buckets + bucket

/-- The bit of a word for a position of a bucket, both of which have to exist. -/
def bitAt? (scheme : Scheme) (bucket position : Nat) : Except Fault Nat :=
  if bucket < scheme.buckets ∧ position < scheme.bucketWidth then .ok (scheme.bitAt bucket position)
  else .error (.schemeBitOutside bucket position)

def entries (scheme : Scheme) : Nat := 1 <<< scheme.bits

def wordLength (scheme : Scheme) : Nat := scheme.width / 8

def tableSize (scheme : Scheme) : Nat := scheme.wordLength * scheme.entries

/-- Hash keys are cut to these bits. -/
def keyMask (scheme : Scheme) : Nat := scheme.entries - 1

def fullWord (scheme : Scheme) : Nat := (1 <<< scheme.width) - 1

/-- The shortest run of one byte that is worth the flood path. It is one more than the positions
of a bucket, rounded up, so that a whole window lies inside the run. -/
def floodSuffix (scheme : Scheme) : Nat :=
  (scheme.width + scheme.buckets - 1) / scheme.buckets + 1

/-- The scheme is made for literals of one byte too. -/
def suitsSingleBytes (scheme : Scheme) : Bool := scheme.stride == 1

/-- The bytes that the quick check of a literal covers. -/
def quickLength (scheme : Scheme) : Nat := 8 - scheme.pullBack

/-- The lists into which the literals of one bucket are split. -/
def listsPerBucket (scheme : Scheme) : Nat := 1 <<< scheme.split

/-- The list of a bucket for literals that end with the given byte. -/
def splitIndex (scheme : Scheme) (byte : UInt8) : Nat := byte.toNat % (1 <<< scheme.split)

/-- The number of that list among those of all buckets. -/
def listFor (scheme : Scheme) (bucket : Nat) (byte : UInt8) : Nat :=
  bucket * scheme.listsPerBucket + scheme.splitIndex byte

end Scheme

end Multimatch
