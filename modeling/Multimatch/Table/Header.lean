import Multimatch.Codec.Reader
import Multimatch.Scheme.Basic

/-!
# The header of a table

The header says which scheme a table has and where its regions are. `Header.validate` accepts it for
an arena if everything in it fits together, so that no later read leaves the arena.

```text
scheme 4, size 4, longest literal 4, flood offset 4, confirm offset 4,
domain 1, word length 1, key mask 2, size of the primary table 4, zero 4
```
-/

namespace Multimatch

/-- The header of a table. Offsets count from its start. -/
structure Header where
  schemeId : Nat
  size : Nat
  maxLength : Nat
  floodOffset : Nat
  confirmOffset : Nat
  domain : Nat
  wordLength : Nat
  keyMask : Nat
  tableSize : Nat
deriving DecidableEq, Repr

namespace Header

def encodedLength : Nat := 32

def encode (endian : Endian) (header : Header) : List UInt8 :=
  endian.encode 4 header.schemeId ++ endian.encode 4 header.size
    ++ endian.encode 4 header.maxLength ++ endian.encode 4 header.floodOffset
    ++ endian.encode 4 header.confirmOffset ++ endian.encode 1 header.domain
    ++ endian.encode 1 header.wordLength ++ endian.encode 2 header.keyMask
    ++ endian.encode 4 header.tableSize ++ endian.encode 4 0

theorem length_encode (endian : Endian) (header : Header) :
    (header.encode endian).length = encodedLength := by
  simp [encode, encodedLength, Endian.length_encode]

def read (bytes : Bytes) (place : Nat) : Load Header := do
  if bytes.size < place then throw (.fault (.outOfBounds place bytes.size))
  Reader.checkLength (bytes.size - place) encodedLength "literal table header"
  let schemeId ← bytes.wordAt place 4
  let size ← bytes.wordAt (place + 4) 4
  let maxLength ← bytes.wordAt (place + 8) 4
  let floodOffset ← bytes.wordAt (place + 12) 4
  let confirmOffset ← bytes.wordAt (place + 16) 4
  let domain ← bytes.wordAt (place + 20) 1
  let wordLength ← bytes.wordAt (place + 21) 1
  let keyMask ← bytes.wordAt (place + 22) 2
  let tableSize ← bytes.wordAt (place + 24) 4
  return { schemeId, size, maxLength, floodOffset, confirmOffset, domain, wordLength, keyMask,
           tableSize }

/-- The regions of the table follow each other and end with the arena. -/
def RegionsFit (header : Header) (arenaSize : Nat) : Prop :=
  header.size = arenaSize ∧ encodedLength + header.tableSize ≤ header.confirmOffset
    ∧ header.confirmOffset ≤ header.floodOffset ∧ header.floodOffset ≤ header.size

instance (header : Header) (arenaSize : Nat) : Decidable (header.RegionsFit arenaSize) :=
  inferInstanceAs (Decidable (_ ∧ _))

/-- The scheme of a table whose header fits an arena of the given size. -/
def validate (header : Header) (arenaSize : Nat) : Load Scheme := do
  let some scheme := Scheme.find? header.schemeId | Load.flawed .unknownScheme
  Load.require (Scheme.IsDomain header.domain) .domainOutside
  let scheme ← scheme.withBits header.domain
  Load.require (header.keyMask = (1 <<< header.domain) - 1) .domainMaskMismatch
  Load.require (header.wordLength * 8 = scheme.width) .wordWidthMismatch
  Load.require (header.tableSize = scheme.tableSize) .tableSizeMismatch
  Load.require (header.maxLength ≠ 0) .noLiterals
  Load.require (header.RegionsFit arenaSize) .regionsOutside
  return scheme

end Header

end Multimatch
