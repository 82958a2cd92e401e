import Multimatch.Codec.Reader
import Multimatch.Literal.Basic
import Multimatch.Scheme.Basic

/-!
# The confirm region

The confirm region says which literals may end at a candidate. Each bucket has a list for every
value of some low bits of the last byte, and an entry of a list has the bytes of a literal and a
quick check over its last few bytes.

```text
directory: for every list the offset of its records and their number, 32 bits each
records:   40 bytes each, by identifier within a list
strings:   the bytes of the literals, one after the other, padded with zeros to a multiple of eight
```

Offsets count from the start of the region.
-/

namespace Multimatch

/-- A literal as the confirm region holds it. -/
structure ConfirmEntry where
  id : LiteralId
  bytes : Bytes
  nocase : Bool
  groups : Groups
  /-- The quick check passes if the last bytes agree with this word under the mask. -/
  quickValue : Nat
  quickMask : Nat
deriving DecidableEq, Repr

namespace ConfirmEntry

/-- The byte of a quick check's value. Both cases of a letter have their capital there. -/
def quickByte (nocase : Bool) (byte : UInt8) : UInt8 :=
  if nocase && Letter.isLetter byte then Letter.upper byte else byte

/-- The byte of a quick check's mask. It leaves the bit out in which the cases of a letter differ.
-/
def quickMaskByte (nocase : Bool) (byte : UInt8) : UInt8 :=
  if nocase && Letter.isLetter byte then 0xdf else 0xff

/-- The word of the last bytes of a literal as a quick check sees them: eight bytes, the last one at
the top. -/
def quickWord (bytes : List UInt8) : Nat :=
  Endian.ofLittleBytes (List.replicate (8 - bytes.length) 0 ++ bytes)

/-- The bytes of a literal that the quick check covers. -/
def quickTail (literal : Literal) (quickLength : Nat) : List UInt8 :=
  literal.bytes.drop (literal.length - min literal.length quickLength)

/-- The value and the mask of the quick check over the last bytes of a literal. -/
def quickCheck (literal : Literal) (quickLength : Nat) : Nat × Nat :=
  let tail := quickTail literal quickLength
  (quickWord (tail.map (quickByte literal.nocase)),
    quickWord (tail.map (quickMaskByte literal.nocase)))

/-- The entry of a literal. -/
def of (literal : Literal) (quickLength : Nat) : ConfirmEntry :=
  let (quickValue, quickMask) := quickCheck literal quickLength
  { id := literal.id, bytes := literal.bytes.toArray, nocase := literal.nocase,
    groups := literal.groups,
    quickValue, quickMask }

def recordLength : Nat := 40

/-- The record of an entry whose bytes start at `place`. -/
def encode (endian : Endian) (entry : ConfirmEntry) (place : Nat) : List UInt8 :=
  endian.encode 4 entry.id.toNat ++ endian.encode 4 entry.bytes.size ++ endian.encode 4 place
    ++ endian.encode 4 entry.nocase.toNat ++ endian.encode 8 entry.groups.toNat
    ++ endian.encode 8 entry.quickValue ++ endian.encode 8 entry.quickMask

theorem length_encode (endian : Endian) (entry : ConfirmEntry) (place : Nat) :
    (entry.encode endian place).length = recordLength := by
  simp [encode, recordLength, Endian.length_encode]

end ConfirmEntry

/-- The entries of every list of every bucket. The lists of a bucket are next to each other. -/
abbrev ConfirmLists := List (List ConfirmEntry)

namespace ConfirmLists

def directoryEntryLength : Nat := 8

/-- The literals of a bucket whose last byte belongs to list `part`. -/
def partOf (scheme : Scheme) (literals : List Literal) (part : Nat) : List Literal :=
  literals.filter fun literal => literal.bytes.getLast?.any (scheme.splitIndex · == part)

/-- The lists of literals in the given buckets. -/
def of (scheme : Scheme) (buckets : List (List Literal)) : ConfirmLists :=
  buckets.flatMap fun literals =>
    (List.range scheme.listsPerBucket).map fun part =>
      ((partOf scheme literals part).map (ConfirmEntry.of · scheme.quickLength)).mergeSort
        fun a b => a.id.toNat ≤ b.id.toNat

def entryCount (lists : ConfirmLists) : Nat := lists.flatten.length

def strings (lists : ConfirmLists) : List UInt8 := lists.flatten.flatMap (·.bytes.toList)

/-- The directory of lists whose records start at `place`. -/
def directory (endian : Endian) : Nat → ConfirmLists → List UInt8
  | _, [] => []
  | place, list :: lists =>
    endian.encode 4 place ++ endian.encode 4 list.length
      ++ directory endian (place + ConfirmEntry.recordLength * list.length) lists

/-- The records of entries whose bytes start at `place`. -/
def records (endian : Endian) : Nat → List ConfirmEntry → List UInt8
  | _, [] => []
  | place, entry :: entries =>
    entry.encode endian place ++ records endian (place + entry.bytes.size) entries

def recordsStart (lists : ConfirmLists) : Nat := directoryEntryLength * lists.length

def stringsStart (lists : ConfirmLists) : Nat :=
  recordsStart lists + ConfirmEntry.recordLength * entryCount lists

/-- The bytes of the region without its padding. -/
def bareLength (lists : ConfirmLists) : Nat := stringsStart lists + (strings lists).length

def encodedLength (lists : ConfirmLists) : Nat :=
  bareLength lists + paddingLength (bareLength lists)

def encode (endian : Endian) (lists : ConfirmLists) : List UInt8 :=
  directory endian (recordsStart lists) lists
    ++ records endian (stringsStart lists) lists.flatten
    ++ strings lists
    ++ List.replicate (paddingLength (bareLength lists)) 0

theorem length_directory (endian : Endian) (place : Nat) (lists : ConfirmLists) :
    (directory endian place lists).length = directoryEntryLength * lists.length := by
  induction lists generalizing place with
  | nil => rfl
  | cons list lists ih =>
    simp only [directory, List.length_append, Endian.length_encode, ih, List.length_cons,
      directoryEntryLength]
    omega

theorem length_records (endian : Endian) (place : Nat) (entries : List ConfirmEntry) :
    (records endian place entries).length = ConfirmEntry.recordLength * entries.length := by
  induction entries generalizing place with
  | nil => rfl
  | cons entry entries ih =>
    rw [records, List.length_append, ConfirmEntry.length_encode, ih, List.length_cons]
    exact (Nat.mul_succ _ _ ▸ Nat.add_comm _ _)

/-- The region takes as many bytes as were set aside for it. -/
theorem length_encode (endian : Endian) (lists : ConfirmLists) :
    (lists.encode endian).length = lists.encodedLength := by
  simp only [encode, List.length_append, length_directory, length_records, List.length_replicate,
    encodedLength, bareLength, stringsStart, recordsStart, entryCount]

end ConfirmLists

/-- The bytes of a confirm region and the scheme that says how many lists it has. -/
structure ConfirmRegion where
  bytes : Bytes
  buckets : Nat
  split : Nat

namespace ConfirmRegion

open ConfirmLists (directoryEntryLength)
open ConfirmEntry (recordLength)

def of (scheme : Scheme) (bytes : Bytes) : ConfirmRegion := ⟨bytes, scheme.buckets, scheme.split⟩

def listCount (region : ConfirmRegion) : Nat := region.buckets <<< region.split

/-- Refuses a record that no entry can be read from. -/
def checkRecord (region : ConfirmRegion) (place : Nat) : Load Unit := do
  let _ ← Reader.tryLiteralIdAt region.bytes place "confirm literal id"
  let length ← Reader.tryWordAt region.bytes (place + 4) 4 "literal length"
  let start ← Reader.tryWordAt region.bytes (place + 8) 4 "literal offset"
  let stop ← Reader.add start length "literal end"
  Load.require (length ≠ 0 ∧ stop ≤ region.bytes.size) .confirmBytesOutside

/-- Refuses a list that reaches out of the region or has a bad record. -/
def checkList (region : ConfirmRegion) (list : Nat) : Load Unit := do
  let entry := list * directoryEntryLength
  let place ← Reader.tryWordAt region.bytes entry 4 "confirm list offset"
  let count ← Reader.tryWordAt region.bytes (entry + 4) 4 "confirm list length"
  let length ← Reader.multiply count recordLength "confirm list length"
  let stop ← Reader.add place length "confirm list end"
  Load.require (region.listCount * directoryEntryLength ≤ place ∧ stop ≤ region.bytes.size)
    .confirmListOutside
  (List.range count).forM fun index => region.checkRecord (place + index * recordLength)

/-- Refuses a region that some list cannot be read from. -/
def check (region : ConfirmRegion) : Load Unit := do
  let length ← Reader.multiply region.listCount directoryEntryLength "confirm directory"
  Reader.checkLength region.bytes.size length "confirm directory"
  (List.range region.listCount).forM region.checkList

def entryAt (region : ConfirmRegion) (place : Nat) : Except Fault ConfirmEntry := do
  let id ← region.bytes.wordAt place 4
  let length ← region.bytes.wordAt (place + 4) 4
  let start ← region.bytes.wordAt (place + 8) 4
  let bytes ← region.bytes.slice start (start + length)
  let flags ← region.bytes.wordAt (place + 12) 4
  let groups ← region.bytes.wordAt (place + 16) 8
  let quickValue ← region.bytes.wordAt (place + 24) 8
  let quickMask ← region.bytes.wordAt (place + 32) 8
  return { id := Ident.wrap id, bytes, nocase := flags.testBit 0,
           groups := Groups.ofNat groups, quickValue, quickMask }

def list (region : ConfirmRegion) (list : Nat) : Except Fault (List ConfirmEntry) := do
  let place ← region.bytes.wordAt (list * directoryEntryLength) 4
  let count ← region.bytes.wordAt (list * directoryEntryLength + 4) 4
  (List.range count).mapM fun index => region.entryAt (place + index * recordLength)

def lists (region : ConfirmRegion) : Except Fault ConfirmLists :=
  (List.range region.listCount).mapM region.list

end ConfirmRegion

end Multimatch
