import Multimatch.Codec.Writer
import Multimatch.Table.Contents

/-!
# Writing a table

A table is written to a buffer of its size region by region, each at the offset that the header has
for it. The confirm lists are written in one go over three places: as the lists are gone through,
the next record and the next string follow those that are written already.
-/

namespace Multimatch

namespace ConfirmLists

/-- A confirm region while it is written: its bytes, and where the next record and the next string
go. -/
structure Filling where
  bytes : Bytes
  recordPlace : Nat
  stringPlace : Nat

def writeEntry (endian : Endian) : Filling → ConfirmEntry → Write Filling
  | ⟨bytes, recordPlace, stringPlace⟩, entry => do
    let bytes ← bytes.write recordPlace (entry.encode endian stringPlace)
    let bytes ← bytes.write stringPlace entry.bytes.toList
    return ⟨bytes, recordPlace + ConfirmEntry.recordLength, stringPlace + entry.bytes.size⟩

/-- Writes the list number `index` with its entry of the directory. -/
def writeList (endian : Endian) : Filling → List ConfirmEntry × Nat → Write Filling
  | ⟨bytes, recordPlace, stringPlace⟩, (list, index) => do
    let bytes ← bytes.write (index * directoryEntryLength)
      (endian.encode 4 recordPlace ++ endian.encode 4 list.length)
    list.foldlM (writeEntry endian) ⟨bytes, recordPlace, stringPlace⟩

/-- Writes the region to bytes that it takes all of. -/
def fill (endian : Endian) (lists : ConfirmLists) (bytes : Bytes) : Write Bytes := do
  let ⟨bytes, _, stringPlace⟩ ← lists.zipIdx.foldlM (writeList endian)
    ⟨bytes, recordsStart lists, stringsStart lists⟩
  bytes.write stringPlace (List.replicate (bytes.size - stringPlace) 0)

/-- Writes the region to the start of the bytes. -/
def write (endian : Endian) (lists : ConfirmLists) (bytes : Bytes) : Write Bytes := do
  bytes.requireRoom lists.encodedLength "confirm region"
  bytes.within 0 lists.encodedLength (lists.fill endian)

end ConfirmLists

namespace FloodIndex

/-- Writes the region to the start of the bytes. -/
def write (endian : Endian) (flood : FloodIndex) (bytes : Bytes) : Write Bytes := do
  bytes.requireRoom flood.encodedLength "flood region"
  let bytes ← bytes.writeEach 4 0 (flood.index.map (endian.encode 4))
  bytes.writeEach FloodRecord.encodedLength indexLength (flood.records.map (·.encode endian))

end FloodIndex

namespace Contents

/-- Writes the table to the start of the bytes. -/
def write (endian : Endian) (contents : Contents) (bytes : Bytes) : Write Bytes := do
  bytes.requireRoom contents.bodyLength "literal table"
  let header := contents.header
  let bytes ← bytes.write 0 (header.encode endian)
  let bytes ← bytes.writeEach header.wordLength Header.encodedLength
    (contents.words.map (endian.encode header.wordLength))
  let bytes ← bytes.within header.confirmOffset bytes.size (contents.confirm.write endian)
  bytes.within header.floodOffset bytes.size (contents.flood.write endian)

end Contents

end Multimatch
