import Multimatch.Codec.Label
import Multimatch.Table.Basic
import Multimatch.Table.Write

/-!
# Saved tables

A saved table is a head (label, order mark, version) and the body of the table. Saving decodes the
table and lays it out again, in either byte order. Loading takes native order only and checks
everything that a later read relies on; the table loaded is a slice of the bytes.
-/

namespace Multimatch

namespace LiteralTable

def label : String := "fdr-literal-table"

def version : Nat := 1

def labelLength : Nat := 24

/-- What comes before the body of a saved table. -/
def head (endian : Endian) : List UInt8 :=
  Codec.labelBytes label labelLength ++ Codec.endianBytes endian
    ++ Codec.versionBytes endian version

def headLength : Nat := labelLength + Codec.endianLength + Codec.versionLength

def savedLength (table : LiteralTable) : Nat := headLength + table.arena.size

def fillStart (buffer : Bytes) (bytes : List UInt8) : Bytes :=
  bytes.toArray ++ buffer.extract bytes.length

/-- Saves the table at the start of a buffer. The answer is the number of bytes written and the
buffer. A buffer shorter than `savedLength` stays as it is; if the body alone turns out to be longer
than the rest of the buffer, the head has been written already. -/
def writeTo (table : LiteralTable) (endian : Endian) (buffer : Bytes) :
    Except Fault (Except WriteError Nat × Bytes) := do
  if buffer.size < table.savedLength then return (.error ⟨"literal table"⟩, buffer)
  let contents ← table.contents
  let begun := fillStart buffer (head endian)
  match begun.within headLength begun.size (contents.write endian) with
  | .ok written => return (.ok (headLength + contents.bodyLength), written)
  | .error (.refused error) => return (.error error, begun)
  | .error (.fault fault) => throw fault

/-- The saved table. It has to fit `savedLength` bytes. -/
def toBytes (table : LiteralTable) (endian : Endian) : Except Fault Bytes := do
  let (written, bytes) ← table.writeTo endian (Array.replicate table.savedLength 0)
  match written with
  | .ok _ => return bytes
  | .error _ => throw (.bufferOverrun table.savedLength)

/-- Reads a saved table from the start of the bytes. The answer is the table and the number of bytes
read. -/
def load (bytes : Bytes) : Load (LiteralTable × Nat) := do
  let labelRead ← Codec.readLabel bytes label
  let endianRead ← Codec.readEndian bytes labelRead
  let versionRead ← Codec.readVersion bytes (labelRead + endianRead) version
  let start := labelRead + endianRead + versionRead
  let header ← Header.read bytes start
  let stop ← Reader.add start header.size "literal table size"
  Reader.checkLength bytes.size stop "literal table"
  let arena ← bytes.slice start stop
  let scheme ← header.validate arena.size
  let table : LiteralTable := { arena, header, scheme }
  (← table.confirmRegion).check
  (← table.floodRegion).check
  return (table, stop)

end LiteralTable

end Multimatch
