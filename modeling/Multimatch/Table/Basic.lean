import Multimatch.Table.Contents

/-!
# Literal tables

A literal table is an array of bytes, its arena, that holds the header and the regions one after the
other, with its words in native order. Nothing is decoded when a table is loaded: what is needed is
read from the arena when it is.
-/

namespace Multimatch

/-- A table of literals, ready to scan with. -/
structure LiteralTable where
  /-- The bytes from the start of the header to the end of the flood region. -/
  arena : Bytes
  header : Header
  scheme : Scheme

namespace LiteralTable

def ofContents (contents : Contents) : LiteralTable :=
  ⟨(contents.body .native).toArray, contents.header, contents.scheme⟩

/-- The word under a key. Past the last key, the bytes that follow the table are read. -/
def wordAt (table : LiteralTable) (key : Nat) : Except Fault Nat :=
  table.arena.wordAt (Header.encodedLength + key * table.header.wordLength) table.header.wordLength

def wordBits (table : LiteralTable) : Nat := table.header.wordLength * 8

def confirmRegion (table : LiteralTable) : Except Fault ConfirmRegion := do
  let bytes ← table.arena.slice table.header.confirmOffset table.header.floodOffset
  return .of table.scheme bytes

def floodRegion (table : LiteralTable) : Except Fault FloodRegion := do
  let bytes ← table.arena.slice table.header.floodOffset table.arena.size
  return ⟨bytes⟩

/-- The flood record of a byte, if floods of it may take the flood path. -/
def floodRecord? (table : LiteralTable) (byte : UInt8) : Except Fault (Option FloodRecord) := do
  (← table.floodRegion).record? byte

def memory (table : LiteralTable) : Nat := table.arena.size

def contents (table : LiteralTable) : Except Fault Contents := do
  let words ← (List.range table.scheme.entries).mapM table.wordAt
  let confirm ← (← table.confirmRegion).lists
  let flood ← (← table.floodRegion).contents
  return { scheme := table.scheme, maxLength := table.header.maxLength, words, confirm, flood }

def text (table : LiteralTable) : Except Fault String := do
  let confirm ← table.confirmRegion
  let flood ← table.floodRegion
  let fields := [
    ("engine_id", table.header.schemeId),
    ("domain", table.header.domain),
    ("size", table.header.size),
    ("max_string_len", table.header.maxLength),
    ("confirm_len", confirm.bytes.size),
    ("flood_len", flood.bytes.size)]
  return "PackedLiteralTable \x7b "
    ++ ", ".intercalate (fields.map fun (name, value) => s!"{name}: {value}") ++ " \x7d"

end LiteralTable

end Multimatch
