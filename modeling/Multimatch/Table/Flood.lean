import Multimatch.Codec.Reader
import Multimatch.Literal.Basic
import Multimatch.Scheme.Basic

/-!
# Floods

Inside a run of one byte that is longer than every literal, the only literals that end anywhere
are those made of that byte, and each of them ends wherever enough of the run lies behind. The
flood record of a byte lists them, so that a scan need not look at the run byte by byte.

```text
index:   for every byte value the number of its record, 32 bits each
records: 272 bytes each; the first one is empty and stands for bytes without a record
```
-/

namespace Multimatch

/-- A literal that ends inside a flood. -/
structure FloodEntry where
  id : LiteralId
  groups : Groups
  /-- The part of the run that has to lie behind an end. -/
  length : Nat
deriving DecidableEq, Repr

/-- What ends inside a flood of one byte. -/
structure FloodRecord where
  allGroups : Groups
  /-- The flood path may be taken once so much of the run lies behind. -/
  suffix : Nat
  entries : List FloodEntry
deriving DecidableEq, Repr

namespace FloodRecord

/-- The most entries that a record has room for. -/
def maxEntries : Nat := 16

def empty (suffix : Nat) : FloodRecord := ⟨Groups.none, suffix, []⟩

/-- The record with one more entry, if there is room. Entries come in the order of their
identifiers. -/
def push? (record : FloodRecord) (entry : FloodEntry) : Option FloodRecord :=
  if record.entries.length = maxEntries then none
  else some { record with
    allGroups := record.allGroups ||| entry.groups
    entries := record.entries ++ [entry] }

/-- The entry ends with so much of the run behind it, in one of the groups. -/
def endsWithin (runLength : Nat) (groups : Groups) (entry : FloodEntry) : Bool :=
  decide (entry.length ≤ runLength) && entry.groups.meets groups

/-- The identifiers of the entries in their order, each of them once where it is repeated. -/
def distinctIds : Option LiteralId → List FloodEntry → List LiteralId
  | _, [] => []
  | last, entry :: entries =>
    if last = some entry.id then distinctIds last entries
    else entry.id :: distinctIds (some entry.id) entries

/-- What ends with `runLength` bytes of the run behind it, the last byte included. -/
def ending (record : FloodRecord) (runLength : Nat) (groups : Groups) : List LiteralId :=
  distinctIds none (record.entries.filter (endsWithin runLength groups))

def encodedLength : Nat := 272

def idsStart : Nat := 16

def groupsStart : Nat := idsStart + 4 * maxEntries

def lengthsStart : Nat := groupsStart + 8 * maxEntries

/-- A column of a record: a word for every entry, and zeros for those that are missing. -/
def column (endian : Endian) (width : Nat) (values : List Nat) : List UInt8 :=
  values.flatMap (endian.encode width) ++ List.replicate (width * (maxEntries - values.length)) 0

def encode (endian : Endian) (record : FloodRecord) : List UInt8 :=
  endian.encode 8 record.allGroups.toNat ++ endian.encode 4 record.suffix
    ++ endian.encode 2 record.entries.length ++ List.replicate 2 0
    ++ column endian 4 (record.entries.map (·.id.toNat))
    ++ column endian 8 (record.entries.map (·.groups.toNat))
    ++ column endian 4 (record.entries.map (·.length))

theorem length_flatMap_encode (endian : Endian) (width : Nat) (values : List Nat) :
    (values.flatMap (endian.encode width)).length = width * values.length := by
  induction values with
  | nil => rfl
  | cons value values ih =>
    rw [List.flatMap_cons, List.length_append, Endian.length_encode, ih, List.length_cons,
      Nat.mul_succ, Nat.add_comm]

/-- A column is full if its values have room in it. -/
theorem length_column (endian : Endian) (width : Nat) {values : List Nat}
    (fits : values.length ≤ maxEntries) :
    (column endian width values).length = width * maxEntries := by
  rw [column, List.length_append, length_flatMap_encode, List.length_replicate, ← Nat.mul_add,
    Nat.add_sub_cancel' fits]

/-- A record that has room for its entries takes as many bytes as any other. -/
theorem length_encode (endian : Endian) {record : FloodRecord}
    (fits : record.entries.length ≤ maxEntries) :
    (record.encode endian).length = encodedLength := by
  have columns (width : Nat) (value : FloodEntry → Nat) :
      (column endian width (record.entries.map value)).length = width * maxEntries :=
    length_column endian width (by rwa [List.length_map])
  simp only [encode, List.length_append, Endian.length_encode, List.length_replicate, columns]
  rfl

theorem push?_eq_none_iff (record : FloodRecord) (entry : FloodEntry) :
    record.push? entry = none ↔ record.entries.length = maxEntries := by
  simp [push?]

/-- The entry number `index` of the record that starts at `place`. -/
def readEntry (bytes : Bytes) (place index : Nat) : Load FloodEntry := do
  let id ← Reader.tryLiteralIdAt bytes (place + idsStart + 4 * index) "flood literal id"
  let groups ← bytes.wordAt (place + groupsStart + 8 * index) 8
  let length ← bytes.wordAt (place + lengthsStart + 4 * index) 4
  return { id, groups := Groups.ofNat groups, length }

def read (bytes : Bytes) (place : Nat) : Load FloodRecord := do
  if bytes.size < place then throw (.fault (.outOfBounds place bytes.size))
  Reader.checkLength (bytes.size - place) encodedLength "flood record"
  let count ← bytes.wordAt (place + 12) 2
  Load.require (count ≤ maxEntries) .floodRecordTooFull
  let suffix ← bytes.wordAt (place + 8) 4
  let entries ← (List.range count).mapM (readEntry bytes place)
  let allGroups ← bytes.wordAt place 8
  return { allGroups := Groups.ofNat allGroups, suffix, entries }

end FloodRecord

/-- The records of a table and the number of the record of every byte. -/
structure FloodIndex where
  index : List Nat
  records : List FloodRecord
deriving DecidableEq, Repr

namespace FloodIndex

def indexLength : Nat := 256 * 4

/-- The literals in the order in which records list them. -/
def sorted (literals : List Literal) : List Literal :=
  literals.mergeSort fun a b =>
    a.id.toNat < b.id.toNat || (a.id.toNat == b.id.toNat && a.length ≤ b.length)

/-- The suffix of every record of a table: a run so long holds each literal that can end in it. -/
def suffixFor (scheme : Scheme) (literals : List Literal) : Nat :=
  max scheme.floodSuffix (Literal.maxLength literals)

def recordOf (suffix : Nat) (runs : List Literal) : FloodRecord :=
  { allGroups := runs.foldl (fun groups literal => groups ||| literal.groups) Groups.none
    suffix
    entries := runs.map fun literal => ⟨literal.id, literal.groups, literal.length⟩ }

/-- The record of a byte, if some literals are runs of it, and no more than a record holds. -/
def recordFor? (suffix : Nat) (sortedLiterals : List Literal) (byte : UInt8) :
    Option FloodRecord :=
  let runs := sortedLiterals.filter (·.isRunOf byte)
  if runs.isEmpty || FloodRecord.maxEntries < runs.length then none
  else some (recordOf suffix runs)

/-- Gives the next byte a record, which it shares if there is one like it. -/
def add (flood : FloodIndex) (record? : Option FloodRecord) : FloodIndex :=
  match record? with
  | none => { flood with index := flood.index ++ [0] }
  | some record =>
    match flood.records.findIdx? (· == record) with
    | some place => { flood with index := flood.index ++ [place] }
    | none =>
      ⟨flood.index ++ [flood.records.length], flood.records ++ [record]⟩

def of (scheme : Scheme) (literals : List Literal) : FloodIndex :=
  let order := sorted literals
  (List.range 256).foldl
    (fun flood byte =>
      flood.add (recordFor? (suffixFor scheme literals) order (UInt8.ofNat byte)))
    ⟨[], [FloodRecord.empty 0]⟩

def encodedLength (flood : FloodIndex) : Nat :=
  indexLength + FloodRecord.encodedLength * flood.records.length

def encode (endian : Endian) (flood : FloodIndex) : List UInt8 :=
  flood.index.flatMap (endian.encode 4) ++ flood.records.flatMap (·.encode endian)

/-- The region takes as many bytes as were set aside for it. -/
theorem length_encode (endian : Endian) {flood : FloodIndex} (full : flood.index.length = 256)
    (fits : ∀ record ∈ flood.records, record.entries.length ≤ FloodRecord.maxEntries) :
    (flood.encode endian).length = flood.encodedLength := by
  have records : (flood.records.flatMap (·.encode endian)).length
      = FloodRecord.encodedLength * flood.records.length := by
    rw [List.length_flatMap, Nat.mul_comm, ← List.sum_replicate_nat, ← List.map_const']
    congr 1
    exact List.map_congr_left fun record member =>
      FloodRecord.length_encode endian (fits record member)
  rw [encode, List.length_append, FloodRecord.length_flatMap_encode, full, records]
  rfl

end FloodIndex

/-- The bytes of a flood region. -/
structure FloodRegion where
  bytes : Bytes

namespace FloodRegion

def recordCount (region : FloodRegion) : Nat :=
  (region.bytes.size - FloodIndex.indexLength) / FloodRecord.encodedLength

def recordStart (record : Nat) : Nat := FloodIndex.indexLength + record * FloodRecord.encodedLength

def recordNumber (region : FloodRegion) (byte : Nat) : Except Fault Nat :=
  region.bytes.wordAt (byte * 4) 4

/-- The record with the given number. One that could not be read would count as empty. -/
def recordAt (region : FloodRegion) (record : Nat) : Except Fault FloodRecord :=
  match FloodRecord.read region.bytes (recordStart record) with
  | .ok record => .ok record
  | .error (.refused _) => .ok (FloodRecord.empty 0)
  | .error (.fault fault) => .error fault

/-- Refuses a byte whose record does not exist. -/
def checkByte (region : FloodRegion) (byte : Nat) : Load Unit := do
  let record ← Reader.tryWordAt region.bytes (byte * 4) 4 "flood record index"
  Load.require (record < region.recordCount) .floodIndexOutside

/-- Refuses a region that some record cannot be read from. -/
def check (region : FloodRegion) : Load Unit := do
  Reader.checkLength region.bytes.size FloodIndex.indexLength "flood index"
  Load.require (region.recordCount ≠ 0) .floodRecordsMissing
  (List.range 256).forM region.checkByte
  (List.range region.recordCount).forM fun record => do
    let _ ← FloodRecord.read region.bytes (recordStart record)
  let first ← region.recordAt 0
  Load.require (first.entries = []) .firstFloodRecordInUse

/-- The record of a byte, if floods of it may take the flood path. -/
def record? (region : FloodRegion) (byte : UInt8) : Except Fault (Option FloodRecord) := do
  let number ← region.recordNumber byte.toNat
  if number = 0 then return none
  let record ← region.recordAt number
  return if record.entries.isEmpty then none else some record

def contents (region : FloodRegion) : Except Fault FloodIndex := do
  let index ← (List.range 256).mapM region.recordNumber
  let records ← (List.range region.recordCount).mapM region.recordAt
  return ⟨index, records⟩

end FloodRegion

end Multimatch
