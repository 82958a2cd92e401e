import Multimatch.Proofs.Codec.Fields
import Multimatch.Proofs.Table.Outcome
import Multimatch.Proofs.Table.RoundTrip

/-!
# Saved tables in either order of bytes

`Scheme.savedFields` is the layout of a saved table. It says where a number is and how wide it is,
and it follows from the scheme and from counts of what the table is for, whatever the order of the
bytes. `Contents.savedValues` is what the fields hold. By that layout, saved bytes of either order
are read in their own order as the same values (`Contents.Fits.reads`), and the saved bytes of the
other order are not loaded (`LiteralTable.load_of_foreign`).
-/

namespace Multimatch

open Multimatch.Field (Value Reads)

/-! ## The header -/

namespace Header

def fields : List Field :=
  [.number 4, .number 4, .number 4, .number 4, .number 4, .raw 1, .raw 1, .number 2, .number 4,
    .number 4]

def values (header : Header) : List Value :=
  [.number header.schemeId, .number header.size, .number header.maxLength,
    .number header.floodOffset, .number header.confirmOffset, .raw [UInt8.ofNat header.domain],
    .raw [UInt8.ofNat header.wordLength], .number header.keyMask, .number header.tableSize,
    .number 0]

theorem Fits.reads {header : Header} (h : header.Fits) (endian : Endian) :
    Reads endian fields (header.encode endian) header.values :=
  have hregions := ((((Reads.number 4 h.schemeId).append (.number 4 h.size)).append
    (.number 4 h.maxLength)).append (.number 4 h.floodOffset)).append (.number 4 h.confirmOffset)
  have hscheme := (((hregions.append (.byte header.domain)).append
    (.byte header.wordLength)).append (.number 2 h.keyMask)).append (.number 4 h.tableSize)
  hscheme.append (.number 4 (by decide))

end Header

/-! ## The confirm region -/

namespace ConfirmEntry

def fields : List Field :=
  [.number 4, .number 4, .number 4, .number 4, .number 8, .number 8, .number 8]

/-- What the record of an entry holds, if the bytes of the entry start at `place`. -/
def values (entry : ConfirmEntry) (place : Nat) : List Value :=
  [.number entry.id.toNat, .number entry.bytes.size, .number place, .number entry.nocase.toNat,
    .number entry.groups.toNat, .number entry.quickValue, .number entry.quickMask]

theorem Fits.reads {entry : ConfirmEntry} (h : entry.Fits) (endian : Endian) {place : Nat}
    (hsize : entry.bytes.size < 1 <<< 32) (hplace : place < 1 <<< 32) :
    Reads endian fields (entry.encode endian place) (entry.values place) :=
  have hflag : entry.nocase.toNat < 1 <<< 32 := by cases entry.nocase <;> decide
  have hstart := (((Reads.number 4 entry.id.toNat_lt).append (.number 4 hsize)).append
    (.number 4 hplace)).append (.number 4 hflag)
  ((hstart.append (.number 8 entry.groups.toNat_lt)).append (.number 8 h.quickValue)).append
    (.number 8 h.quickMask)

end ConfirmEntry

namespace ConfirmLists

open ConfirmEntry (recordLength)

/-- The fields of a region with so many lists and entries, whose literals have so many bytes. -/
def fields (lists entries strings : Nat) : List Field :=
  (List.replicate lists [Field.number 4, Field.number 4]).flatten
    ++ (List.replicate entries ConfirmEntry.fields).flatten
    ++ [Field.raw strings] ++ [Field.raw (paddingLength (8 * lists + 40 * entries + strings))]

/-- What a directory holds, if the records of its lists start at `place`. -/
def directoryValues : Nat → ConfirmLists → List Value
  | _, [] => []
  | place, list :: lists =>
    [Value.number place, Value.number list.length]
      ++ directoryValues (place + recordLength * list.length) lists

/-- What the records of entries hold, if the bytes of the entries start at `place`. -/
def recordValues : Nat → List ConfirmEntry → List Value
  | _, [] => []
  | place, entry :: entries =>
    entry.values place ++ recordValues (place + entry.bytes.size) entries

def values (lists : ConfirmLists) : List Value :=
  directoryValues (recordsStart lists) lists ++ recordValues (stringsStart lists) lists.flatten
    ++ [Value.raw (strings lists)]
    ++ [Value.raw (List.replicate (paddingLength (bareLength lists)) 0)]

theorem reads_directory (endian : Endian) {lists : ConfirmLists} {place : Nat}
    (hend : place + recordLength * lists.flatten.length < 1 <<< 32) :
    Reads endian (List.replicate lists.length [.number 4, .number 4]).flatten
      (directory endian place lists) (directoryValues place lists) := by
  induction lists generalizing place with
  | nil => exact .nil
  | cons list lists ih =>
    rw [List.flatten_cons, List.length_append, Nat.mul_add, ← Nat.add_assoc] at hend
    have hlength : list.length ≤ recordLength * list.length :=
      Nat.le_mul_of_pos_left _ (by decide)
    have hplace : Reads endian [.number 4] (endian.encode 4 place) [.number place] :=
      .number 4 (Nat.lt_of_le_of_lt (by omega) hend)
    have hcount : Reads endian [.number 4] (endian.encode 4 list.length) [.number list.length] :=
      .number 4 (Nat.lt_of_le_of_lt (by omega) hend)
    exact (hplace.append hcount).append (ih hend)

theorem reads_records (endian : Endian) {entries : List ConfirmEntry} {place : Nat}
    (hfits : ∀ entry ∈ entries, entry.Fits)
    (hend : place + (entries.flatMap (·.bytes.toList)).length < 1 <<< 32) :
    Reads endian (List.replicate entries.length ConfirmEntry.fields).flatten
      (records endian place entries) (recordValues place entries) := by
  induction entries generalizing place with
  | nil => exact .nil
  | cons entry entries ih =>
    rw [List.flatMap_cons, List.length_append, Array.length_toList, ← Nat.add_assoc] at hend
    have hentry : Reads endian ConfirmEntry.fields (entry.encode endian place)
        (entry.values place) :=
      (hfits entry List.mem_cons_self).reads endian (Nat.lt_of_le_of_lt (by omega) hend)
        (Nat.lt_of_le_of_lt (by omega) hend)
    exact hentry.append (ih (fun next hnext => hfits next (List.mem_cons_of_mem _ hnext)) hend)

theorem reads (endian : Endian) {lists : ConfirmLists}
    (hfits : ∀ list ∈ lists, ∀ entry ∈ list, entry.Fits)
    (hsize : lists.encodedLength < 1 <<< 32) :
    Reads endian (fields lists.length lists.entryCount (strings lists).length)
      (lists.encode endian) lists.values := by
  have hbare : bareLength lists < 1 <<< 32 := Nat.lt_of_le_of_lt (Nat.le_add_right ..) hsize
  have hentries : ∀ entry ∈ lists.flatten, entry.Fits := fun entry hentry => by
    obtain ⟨list, hlist, hentry⟩ := List.mem_flatten.1 hentry
    exact hfits list hlist entry hentry
  have hdirectory := @reads_directory endian lists (recordsStart lists)
    (Nat.lt_of_le_of_lt (Nat.le_add_right ..) hbare)
  have hrecords := @reads_records endian lists.flatten (stringsStart lists) hentries hbare
  have hpadding := @Reads.raw endian (List.replicate (paddingLength (bareLength lists)) 0)
  rw [List.length_replicate] at hpadding
  exact ((hdirectory.append hrecords).append (.raw (strings lists))).append hpadding

end ConfirmLists

/-! ## The flood region -/

namespace FloodRecord

/-- A record has three columns, for the identifiers, the groups and the lengths of its entries. -/
def fields : List Field :=
  [Field.number 8, Field.number 4, Field.number 2, Field.raw 2]
    ++ List.replicate maxEntries (Field.number 4) ++ List.replicate maxEntries (Field.number 8)
    ++ List.replicate maxEntries (Field.number 4)

/-- What a column holds: zeros where there are no entries. -/
def columnValues (values : List Nat) : List Value := (values.rightpad maxEntries 0).map .number

def values (record : FloodRecord) : List Value :=
  [Value.number record.allGroups.toNat, Value.number record.suffix,
      Value.number record.entries.length, Value.raw [0, 0]]
    ++ columnValues (record.entries.map (·.id.toNat))
    ++ columnValues (record.entries.map (·.groups.toNat))
    ++ columnValues (record.entries.map (·.length))

theorem encode_zero (endian : Endian) (width : Nat) :
    endian.encode width 0 = List.replicate width 0 := by
  have hlittle : Endian.littleBytes width 0 = List.replicate width 0 := by
    induction width with
    | zero => rfl
    | succ width ih =>
      rw [Endian.littleBytes, Nat.zero_div, ih, List.replicate_succ]
      rfl
  cases endian with
  | little => exact hlittle
  | big => rw [Endian.encode, hlittle, List.reverse_replicate]

/-- The zeros at the end of a column are the words of missing entries. -/
theorem column_eq (endian : Endian) (width : Nat) (values : List Nat) :
    column endian width values = (values.rightpad maxEntries 0).flatMap (endian.encode width) := by
  have hzeros (count : Nat) : (List.replicate count 0).flatMap (endian.encode width)
      = List.replicate (width * count) 0 := by
    rw [List.flatMap_replicate, encode_zero, List.flatten_replicate_replicate, Nat.mul_comm]
  rw [List.rightpad, List.flatMap_append, hzeros]
  rfl

theorem reads_column (endian : Endian) {width : Nat} {values : List Nat}
    (hlength : values.length ≤ maxEntries) (hvalues : ∀ value ∈ values, value < 1 <<< (8 * width)) :
    Reads endian (List.replicate maxEntries (.number width)) (column endian width values)
      (columnValues values) := by
  have hfull : (values.rightpad maxEntries 0).length = maxEntries := by
    rw [List.length_rightpad, Nat.max_eq_left hlength]
  have hall : ∀ value ∈ values.rightpad maxEntries 0, value < 1 <<< (8 * width) := by
    intro value hvalue
    rcases List.mem_append.1 hvalue with hvalue | hvalue
    · exact hvalues value hvalue
    · rw [List.eq_of_mem_replicate hvalue, Nat.one_shiftLeft]
      exact Nat.two_pow_pos _
  have hreads := @Reads.numbers endian _ _ hall
  rwa [hfull, ← column_eq] at hreads

theorem Fits.reads {record : FloodRecord} (h : record.Fits) (endian : Endian) :
    Reads endian fields (record.encode endian) record.values := by
  have hroom (value : FloodEntry → Nat) : (record.entries.map value).length ≤ maxEntries := by
    rw [List.length_map]
    exact h.entries
  have hids := @reads_column endian 4 _ (hroom (·.id.toNat))
    (List.forall_mem_map.2 fun entry _ => entry.id.toNat_lt)
  have hgroups := @reads_column endian 8 _ (hroom (·.groups.toNat))
    (List.forall_mem_map.2 fun entry _ => entry.groups.toNat_lt)
  have hlengths := @reads_column endian 4 _ (hroom (·.length)) (List.forall_mem_map.2 h.lengths)
  have hcount : record.entries.length < 1 <<< 16 := Nat.lt_of_le_of_lt h.entries (by decide)
  have hstart := (((@Reads.number endian 8 _ record.allGroups.toNat_lt).append
    (.number 4 h.suffix)).append (.number 2 hcount)).append (.raw [0, 0])
  exact ((hstart.append hids).append hgroups).append hlengths

end FloodRecord

namespace FloodIndex

/-- The fields of a region with so many records. -/
def fields (records : Nat) : List Field :=
  List.replicate 256 (Field.number 4) ++ (List.replicate records FloodRecord.fields).flatten

def values (flood : FloodIndex) : List Value :=
  flood.index.map Value.number ++ flood.records.flatMap FloodRecord.values

theorem Fits.reads {flood : FloodIndex} (h : flood.Fits) (endian : Endian)
    (hlt : flood.records.length < 1 <<< 32) :
    Reads endian (fields flood.records.length) (flood.encode endian) flood.values := by
  have hindex := @Reads.numbers endian 4 flood.index fun number hnumber =>
    Nat.lt_trans (h.index_lt number hnumber) hlt
  rw [h.index_length] at hindex
  exact hindex.append (.flatMap fun record hrecord => (h.records record hrecord).reads endian)

end FloodIndex

/-! ## The saved table -/

namespace LiteralTable

def headFields : List Field := [.raw 24, .number 8, .number 8]

def headValues : List Value :=
  [.raw (Codec.labelBytes label labelLength), .number Codec.endianMark, .number version]

theorem reads_head (endian : Endian) : Reads endian headFields (head endian) headValues := by
  have hlabel := @Reads.raw endian (Codec.labelBytes label labelLength)
  rw [length_labelBytes] at hlabel
  exact (hlabel.append (.number 8 (by decide))).append (.number 8 (by decide))

end LiteralTable

/-- The fields of a saved table for so many literals, which have so many bytes in all, with so many
flood records. -/
def Scheme.savedFields (scheme : Scheme) (literals strings records : Nat) : List Field :=
  LiteralTable.headFields ++ (Header.fields
    ++ List.replicate (2 ^ scheme.bits) (Field.number (scheme.width / 8))
    ++ ConfirmLists.fields (scheme.buckets * 2 ^ scheme.split) literals strings
    ++ FloodIndex.fields records)

namespace Contents

/-- What the fields of a saved table hold. -/
def savedValues (contents : Contents) : List Value :=
  LiteralTable.headValues ++ (contents.header.values ++ contents.words.map Value.number
    ++ contents.confirm.values ++ contents.flood.values)

/-- In the order in which contents were saved, they are read back from the fields. -/
theorem Fits.reads {contents : Contents} (h : contents.Fits) (endian : Endian) :
    Reads endian
      (contents.scheme.savedFields contents.confirm.entryCount
        (ConfirmLists.strings contents.confirm).length contents.flood.records.length)
      (LiteralTable.head endian ++ contents.body endian) contents.savedValues := by
  have hwords := @Reads.numbers endian contents.scheme.wordLength contents.words
    fun word hword => by
      rw [Nat.mul_comm, h.scheme.wordLength_mul]
      exact h.words_lt word hword
  rw [h.words_length, Scheme.entries, Nat.one_shiftLeft] at hwords
  have hconfirm := ConfirmLists.reads endian h.confirm (Nat.lt_of_le_of_lt
    (Nat.le_trans (Nat.le_add_left ..) contents.floodOffset_le) h.bodyLength_lt)
  rw [h.confirm_length, Nat.shiftLeft_eq] at hconfirm
  have hbody := (((h.header_fits.reads endian).append hwords).append hconfirm).append
    (h.flood.reads endian h.records_lt)
  exact (LiteralTable.reads_head endian).append hbody

end Contents

namespace LiteralTable

/-- Bytes that were saved in the other order are refused, whatever follows the head. -/
theorem load_of_foreign {bytes : Bytes} {endian : Endian} (hforeign : endian ≠ .native)
    (h : bytes.Holds 0 (head endian)) : load bytes
      = .error (.refused (.endianMismatch Codec.endianMark 0xFFFE000000000000)) := by
  rw [head] at h
  have hlabel := Codec.readLabel_eq labelLength_label (by decide) h.left.left
  have hmark := h.left.right
  rw [length_labelBytes, Nat.zero_add] at hmark
  simp only [load, hlabel, Codec.readEndian_of_foreign hforeign hmark, Load.liftM_accepted, bind,
    Except.bind]

/-- A built table is saved in either order of bytes. Both have the same length and the same fields,
and read in its own order each of them holds the same values, which are the contents of the table.
The one that is not in native order is not loaded. -/
theorem saved_sameFields {options : Options} {literals : List Literal} {table : LiteralTable}
    (hbuild : build options literals = .ok table) :
    ∃ scheme contents, options.schemeFor literals = .ok scheme ∧ table.contents = .ok contents
      ∧ ∀ endian, ∃ saved, table.toBytes endian = .ok saved ∧ saved.size = table.savedLength
        ∧ Field.readAll endian (scheme.savedFields literals.length
            (literals.map Literal.length).sum (1 + (FloodIndex.wanted scheme literals).length))
            saved.toList = some (contents.savedValues, [])
        ∧ (endian ≠ .native → load saved
            = .error (.refused (.endianMismatch Codec.endianMark 0xFFFE000000000000))) := by
  obtain ⟨scheme, hfor, hfits, rfl⟩ := schemeFor_of_build hbuild
  obtain ⟨-, hbytes, -⟩ := Options.of_schemeFor hfor
  have hpos := (Options.isKnown_of_schemeFor hfor).buckets_pos
  obtain ⟨flood, hcontents, hcopy, hrecords, hsize⟩ := hfits.exists_copy
  rw [Contents.flood_ofLiterals, FloodIndex.length_records_of] at hrecords
  refine ⟨scheme, _, hfor, hcontents, fun endian => ⟨_,
    toBytes_of_contents hcontents hcopy hsize endian, ?_, ?_, fun hforeign => ?_⟩⟩
  · rw [savedLength, ← hsize]
    exact hcopy.partsFit.length_saved endian
  · have hread := hcopy.reads endian []
    rw [List.append_nil] at hread
    rw [← hrecords, ← ConfirmLists.length_strings_of hpos hbytes,
      ← ConfirmLists.entryCount_of hpos hbytes]
    exact hread
  · exact load_of_foreign hforeign (Bytes.Holds.refl _).left

theorem saved_sameFields_both_orders :
    let options : Options := { scheme? := some (some 0), domain? := some (some 9) }
    let literals : List Literal := [{ id := .wrap 7, bytes := [97, 98] }]
    ∃ (table : LiteralTable) (contents : Contents) (big little : Bytes),
      build options literals = .ok table ∧ table.contents = .ok contents
      ∧ table.toBytes .big = .ok big ∧ table.toBytes .little = .ok little
      ∧ big.size = little.size
      ∧ Field.readAll .big (Scheme.savedFields ⟨0, 32, 8, 1, .none, 0, 0, 9⟩ 1 2 1) big.toList
        = some (contents.savedValues, [])
      ∧ Field.readAll .little (Scheme.savedFields ⟨0, 32, 8, 1, .none, 0, 0, 9⟩ 1 2 1)
          little.toList = some (contents.savedValues, [])
      ∧ load big
        = .error (.refused (.endianMismatch Codec.endianMark 0xFFFE000000000000)) := by
  intro options literals
  have hfor : options.schemeFor literals = .ok ⟨0, 32, 8, 1, .none, 0, 0, 9⟩ := by decide +kernel
  have hbuild := build_of_schemeFor hfor (by decide +kernel)
  obtain ⟨scheme, contents, hscheme, hcontents, hsaved⟩ := saved_sameFields hbuild
  cases hfor.symm.trans hscheme
  obtain ⟨big, hbig, hbigSize, hbigRead, hload⟩ := hsaved .big
  obtain ⟨little, hlittle, hlittleSize, hlittleRead, -⟩ := hsaved .little
  have hwanted : (FloodIndex.wanted ⟨0, 32, 8, 1, .none, 0, 0, 9⟩ literals).length = 0 := by
    decide +kernel
  rw [hwanted] at hbigRead hlittleRead
  exact ⟨_, contents, big, little, hbuild, hcontents, hbig, hlittle,
    hbigSize.trans hlittleSize.symm, hbigRead, hlittleRead, hload nofun⟩

end LiteralTable

end Multimatch
