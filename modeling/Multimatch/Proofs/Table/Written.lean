import Multimatch.Proofs.Codec.Wrote
import Multimatch.Proofs.Table.Layout
import Multimatch.Table.Saved
import Multimatch.Table.Write

/-!
# What the writers of a table leave behind

Contents that fit a table are written to any buffer that has room for them, without a refusal or a
fault (`Contents.PartsFit.write_eq`), and what is written are the regions one after the other if
every offset fits its field of the header (`Contents.Fits.write_eq`). The
confirm region is the one whose writer goes over several places at once: `writeEntries_wrote` and
`writeLists_wrote` follow its running offsets by induction on the entries and the lists.
-/

namespace Multimatch

open Bytes (Wrote)

/-! ## The confirm region -/

namespace ConfirmLists

open ConfirmEntry (recordLength)

variable {endian : Endian} {target bytes : Bytes} {recordPlace stringPlace : Nat}

/-- Records and strings are filled in side by side. -/
theorem writeEntries_wrote {entries : List ConfirmEntry} (hsize : bytes.size = target.size)
    (hrecords : target.Holds recordPlace (records endian stringPlace entries))
    (hstrings : target.Holds stringPlace (entries.flatMap (·.bytes.toList))) :
    ∃ next, entries.foldlM (writeEntry endian) ⟨bytes, recordPlace, stringPlace⟩
        = .ok ⟨next, recordPlace + recordLength * entries.length,
            stringPlace + (entries.flatMap (·.bytes.toList)).length⟩
      ∧ Wrote target bytes next recordPlace (recordPlace + recordLength * entries.length)
      ∧ Wrote target bytes next stringPlace
          (stringPlace + (entries.flatMap (·.bytes.toList)).length) := by
  induction entries generalizing bytes recordPlace stringPlace with
  | nil => exact ⟨bytes, rfl, Wrote.refl .., Wrote.refl ..⟩
  | cons entry entries ih =>
    rw [records] at hrecords
    rw [List.flatMap_cons] at hstrings
    have hlater := hrecords.right
    rw [ConfirmEntry.length_encode] at hlater
    obtain ⟨first, hfirst, hrecord⟩ := Bytes.write_wrote hsize hrecords.left
    obtain ⟨second, hsecond, hstring⟩ :=
      Bytes.write_wrote (hrecord.size.trans hsize) hstrings.left
    obtain ⟨next, hrest, hrecords', hstrings'⟩ :=
      ih (hstring.size.trans (hrecord.size.trans hsize)) hlater hstrings.right
    have hstringLength : entry.bytes.toList.length = entry.bytes.size := Array.length_toList
    rw [ConfirmEntry.length_encode] at hrecord
    refine ⟨next, ?_, ?_, ?_⟩
    · simp only [List.foldlM_cons, writeEntry, hfirst, hsecond, bind, Except.bind, pure,
        Except.pure]
      rw [hrest, ← hstringLength, List.length_cons, List.flatMap_cons, List.length_append,
        Nat.mul_succ, Nat.add_comm (recordLength * _), Nat.add_assoc, Nat.add_assoc]
    · rw [List.length_cons, Nat.mul_succ, Nat.add_comm (recordLength * _), ← Nat.add_assoc]
      exact (hrecord.followed hstring).trans hrecords'
    · rw [List.flatMap_cons, List.length_append, ← Nat.add_assoc]
      exact (hstring.preceded hrecord).trans hstrings'

/-- The lists from number `index` on fill in the directory, the records and the strings. -/
theorem writeLists_wrote {lists : ConfirmLists} (index : Nat) (hsize : bytes.size = target.size)
    (hdirectory : target.Holds (index * directoryEntryLength) (directory endian recordPlace lists))
    (hrecords : target.Holds recordPlace (records endian stringPlace lists.flatten))
    (hstrings : target.Holds stringPlace (strings lists)) :
    ∃ next, (lists.zipIdx index).foldlM (writeList endian) ⟨bytes, recordPlace, stringPlace⟩
        = .ok ⟨next, recordPlace + recordLength * entryCount lists,
            stringPlace + (strings lists).length⟩
      ∧ Wrote target bytes next (index * directoryEntryLength)
          (index * directoryEntryLength + directoryEntryLength * lists.length)
      ∧ Wrote target bytes next recordPlace (recordPlace + recordLength * entryCount lists)
      ∧ Wrote target bytes next stringPlace (stringPlace + (strings lists).length) := by
  induction lists generalizing bytes recordPlace stringPlace index with
  | nil => exact ⟨bytes, rfl, Wrote.refl .., Wrote.refl .., Wrote.refl ..⟩
  | cons list lists ih =>
    have hentry : (endian.encode 4 recordPlace ++ endian.encode 4 list.length).length
        = directoryEntryLength := by
      rw [List.length_append, Endian.length_encode, Endian.length_encode]
      rfl
    have hcount : entryCount (list :: lists) = list.length + entryCount lists := by
      rw [entryCount, List.flatten_cons, List.length_append, entryCount]
    have hbehind : (index + 1) * directoryEntryLength
        = index * directoryEntryLength + directoryEntryLength := Nat.succ_mul ..
    -- All three places move on: by one entry of the directory, by the records of `list` and by its
    -- strings.
    rw [directory] at hdirectory
    rw [List.flatten_cons, records_append] at hrecords
    rw [strings_cons] at hstrings
    have hdirectory' := hdirectory.right
    have hrecords' := hrecords.right
    rw [hentry, ← hbehind] at hdirectory'
    rw [length_records] at hrecords'
    obtain ⟨first, hfirst, hplaced⟩ := Bytes.write_wrote hsize hdirectory.left
    obtain ⟨second, hsecond, hlistRecords, hlistStrings⟩ :=
      writeEntries_wrote (hplaced.size.trans hsize) hrecords.left hstrings.left
    obtain ⟨next, hrest, hlaterDirectory, hlaterRecords, hlaterStrings⟩ :=
      ih (index + 1) (hlistRecords.size.trans (hplaced.size.trans hsize)) hdirectory' hrecords'
        hstrings.right
    rw [hentry] at hplaced
    refine ⟨next, ?_, ?_, ?_, ?_⟩
    · simp only [List.zipIdx_cons, List.foldlM_cons, writeList, hfirst, hsecond, bind, Except.bind]
      rw [hrest, hcount, strings_cons, List.length_append, Nat.mul_add, Nat.add_assoc,
        Nat.add_assoc]
    · rw [List.length_cons, Nat.mul_succ, Nat.add_comm (directoryEntryLength * _), ← Nat.add_assoc,
        ← hbehind]
      rw [← hbehind] at hplaced
      exact (hplaced.followed hlistRecords).trans hlaterDirectory
    · rw [hcount, Nat.mul_add, ← Nat.add_assoc]
      exact (hlistRecords.preceded hplaced).trans hlaterRecords
    · rw [strings_cons, List.length_append, ← Nat.add_assoc]
      exact (hlistStrings.preceded hplaced).trans hlaterStrings

/-- The directory, the records, the strings and the padding leave no gap. -/
theorem fill_wrote {lists : ConfirmLists} (hsize : bytes.size = target.size)
    (hlength : target.size = lists.encodedLength) (h : target.Holds 0 (lists.encode endian)) :
    ∃ next, lists.fill endian bytes = .ok next
      ∧ Wrote target bytes next 0 (lists.encode endian).length := by
  have hrecords := h.left.left.right
  have hstrings := h.left.right
  have hpadding := h.right
  simp only [List.length_append, length_directory, length_records, Nat.zero_add]
    at hrecords hstrings hpadding
  obtain ⟨middle, hlists, hdirectory, hrecords, hstrings⟩ :=
    @writeLists_wrote endian _ bytes (recordsStart lists) (stringsStart lists) lists 0 hsize
      (by rw [Nat.zero_mul]; exact h.left.left.left) hrecords hstrings
  have hmiddle : middle.size = target.size := hdirectory.size.trans hsize
  obtain ⟨next, hrest, hpadding⟩ := Bytes.write_wrote hmiddle hpadding
  rw [List.length_replicate] at hpadding
  have hpad : middle.size - (stringsStart lists + (strings lists).length)
      = paddingLength (bareLength lists) := by
    rw [hmiddle, hlength, encodedLength, bareLength, Nat.add_sub_cancel_left]
  refine ⟨next, ?_, ?_⟩
  · simp only [fill, hlists, bind, Except.bind, hpad]
    exact hrest
  · rw [Nat.zero_mul, Nat.zero_add] at hdirectory
    rw [length_encode]
    exact ((hdirectory.join hrecords).join hstrings).trans hpadding

theorem write_wrote {lists : ConfirmLists} (hsize : bytes.size = target.size)
    (h : target.Holds 0 (lists.encode endian)) :
    ∃ next, lists.write endian bytes = .ok next
      ∧ Wrote target bytes next 0 (lists.encode endian).length := by
  have hlength := length_encode endian lists
  have hroom := h.size_le
  rw [hlength, Nat.zero_add] at hroom
  obtain ⟨next, hrun, hwrote⟩ := @Bytes.within_wrote _ _ hsize 0 lists.encodedLength _
    (lists.fill endian) h (Nat.le_of_eq (by rw [hlength, Nat.zero_add])) hroom fill_wrote
  rw [Nat.zero_add] at hwrote
  refine ⟨next, ?_, hwrote⟩
  simp only [write, Bytes.requireRoom_eq_ok _ (hsize ▸ hroom), bind, Except.bind, hrun]

end ConfirmLists

/-! ## The flood region -/

namespace FloodIndex

variable {endian : Endian} {target bytes : Bytes}

theorem Fits.write_wrote {flood : FloodIndex} (hfits : flood.Fits)
    (hsize : bytes.size = target.size) (h : target.Holds 0 (flood.encode endian)) :
    ∃ next, flood.write endian bytes = .ok next
      ∧ Wrote target bytes next 0 (flood.encode endian).length := by
  have hrecord (record : FloodRecord) (hmem : record ∈ flood.records) :
      (record.encode endian).length = FloodRecord.encodedLength :=
    FloodRecord.length_encode endian (hfits.records record hmem).entries
  have hlength : (flood.encode endian).length = flood.encodedLength :=
    length_encode endian hfits.index_length fun record hmem => (hfits.records record hmem).entries
  have hindexLength : (flood.index.map (endian.encode 4)).flatten.length = indexLength := by
    rw [← List.flatMap_def, FloodRecord.length_flatMap_encode, hfits.index_length]
    rfl
  have hroom := h.size_le
  rw [hlength, Nat.zero_add] at hroom
  rw [encode, List.flatMap_def, List.flatMap_def] at h ⊢
  obtain ⟨middle, hfirst, hindex⟩ :=
    @Bytes.writeEach_wrote _ _ hsize 4 0 _ h.left fun part hpart => by
      obtain ⟨number, -, rfl⟩ := List.mem_map.1 hpart
      exact Endian.length_encode ..
  have hbehind := h.right
  rw [hindexLength, Nat.zero_add] at hindex hbehind
  obtain ⟨next, hsecond, hrecords⟩ :=
    @Bytes.writeEach_wrote _ _ (hindex.size.trans hsize) FloodRecord.encodedLength _ _ hbehind
      fun part hpart => by
        obtain ⟨record, hmem, rfl⟩ := List.mem_map.1 hpart
        exact hrecord record hmem
  refine ⟨next, ?_, ?_⟩
  · simp only [write, Bytes.requireRoom_eq_ok _ (hsize ▸ hroom), bind, Except.bind, hfirst,
      hsecond]
  · rw [List.length_append, hindexLength]
    exact hindex.trans hrecords

end FloodIndex

/-! ## The table -/

namespace LiteralTable

variable {buffer : Bytes} {bytes : List UInt8}

theorem size_fillStart (hroom : bytes.length ≤ buffer.size) :
    (fillStart buffer bytes).size = buffer.size := by
  simp only [fillStart, Array.size_append, List.size_toArray, Array.size_extract]
  omega

theorem holds_fillStart (buffer : Bytes) (bytes : List UInt8) :
    (fillStart buffer bytes).Holds 0 bytes :=
  ⟨[], (buffer.extract bytes.length).toList, by rw [fillStart, Array.toList_append]; rfl, rfl⟩

theorem getElem?_fillStart {place : Nat} (hplace : bytes.length ≤ place) :
    (fillStart buffer bytes)[place]? = buffer[place]? := by
  rw [fillStart, Array.getElem?_append_right (by simpa using hplace), Array.getElem?_extract]
  simp only [List.size_toArray, Nat.add_sub_cancel' hplace]
  split
  · rfl
  · rw [Array.getElem?_eq_none (by omega)]

/-- Filling the start of a buffer sets its first bytes. -/
theorem fillStart_eq_setFrom (hroom : bytes.length ≤ buffer.size) :
    fillStart buffer bytes = buffer.setFrom 0 bytes := by
  have hfits : 0 + bytes.length ≤ buffer.size := by omega
  apply Array.ext_getElem?
  intro i
  rw [Bytes.getElem?_setFrom hfits]
  split
  · next hin =>
    have hat := (holds_fillStart buffer bytes).getElem? (Nat.zero_add bytes.length ▸ hin.2)
    rwa [Nat.zero_add] at hat
  · exact getElem?_fillStart (by omega)

end LiteralTable

namespace Contents

/-- The buffer with the regions of a table in it, one after the other as they are written: the flood
region goes by the offset that the header has for it. -/
def setRegions (endian : Endian) (contents : Contents) (buffer : Bytes) : Bytes :=
  let buffer := buffer.setFrom 0 (contents.header.encode endian)
  let buffer := buffer.setFrom Header.encodedLength (contents.encodedWords endian)
  let buffer := buffer.setFrom contents.confirmOffset (contents.confirm.encode endian)
  buffer.setFrom contents.header.floodOffset (contents.flood.encode endian)

theorem header_floodOffset_le (contents : Contents) :
    contents.header.floodOffset ≤ contents.floodOffset := Nat.mod_le ..

theorem size_setRegions (endian : Endian) (contents : Contents) (buffer : Bytes) :
    (contents.setRegions endian buffer).size = buffer.size := by
  simp only [setRegions, Bytes.size_setFrom]

/-- A buffer that is too small for the body is refused before anything is written. -/
theorem write_of_size_lt (endian : Endian) {contents : Contents} {buffer : Bytes}
    (hshort : buffer.size < contents.bodyLength) :
    contents.write endian buffer = .error (.refused ⟨"literal table"⟩) := by
  simp only [write, Bytes.requireRoom, if_pos hshort, bind, Except.bind]

namespace PartsFit

variable {contents : Contents} (h : contents.PartsFit) {endian : Endian} {buffer : Bytes}
  (hroom : contents.bodyLength ≤ buffer.size)
include h hroom

/-- Neither the header nor one of the regions ends behind the body, even if the flood region is put
elsewhere than where it has its place. -/
theorem regions_le :
    0 + (contents.header.encode endian).length ≤ buffer.size
      ∧ Header.encodedLength + (contents.encodedWords endian).length ≤ buffer.size
      ∧ contents.confirmOffset + (contents.confirm.encode endian).length ≤ buffer.size
      ∧ contents.header.floodOffset + (contents.flood.encode endian).length ≤ buffer.size := by
  have hflood := contents.header_floodOffset_le
  rw [bodyLength, floodOffset, confirmOffset] at hroom
  rw [floodOffset, confirmOffset] at hflood
  rw [Header.length_encode, h.length_encodedWords, ConfirmLists.length_encode, h.length_flood,
    confirmOffset]
  omega

/-- Contents that fit a table are written without a refusal or a fault. -/
theorem write_eq : contents.write endian buffer = .ok (contents.setRegions endian buffer) := by
  obtain ⟨hheader, hwords, hconfirm, hflood⟩ := @regions_le _ h endian _ hroom
  have hfirst : buffer.write 0 (contents.header.encode endian)
      = .ok (buffer.setFrom 0 (contents.header.encode endian)) := if_pos hheader
  have hsecond {bytes : Bytes} (hsize : bytes.size = buffer.size) :
      bytes.writeEach contents.scheme.wordLength Header.encodedLength
          (contents.words.map (endian.encode contents.scheme.wordLength))
        = .ok (bytes.setFrom Header.encodedLength (contents.encodedWords endian)) := by
    refine Bytes.eq_setFrom_of_wrote (hsize ▸ hwords) fun hsame hholds => ?_
    rw [encodedWords, List.flatMap_def] at hholds ⊢
    refine Bytes.writeEach_wrote hsame hholds fun part hpart => ?_
    obtain ⟨word, -, rfl⟩ := List.mem_map.1 hpart
    exact Endian.length_encode ..
  have hthird {bytes : Bytes} (hsize : bytes.size = buffer.size) :
      bytes.within contents.confirmOffset bytes.size (contents.confirm.write endian)
        = .ok (bytes.setFrom contents.confirmOffset (contents.confirm.encode endian)) :=
    Bytes.eq_setFrom_of_wrote (hsize ▸ hconfirm) fun hsame hholds =>
      Bytes.within_wrote hsame hholds (hsize ▸ hconfirm) (Nat.le_of_eq hsame)
        fun hsame' _ hholds' => ConfirmLists.write_wrote hsame' hholds'
  have hfourth {bytes : Bytes} (hsize : bytes.size = buffer.size) :
      bytes.within contents.header.floodOffset bytes.size (contents.flood.write endian)
        = .ok (bytes.setFrom contents.header.floodOffset (contents.flood.encode endian)) :=
    Bytes.eq_setFrom_of_wrote (hsize ▸ hflood) fun hsame hholds =>
      Bytes.within_wrote hsame hholds (hsize ▸ hflood) (Nat.le_of_eq hsame)
        fun hsame' _ hholds' => h.flood.write_wrote hsame' hholds'
  have hwidth : contents.header.wordLength = contents.scheme.wordLength := rfl
  have hoffset : contents.header.confirmOffset = contents.confirmOffset := rfl
  have hsize₁ := Bytes.size_setFrom buffer 0 (contents.header.encode endian)
  have hsize₂ := (Bytes.size_setFrom _ Header.encodedLength (contents.encodedWords endian)).trans
    hsize₁
  have hsize₃ := (Bytes.size_setFrom _ contents.confirmOffset
    (contents.confirm.encode endian)).trans hsize₂
  simp only [write, Bytes.requireRoom_eq_ok _ hroom, hfirst, hwidth, hoffset, hsecond hsize₁, bind,
    Except.bind]
  rw [hthird hsize₂]
  exact hfourth hsize₃

/-- What lies behind the body stays as it is. -/
theorem getElem?_setRegions {place : Nat} (hplace : contents.bodyLength ≤ place) :
    (contents.setRegions endian buffer)[place]? = buffer[place]? := by
  obtain ⟨hheader, hwords, hconfirm, hflood⟩ := @regions_le _ h endian _ hroom
  have hbound := @regions_le _ h endian (.replicate contents.bodyLength 0)
    (Nat.le_of_eq Array.size_replicate.symm)
  rw [Array.size_replicate] at hbound
  rw [setRegions, Bytes.getElem?_setFrom (by simpa only [Bytes.size_setFrom] using hflood),
    if_neg (by omega), Bytes.getElem?_setFrom (by simpa only [Bytes.size_setFrom] using hconfirm),
    if_neg (by omega), Bytes.getElem?_setFrom (by simpa only [Bytes.size_setFrom] using hwords),
    if_neg (by omega), Bytes.getElem?_setFrom hheader, if_neg (by omega)]

end PartsFit

namespace Fits

variable {contents : Contents} (h : contents.Fits)
include h

/-- The regions are the body if every offset fits its field. -/
theorem setRegions_eq (endian : Endian) (buffer : Bytes) :
    contents.setRegions endian buffer = buffer.setFrom 0 (contents.body endian) := by
  have hoffset : contents.header.floodOffset = contents.floodOffset := by rw [h.header_eq]
  simp only [setRegions, body, Bytes.setFrom_append, hoffset, List.length_append,
    Header.length_encode, h.length_encodedWords, ConfirmLists.length_encode, Nat.zero_add]
  rfl

/-- What is written is the body of the table, and the rest of the buffer stays as it is. -/
theorem write_eq (endian : Endian) {buffer : Bytes} (hroom : contents.bodyLength ≤ buffer.size) :
    contents.write endian buffer
      = .ok (LiteralTable.fillStart buffer (contents.body endian)) := by
  rw [h.partsFit.write_eq hroom, h.setRegions_eq,
    LiteralTable.fillStart_eq_setFrom (by rwa [h.length_body])]

/-- A buffer of the right size is the body in the end. -/
theorem write_replicate_eq (endian : Endian) :
    contents.write endian (Array.replicate contents.bodyLength 0)
      = .ok (contents.body endian).toArray := by
  have hsize : (Array.replicate contents.bodyLength (0 : UInt8)).size = contents.bodyLength :=
    Array.size_replicate
  rw [h.write_eq endian (Nat.le_of_eq hsize.symm), LiteralTable.fillStart, h.length_body,
    Array.extract_empty_of_size_le_start (Nat.le_of_eq hsize), Array.append_empty]

end Fits

end Contents

end Multimatch
