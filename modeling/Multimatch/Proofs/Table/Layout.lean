import Multimatch.Proofs.Codec.Ensures
import Multimatch.Proofs.Scheme.Known
import Multimatch.Table.Basic

/-!
# Reading back what a table holds

`Contents.Fits` says that the parts of the contents fit the fields that are set aside for them. Laid
out in native order, such contents are read back as they were: the confirm lists
(`ConfirmLists.Fits.lists_eq`), the flood records (`FloodIndex.Fits.contents_eq`), the words and the
header. `Contents.Fits.contents_ofContents` puts the regions together, and
`Contents.Fits.exists_copy` does so where identifiers are not valid.
-/

namespace Multimatch

theorem Groups.ofNat_toNat (groups : Groups) : Groups.ofNat groups.toNat = groups :=
  BitVec.ofNat_toNat ..

theorem Groups.toNat_lt (groups : Groups) : groups.toNat < 1 <<< 64 := groups.isLt

/-! ## The confirm region -/

namespace ConfirmEntry

/-- The parts of an entry fit its record, and a validator accepts its bytes. -/
structure Fits (entry : ConfirmEntry) : Prop where
  bytes : entry.bytes.size ≠ 0
  quickValue : entry.quickValue < 1 <<< 64
  quickMask : entry.quickMask < 1 <<< 64

end ConfirmEntry

namespace ConfirmRegion

variable {region : ConfirmRegion}

theorem entryAt_eq {entry : ConfirmEntry} {place start : Nat} (hfits : entry.Fits)
    (hsize : region.bytes.size < 1 <<< 32)
    (hrecord : region.bytes.Holds place (entry.encode .native start))
    (hbytes : region.bytes.Holds start entry.bytes.toList) :
    region.entryAt place = .ok entry := by
  have hend : start + entry.bytes.size ≤ region.bytes.size := hbytes.size_le
  have hslice : region.bytes.slice start (start + entry.bytes.size) = .ok entry.bytes := by
    simpa using hbytes.slice
  have hflag : entry.nocase.toNat < 1 <<< 32 := by cases entry.nocase <;> decide
  simp only [ConfirmEntry.encode] at hrecord
  have hid := hrecord.left.left.left.left.left.left.wordAt entry.id.toNat_lt
  have hlength := hrecord.left.left.left.left.left.right.wordAt
    (Nat.lt_of_le_of_lt (by omega) hsize)
  have hstart := hrecord.left.left.left.left.right.wordAt (Nat.lt_of_le_of_lt (by omega) hsize)
  have hnocase := hrecord.left.left.left.right.wordAt hflag
  have hgroups := hrecord.left.left.right.wordAt (Groups.toNat_lt _)
  have hvalue := hrecord.left.right.wordAt hfits.quickValue
  have hmask := hrecord.right.wordAt hfits.quickMask
  simp only [List.length_append, Endian.length_encode]
    at hlength hstart hnocase hgroups hvalue hmask
  have htest : entry.nocase.toNat.testBit 0 = entry.nocase := by cases entry.nocase <;> rfl
  simp only [entryAt, hid, hlength, hstart, hslice, hnocase, hgroups, hvalue, hmask, bind,
    Except.bind, pure, Except.pure, htest, Ident.wrap_toNat, Groups.ofNat_toNat]

end ConfirmRegion

namespace ConfirmLists

open ConfirmEntry (recordLength)

/-- The records of one list are found one after the other, and the bytes of the literals with them:
both advance together. -/
theorem holds_record {bytes : Bytes} {entries : List ConfirmEntry} {place start : Nat}
    (hrecords : bytes.Holds place (records .native start entries))
    (hstrings : bytes.Holds start (entries.flatMap (·.bytes.toList)))
    {i : Nat} (hi : i < entries.length) :
    ∃ start', bytes.Holds (place + i * recordLength) (entries[i].encode .native start')
      ∧ bytes.Holds start' entries[i].bytes.toList := by
  induction entries generalizing place start i with
  | nil => cases hi
  | cons entry entries ih =>
    rw [records] at hrecords
    rw [List.flatMap_cons] at hstrings
    cases i with
    | zero =>
      rw [Nat.zero_mul, Nat.add_zero]
      exact ⟨start, hrecords.left, hstrings.left⟩
    | succ i =>
      have hrest := hrecords.right
      rw [ConfirmEntry.length_encode] at hrest
      have hnext := ih hrest (by simpa using hstrings.right) (Nat.lt_of_succ_lt_succ hi)
      rw [show place + (i + 1) * recordLength = place + recordLength + i * recordLength by
        rw [Nat.succ_mul]; omega]
      exact hnext

theorem records_append (endian : Endian) (start : Nat) (a b : List ConfirmEntry) :
    records endian start (a ++ b) = records endian start a
      ++ records endian (start + (a.flatMap (·.bytes.toList)).length) b := by
  induction a generalizing start with
  | nil => rfl
  | cons entry a ih =>
    simp only [List.cons_append, records, ih, List.append_assoc, List.flatMap_cons,
      List.length_append, Array.length_toList, Nat.add_assoc]

theorem strings_cons (list : List ConfirmEntry) (lists : ConfirmLists) :
    strings (list :: lists) = list.flatMap (·.bytes.toList) ++ strings lists := by
  simp [strings]

/-- Where the lists from number `first` on are found, given where the directory, the records and
the strings of these lists start. -/
theorem holds_list {bytes : Bytes} {lists : ConfirmLists} (first : Nat) {place start : Nat}
    (hdirectory : bytes.Holds (first * directoryEntryLength) (directory .native place lists))
    (hrecords : bytes.Holds place (records .native start lists.flatten))
    (hstrings : bytes.Holds start (strings lists)) {i : Nat} (hi : i < lists.length) :
    ∃ place' start', place ≤ place'
      ∧ bytes.Holds ((first + i) * directoryEntryLength) (Endian.native.encode 4 place')
      ∧ bytes.Holds ((first + i) * directoryEntryLength + 4)
          (Endian.native.encode 4 lists[i].length)
      ∧ bytes.Holds place' (records .native start' lists[i])
      ∧ bytes.Holds start' (lists[i].flatMap (·.bytes.toList)) := by
  induction lists generalizing first place start i with
  | nil => cases hi
  | cons list lists ih =>
    rw [directory] at hdirectory
    rw [List.flatten_cons, records_append] at hrecords
    rw [strings_cons] at hstrings
    cases i with
    | zero =>
      have hlength := hdirectory.left.right
      rw [Endian.length_encode] at hlength
      exact ⟨place, start, Nat.le_refl _, hdirectory.left.left, hlength, hrecords.left,
        hstrings.left⟩
    | succ i =>
      have hnext := hdirectory.right
      rw [List.length_append, Endian.length_encode, Endian.length_encode] at hnext
      have hrest := hrecords.right
      rw [length_records] at hrest
      obtain ⟨place', start', hle, hlater⟩ := @ih (first + 1) (place + recordLength * list.length) _
        (by rw [Nat.add_mul, Nat.one_mul]; exact hnext) hrest hstrings.right i
        (Nat.lt_of_succ_lt_succ hi)
      rw [Nat.add_assoc, Nat.add_comm 1 i] at hlater
      exact ⟨place', start', Nat.le_trans (Nat.le_add_right ..) hle, hlater⟩

/-- Where a list of a region of native order is found: its records start behind the directory, and
its entries are held there one after the other. -/
theorem wordsAt_list {region : ConfirmRegion} {lists : ConfirmLists}
    (hsize : region.bytes.size < 1 <<< 32)
    (hregion : region.bytes.Holds 0 (lists.encode .native)) {i : Nat} (hi : i < lists.length) :
    ∃ place, directoryEntryLength * lists.length ≤ place
      ∧ place + recordLength * lists[i].length ≤ region.bytes.size
      ∧ region.bytes.wordAt (i * directoryEntryLength) 4 = .ok place
      ∧ region.bytes.wordAt (i * directoryEntryLength + 4) 4 = .ok lists[i].length
      ∧ ∀ j (hj : j < lists[i].length), ∃ start,
          region.bytes.Holds (place + j * recordLength) (lists[i][j].encode .native start)
            ∧ region.bytes.Holds start lists[i][j].bytes.toList := by
  rw [encode] at hregion
  have hdirectory := hregion.left.left.left
  have hrecords := hregion.left.left.right
  have hstrings := hregion.left.right
  rw [length_directory, Nat.zero_add] at hrecords
  rw [List.length_append, length_directory, length_records, Nat.zero_add] at hstrings
  rw [← Nat.zero_mul directoryEntryLength] at hdirectory
  obtain ⟨place, start, hle, hplace, hlength, hentries, hbytes⟩ :=
    holds_list 0 hdirectory hrecords hstrings hi
  rw [Nat.zero_add] at hplace hlength
  have hend := hentries.size_le
  rw [length_records] at hend
  have hcount : lists[i].length ≤ recordLength * lists[i].length :=
    Nat.le_mul_of_pos_left _ (by decide)
  exact ⟨place, hle, hend, hplace.wordAt (Nat.lt_of_le_of_lt (by omega) hsize),
    hlength.wordAt (Nat.lt_of_le_of_lt (by omega) hsize),
    fun j hj => holds_record hentries hbytes hj⟩

/-- The lists of a region of native order are the lists that it was laid out from. -/
theorem lists_eq {region : ConfirmRegion} {lists : ConfirmLists}
    (hfits : ∀ list ∈ lists, ∀ entry ∈ list, entry.Fits) (hsize : region.bytes.size < 1 <<< 32)
    (hcount : lists.length = region.listCount)
    (hregion : region.bytes.Holds 0 (lists.encode .native)) : region.lists = .ok lists := by
  rw [ConfirmRegion.lists, mapM_range_eq_ok_iff]
  refine ⟨hcount, fun i hi => ?_⟩
  obtain ⟨place, -, -, hplace, hlength, hentries⟩ := wordsAt_list hsize hregion hi
  simp only [ConfirmRegion.list, hplace, hlength, bind, Except.bind]
  rw [mapM_range_eq_ok_iff]
  refine ⟨rfl, fun j hj => ?_⟩
  obtain ⟨start, hrecord, hbytes⟩ := hentries j hj
  exact ConfirmRegion.entryAt_eq (hfits _ (List.getElem_mem hi) _ (List.getElem_mem hj)) hsize
    hrecord hbytes

end ConfirmLists

/-! ## The flood region -/

namespace FloodRecord

/-- The parts of a record fit the fields that it has for them. -/
structure Fits (record : FloodRecord) : Prop where
  entries : record.entries.length ≤ maxEntries
  suffix : record.suffix < 1 <<< 32
  lengths : ∀ entry ∈ record.entries, entry.length < 1 <<< 32

theorem fits_empty {suffix : Nat} (hsuffix : suffix < 1 <<< 32) : (empty suffix).Fits :=
  ⟨Nat.zero_le _, hsuffix, nofun⟩

theorem column_holds {bytes : Bytes} {place width : Nat} {values : List Nat}
    (h : bytes.Holds place (column .native width values)) {i : Nat} (hi : i < values.length) :
    bytes.Holds (place + width * i) (Endian.native.encode width values[i]) :=
  h.left.flatMap (fun _ _ => Endian.length_encode ..) hi

/-- The identifiers of the entries are valid, so that a reader does not refuse them. -/
def IdsValid (record : FloodRecord) : Prop := ∀ entry ∈ record.entries, entry.id.IsValid

instance (record : FloodRecord) : Decidable record.IdsValid :=
  inferInstanceAs (Decidable (∀ entry ∈ record.entries, entry.id.IsValid))

section Read

variable {bytes : Bytes} {place : Nat} {record : FloodRecord}

/-- An entry is read back from the three columns, and refused if its identifier is not valid. -/
theorem readEntry_eq (hfits : record.Fits) (h : bytes.Holds place (record.encode .native)) {i : Nat}
    (hi : i < record.entries.length) : readEntry bytes place i =
      if record.entries[i].id.IsValid then .ok record.entries[i]
      else .error (.refused (.badLiteralId ⟨record.entries[i].id.toNat⟩)) := by
  have hcolumn (width : Nat) (value : FloodEntry → Nat) :
      (column .native width (record.entries.map value)).length = width * maxEntries :=
    length_column _ width (by rw [List.length_map]; exact hfits.entries)
  simp only [encode] at h
  have hids := h.left.left.right
  have hgroups := h.left.right
  have hlengths := h.right
  simp only [List.length_append, Endian.length_encode, List.length_replicate] at hids
  simp only [List.length_append, Endian.length_encode, List.length_replicate, hcolumn]
    at hgroups hlengths
  have hid : bytes.wordAt (place + idsStart + 4 * i) 4 = .ok record.entries[i].id.toNat := by
    have := (column_holds hids (by simpa using hi)).wordAt
      (by rw [List.getElem_map]; exact Ident.toNat_lt _)
    rwa [List.getElem_map] at this
  have hgroup : bytes.wordAt (place + groupsStart + 8 * i) 8
      = .ok record.entries[i].groups.toNat := by
    have := (column_holds hgroups (by simpa using hi)).wordAt
      (by rw [List.getElem_map]; exact Groups.toNat_lt _)
    rwa [List.getElem_map] at this
  have hlength : bytes.wordAt (place + lengthsStart + 4 * i) 4
      = .ok record.entries[i].length := by
    have := (column_holds hlengths (by simpa using hi)).wordAt
      (by rw [List.getElem_map]; exact hfits.lengths _ (List.getElem_mem hi))
    rwa [List.getElem_map] at this
  simp only [readEntry, Reader.tryLiteralIdAt_eq _ hid, hgroup, hlength, Failure.liftM_ok]
  split
  · simp only [bind, Except.bind, Groups.ofNat_toNat]
    rfl
  · rfl

/-- A record is read back once its entries are. -/
theorem read_eq_mapM (hfits : record.Fits) (h : bytes.Holds place (record.encode .native)) :
    read bytes place = (do
      let entries ← (List.range record.entries.length).mapM (readEntry bytes place)
      return { record with entries }) := by
  have hsize := h.size_le
  rw [length_encode _ hfits.entries] at hsize
  have hcount : record.entries.length < 1 <<< (8 * 2) :=
    Nat.lt_of_le_of_lt hfits.entries (by decide)
  simp only [encode] at h
  have hall := h.left.left.left.left.left.left.wordAt (Groups.toNat_lt record.allGroups)
  have hsuffix := h.left.left.left.left.left.right.wordAt hfits.suffix
  have hlength := h.left.left.left.left.right.wordAt hcount
  rw [Endian.length_encode] at hsuffix
  simp only [List.length_append, Endian.length_encode] at hlength
  have hplace : ¬ bytes.size < place := by omega
  have hroom : ¬ bytes.size - place < encodedLength := by omega
  have hfull : record.entries.length ≤ maxEntries := hfits.entries
  simp only [read, hplace, if_false, Reader.checkLength, hroom, hlength, hsuffix, hall,
    Failure.liftM_ok, Load.require, hfull, if_true, bind, Except.bind, Groups.ofNat_toNat]
  rfl

theorem read_eq (hfits : record.Fits) (hvalid : record.IdsValid)
    (h : bytes.Holds place (record.encode .native)) : read bytes place = .ok record := by
  have hentries : (List.range record.entries.length).mapM (readEntry bytes place)
      = .ok record.entries := by
    refine mapM_range_eq_ok_iff.2 ⟨rfl, fun i hi => ?_⟩
    rw [readEntry_eq hfits h hi, if_pos (hvalid _ (List.getElem_mem hi))]
  rw [read_eq_mapM hfits h, hentries]
  rfl

/-- A record with identifiers that are not valid is refused. -/
theorem read_ensures (hfits : record.Fits) (h : bytes.Holds place (record.encode .native)) :
    Load.Ensures (read bytes place) fun copy => copy = record ∧ record.IdsValid := by
  rw [read_eq_mapM hfits h]
  have hentries := @Load.ensures_mapM _ _ (readEntry bytes place)
    (fun i entry => record.entries[i]? = some entry ∧ entry.id.IsValid)
    (List.range record.entries.length) fun i hi => by
      have hi := List.mem_range.1 hi
      rw [readEntry_eq hfits h hi]
      split
      · next hvalid => exact ⟨List.getElem?_eq_getElem hi, hvalid⟩
      · exact trivial
  refine hentries.bind fun entries hall => ?_
  have hlength : entries.length = record.entries.length := by
    rw [← hall.length_eq, List.length_range]
  have hget (i : Nat) (hi : i < entries.length) :
      record.entries[i]? = some entries[i] ∧ entries[i].id.IsValid := by
    have hboth := hall.get (by rwa [List.length_range, ← hlength]) hi
    simpa using hboth
  have heq : entries = record.entries :=
    List.ext_getElem hlength fun i h₁ h₂ =>
      Option.some.inj ((hget i h₁).1.symm.trans (List.getElem?_eq_getElem h₂))
  subst heq
  refine ⟨rfl, fun entry hentry => ?_⟩
  obtain ⟨i, hi, rfl⟩ := List.getElem_of_mem hentry
  exact (hget i hi).2

end Read

end FloodRecord

namespace FloodIndex

/-- Every byte has the number of a record that exists, and the first record is empty. -/
structure Fits (flood : FloodIndex) : Prop where
  index_length : flood.index.length = 256
  index_lt : ∀ number ∈ flood.index, number < flood.records.length
  records : ∀ record ∈ flood.records, record.Fits
  first : ∃ record, flood.records[0]? = some record ∧ record.entries = []

/-- The record of a byte whose floods may take the flood path. -/
def lookup? (flood : FloodIndex) (byte : UInt8) : Option FloodRecord :=
  match flood.index[byte.toNat]? with
  | none | some 0 => none
  | some (number + 1) => flood.records[number + 1]?.filter fun record => !record.entries.isEmpty

variable {flood : FloodIndex} {region : FloodRegion}

theorem Fits.recordNumber_eq (hfits : flood.Fits) (hlt : flood.records.length < 1 <<< 32)
    (hregion : region.bytes.Holds 0 (flood.encode .native)) {byte : Nat}
    (hbyte : byte < flood.index.length) : region.recordNumber byte = .ok flood.index[byte] := by
  have hword := (hregion.left.flatMap (fun _ _ => Endian.length_encode ..) hbyte).wordAt
    (Nat.lt_trans (hfits.index_lt _ (List.getElem_mem hbyte)) hlt)
  rw [Nat.zero_add, Nat.mul_comm] at hword
  exact hword

theorem Fits.index_eq (hfits : flood.Fits) (hlt : flood.records.length < 1 <<< 32)
    (hregion : region.bytes.Holds 0 (flood.encode .native)) :
    (List.range 256).mapM region.recordNumber = .ok flood.index :=
  mapM_range_eq_ok_iff.2 ⟨hfits.index_length, fun _ hi => hfits.recordNumber_eq hlt hregion hi⟩

theorem Fits.holds_record (hfits : flood.Fits)
    (hregion : region.bytes.Holds 0 (flood.encode .native)) {number : Nat}
    (hnumber : number < flood.records.length) :
    region.bytes.Holds (FloodRegion.recordStart number) (flood.records[number].encode .native) := by
  have hrecords := hregion.right
  rw [FloodRecord.length_flatMap_encode, hfits.index_length] at hrecords
  have hrecord := hrecords.flatMap
    (fun r hr => FloodRecord.length_encode .native (hfits.records r hr).entries) hnumber
  rw [Nat.zero_add, Nat.mul_comm FloodRecord.encodedLength] at hrecord
  exact hrecord

theorem Fits.read_eq (hfits : flood.Fits) (hvalid : ∀ record ∈ flood.records, record.IdsValid)
    (hregion : region.bytes.Holds 0 (flood.encode .native)) {number : Nat}
    (hnumber : number < flood.records.length) :
    FloodRecord.read region.bytes (FloodRegion.recordStart number) = .ok flood.records[number] :=
  FloodRecord.read_eq (hfits.records _ (List.getElem_mem hnumber))
    (hvalid _ (List.getElem_mem hnumber)) (hfits.holds_record hregion hnumber)

theorem Fits.recordAt_eq (hfits : flood.Fits) (hvalid : ∀ record ∈ flood.records, record.IdsValid)
    (hregion : region.bytes.Holds 0 (flood.encode .native)) {number : Nat}
    (hnumber : number < flood.records.length) :
    region.recordAt number = .ok flood.records[number] := by
  rw [FloodRegion.recordAt, hfits.read_eq hvalid hregion hnumber]

/-- A record is read as it was written or, if its identifiers are not valid, as an empty one. -/
theorem Fits.recordAt_eq_ite (hfits : flood.Fits)
    (hregion : region.bytes.Holds 0 (flood.encode .native)) {number : Nat}
    (hnumber : number < flood.records.length) :
    region.recordAt number = .ok (if flood.records[number].IdsValid then flood.records[number]
      else FloodRecord.empty 0) := by
  have hrecord := hfits.records _ (List.getElem_mem hnumber)
  have hholds := hfits.holds_record hregion hnumber
  rw [FloodRegion.recordAt]
  by_cases hvalid : flood.records[number].IdsValid
  · rw [FloodRecord.read_eq hrecord hvalid hholds, if_pos hvalid]
  · rw [if_neg hvalid]
    have hread := FloodRecord.read_ensures hrecord hholds
    generalize FloodRecord.read region.bytes (FloodRegion.recordStart number) = read at hread ⊢
    match read, hread with
    | .ok _, hread => exact absurd hread.2 hvalid
    | .error (.refused _), _ => rfl

theorem Fits.recordAt_or (hfits : flood.Fits)
    (hregion : region.bytes.Holds 0 (flood.encode .native)) {number : Nat}
    (hnumber : number < flood.records.length) :
    region.recordAt number = .ok flood.records[number]
      ∨ region.recordAt number = .ok (FloodRecord.empty 0) := by
  rw [hfits.recordAt_eq_ite hregion hnumber]
  split
  · exact .inl rfl
  · exact .inr rfl

theorem Fits.recordCount_eq (hsize : region.bytes.size = flood.encodedLength) :
    region.recordCount = flood.records.length := by
  rw [FloodRegion.recordCount, hsize, encodedLength, Nat.add_sub_cancel_left]
  exact Nat.mul_div_cancel_left _ (by decide)

/-- A region of native order holds the index and the records that it was laid out from. -/
theorem Fits.contents_eq (hfits : flood.Fits) (hvalid : ∀ record ∈ flood.records, record.IdsValid)
    (hlt : flood.records.length < 1 <<< 32)
    (hsize : region.bytes.size = flood.encodedLength)
    (hregion : region.bytes.Holds 0 (flood.encode .native)) : region.contents = .ok flood := by
  have hindex := hfits.index_eq hlt hregion
  have hrecords : (List.range region.recordCount).mapM region.recordAt = .ok flood.records :=
    mapM_range_eq_ok_iff.2
      ⟨(Fits.recordCount_eq hsize).symm, fun _ hi => hfits.recordAt_eq hvalid hregion hi⟩
  simp only [FloodRegion.contents, hindex, hrecords, bind, Except.bind]
  rfl

/-- A region of native order is read whatever its identifiers are. A record with one that is not
valid is read as an empty one. -/
theorem Fits.exists_contents (hfits : flood.Fits) (hlt : flood.records.length < 1 <<< 32)
    (hsize : region.bytes.size = flood.encodedLength)
    (hregion : region.bytes.Holds 0 (flood.encode .native)) :
    ∃ copy, region.contents = .ok copy ∧ copy.Fits
      ∧ copy.records.length = flood.records.length := by
  have hindex := hfits.index_eq hlt hregion
  have hcount : region.recordCount = flood.records.length := Fits.recordCount_eq hsize
  have hread : ∀ number ∈ List.range region.recordCount, ∃ record,
      region.recordAt number = .ok record ∧ record.Fits := fun number hnumber => by
    have hnumber : number < flood.records.length := hcount ▸ List.mem_range.1 hnumber
    rcases hfits.recordAt_or hregion hnumber with hrecord | hrecord
    · exact ⟨_, hrecord, hfits.records _ (List.getElem_mem hnumber)⟩
    · exact ⟨_, hrecord, FloodRecord.fits_empty (by decide)⟩
  obtain ⟨records, hrecords, hall⟩ := exists_mapM_eq_ok_of_forall hread
  obtain ⟨hlength, hat⟩ := mapM_range_eq_ok_iff.1 hrecords
  rw [hcount] at hlength
  refine ⟨⟨flood.index, records⟩, ?_, ⟨hfits.index_length, ?_, hall, ?_⟩, hlength⟩
  · simp only [FloodRegion.contents, hindex, hrecords, bind, Except.bind]
    rfl
  · rw [hlength]
    exact hfits.index_lt
  · obtain ⟨first, hfirst, hempty⟩ := hfits.first
    obtain ⟨hpos, rfl⟩ := List.getElem?_eq_some_iff.1 hfirst
    have hzero := hat 0 (hlength ▸ hpos)
    refine ⟨_, List.getElem?_eq_getElem (hlength ▸ hpos), ?_⟩
    rcases hfits.recordAt_or hregion hpos with hrecord | hrecord
    · rw [Except.ok.inj (hzero.symm.trans hrecord), hempty]
    · rw [Except.ok.inj (hzero.symm.trans hrecord)]
      rfl

/-- A byte has the record that the index has for it, if the identifiers there are valid. -/
theorem Fits.record?_eq (hfits : flood.Fits) (hlt : flood.records.length < 1 <<< 32)
    (hregion : region.bytes.Holds 0 (flood.encode .native)) (byte : UInt8) :
    region.record? byte = .ok ((flood.lookup? byte).filter (·.IdsValid)) := by
  have hbyte : byte.toNat < flood.index.length := by
    rw [hfits.index_length]
    exact byte.toNat_lt
  have hnumber := hfits.recordNumber_eq hlt hregion hbyte
  have hin := hfits.index_lt _ (List.getElem_mem hbyte)
  simp only [FloodRegion.record?, hnumber, bind, Except.bind, lookup?,
    List.getElem?_eq_getElem hbyte]
  generalize flood.index[byte.toNat] = number at hin ⊢
  cases number with
  | zero => rfl
  | succ number =>
    simp only [Nat.succ_ne_zero, if_false, List.getElem?_eq_getElem hin, Option.filter_some,
      hfits.recordAt_eq_ite hregion hin]
    by_cases hvalid : flood.records[number + 1].IdsValid
    · rw [if_pos hvalid]
      cases hempty : flood.records[number + 1].entries.isEmpty with
      | true => rfl
      | false => simp [Option.filter_some, hvalid, pure, Except.pure]
    · rw [if_neg hvalid]
      cases hempty : flood.records[number + 1].entries.isEmpty with
      | true => rfl
      | false => simp [Option.filter_some, hvalid, FloodRecord.empty, pure, Except.pure]

end FloodIndex

/-! ## The header -/

namespace Header

/-- The numbers of a header fit its fields. -/
structure Fits (header : Header) : Prop where
  schemeId : header.schemeId < 1 <<< 32
  size : header.size < 1 <<< 32
  maxLength : header.maxLength < 1 <<< 32
  floodOffset : header.floodOffset < 1 <<< 32
  confirmOffset : header.confirmOffset < 1 <<< 32
  domain : header.domain < 1 <<< 8
  wordLength : header.wordLength < 1 <<< 8
  keyMask : header.keyMask < 1 <<< 16
  tableSize : header.tableSize < 1 <<< 32

theorem Fits.read_eq {header : Header} (hfits : header.Fits) {bytes : Bytes} {place : Nat}
    (h : bytes.Holds place (header.encode .native)) : Header.read bytes place = .ok header := by
  have hsize := h.size_le
  rw [length_encode] at hsize
  simp only [encode] at h
  have hid := h.left.left.left.left.left.left.left.left.left.wordAt hfits.schemeId
  have hlen := h.left.left.left.left.left.left.left.left.right.wordAt hfits.size
  have hmax := h.left.left.left.left.left.left.left.right.wordAt hfits.maxLength
  have hflood := h.left.left.left.left.left.left.right.wordAt hfits.floodOffset
  have hconfirm := h.left.left.left.left.left.right.wordAt hfits.confirmOffset
  have hdomain := h.left.left.left.left.right.wordAt hfits.domain
  have hwidth := h.left.left.left.right.wordAt hfits.wordLength
  have hmask := h.left.left.right.wordAt hfits.keyMask
  have htable := h.left.right.wordAt hfits.tableSize
  simp only [List.length_append, Endian.length_encode, Nat.reduceAdd] at hlen hmax hflood hconfirm
  simp only [List.length_append, Endian.length_encode, Nat.reduceAdd] at hdomain hwidth hmask htable
  have hplace : ¬ bytes.size < place := by omega
  have hroom : ¬ bytes.size - place < encodedLength := by omega
  simp only [Header.read, hplace, if_false, Reader.checkLength, hroom, hid, hlen, hmax, hflood,
    hconfirm, hdomain, hwidth, hmask, htable, Failure.liftM_ok, bind, Except.bind]
  rfl

end Header

/-! ## The table -/

namespace Contents

/-- The contents fit a table: there is a word for every key and a list for every part of a bucket,
and offsets have 32 bits. -/
structure Fits (contents : Contents) : Prop where
  scheme : contents.scheme.IsKnown
  maxLength_ne_zero : contents.maxLength ≠ 0
  maxLength_lt : contents.maxLength < offsetLimit
  words_length : contents.words.length = contents.scheme.entries
  words_lt : ∀ word ∈ contents.words, word < 1 <<< contents.scheme.width
  confirm_length : contents.confirm.length = contents.scheme.buckets <<< contents.scheme.split
  confirm : ∀ list ∈ contents.confirm, ∀ entry ∈ list, entry.Fits
  flood : contents.flood.Fits
  bodyLength_lt : contents.bodyLength < offsetLimit

/-- The parts of the contents fit a table, be it that offsets need more than 32 bits. -/
structure PartsFit (contents : Contents) : Prop where
  scheme : contents.scheme.IsKnown
  maxLength_ne_zero : contents.maxLength ≠ 0
  maxLength_lt : contents.maxLength < offsetLimit
  words_length : contents.words.length = contents.scheme.entries
  words_lt : ∀ word ∈ contents.words, word < 1 <<< contents.scheme.width
  confirm_length : contents.confirm.length = contents.scheme.buckets <<< contents.scheme.split
  confirm : ∀ list ∈ contents.confirm, ∀ entry ∈ list, entry.Fits
  flood : contents.flood.Fits

/-- The identifiers in the contents are valid, so that a reader does not refuse them. -/
structure IdsValid (contents : Contents) : Prop where
  confirm : ∀ list ∈ contents.confirm, ∀ entry ∈ list, entry.id.IsValid
  flood : ∀ record ∈ contents.flood.records, record.IdsValid

theorem confirmOffset_le (contents : Contents) : contents.confirmOffset ≤ contents.floodOffset :=
  Nat.le_add_right ..

theorem floodOffset_le (contents : Contents) : contents.floodOffset ≤ contents.bodyLength :=
  Nat.le_add_right ..

namespace PartsFit

variable {contents : Contents} (h : contents.PartsFit)
include h

theorem fits (hlt : contents.bodyLength < offsetLimit) : contents.Fits :=
  { h with bodyLength_lt := hlt }

theorem length_encodedWords (endian : Endian) :
    (contents.encodedWords endian).length = contents.scheme.tableSize := by
  rw [encodedWords, FloodRecord.length_flatMap_encode, h.words_length, Scheme.tableSize]

theorem length_flood (endian : Endian) :
    (contents.flood.encode endian).length = contents.flood.encodedLength :=
  FloodIndex.length_encode endian h.flood.index_length fun r hr => (h.flood.records r hr).entries

/-- The body takes as many bytes as its header says, if these are not too many. -/
theorem length_body (endian : Endian) : (contents.body endian).length = contents.bodyLength := by
  simp only [body, List.length_append, Header.length_encode, h.length_encodedWords,
    ConfirmLists.length_encode, h.length_flood, bodyLength, floodOffset, confirmOffset]

end PartsFit

namespace Fits

variable {contents : Contents} (h : contents.Fits)
include h

theorem partsFit : contents.PartsFit := { h with }

theorem records_lt : contents.flood.records.length < 1 <<< 32 := by
  have hle : contents.flood.records.length ≤ contents.flood.encodedLength :=
    Nat.le_trans (Nat.le_mul_of_pos_left _ (by decide)) (Nat.le_add_left ..)
  exact Nat.lt_of_le_of_lt (Nat.le_trans hle (Nat.le_add_left ..)) h.bodyLength_lt

theorem header_eq : contents.header =
    { schemeId := contents.scheme.id
      size := contents.bodyLength
      maxLength := contents.maxLength
      floodOffset := contents.floodOffset
      confirmOffset := contents.confirmOffset
      domain := contents.scheme.bits
      wordLength := contents.scheme.wordLength
      keyMask := contents.scheme.keyMask
      tableSize := contents.scheme.tableSize } := by
  have hflood := Nat.lt_of_le_of_lt contents.floodOffset_le h.bodyLength_lt
  simp only [header, Nat.mod_eq_of_lt h.bodyLength_lt, Nat.mod_eq_of_lt h.maxLength_lt,
    Nat.mod_eq_of_lt hflood]

theorem header_fits : contents.header.Fits := by
  have hbody : contents.bodyLength < 1 <<< 32 := h.bodyLength_lt
  have hflood := contents.floodOffset_le
  have hconfirm := contents.confirmOffset_le
  have hid := h.scheme.id_lt
  have hbits : contents.scheme.bits ≤ 15 := h.scheme.domain.2
  have hwidth := h.scheme.wordLength_le
  have hentries := h.scheme.entries_le
  have htable := h.scheme.tableSize_le
  rw [h.header_eq]
  refine ⟨?_, hbody, h.maxLength_lt, ?_, ?_, ?_, ?_, ?_, ?_⟩
  · exact Nat.lt_of_lt_of_le hid (by decide)
  · exact Nat.lt_of_le_of_lt hflood hbody
  · exact Nat.lt_of_le_of_lt (Nat.le_trans hconfirm hflood) hbody
  · exact Nat.lt_of_le_of_lt hbits (by decide)
  · exact Nat.lt_of_le_of_lt hwidth (by decide)
  · exact Nat.lt_of_le_of_lt (Nat.le_trans (Nat.sub_le ..) hentries) (by decide)
  · exact Nat.lt_of_le_of_lt htable (by decide)

theorem length_encodedWords (endian : Endian) :
    (contents.encodedWords endian).length = contents.scheme.tableSize :=
  h.partsFit.length_encodedWords endian

theorem length_flood (endian : Endian) :
    (contents.flood.encode endian).length = contents.flood.encodedLength :=
  h.partsFit.length_flood endian

theorem length_body (endian : Endian) : (contents.body endian).length = contents.bodyLength :=
  h.partsFit.length_body endian

theorem size_arena : (LiteralTable.ofContents contents).arena.size = contents.bodyLength :=
  h.length_body .native

variable {bytes : Bytes} {place : Nat} {endian : Endian}
  (hbody : bytes.Holds place (contents.body endian))

omit h in
include hbody in
theorem holds_header : bytes.Holds place (contents.header.encode endian) := hbody.left.left.left

omit h in
include hbody in
theorem holds_words :
    bytes.Holds (place + Header.encodedLength) (contents.encodedWords endian) := by
  have := hbody.left.left.right
  rwa [Header.length_encode] at this

include hbody in
theorem holds_confirm :
    bytes.Holds (place + contents.confirmOffset) (contents.confirm.encode endian) := by
  have := hbody.left.right
  rwa [List.length_append, Header.length_encode, h.length_encodedWords] at this

include hbody in
theorem holds_flood :
    bytes.Holds (place + contents.floodOffset) (contents.flood.encode endian) := by
  have := hbody.right
  rwa [List.length_append, List.length_append, Header.length_encode, h.length_encodedWords,
    ConfirmLists.length_encode] at this

omit hbody

theorem wordAt_eq {key : Nat} (hkey : key < contents.words.length) :
    (LiteralTable.ofContents contents).wordAt key = .ok contents.words[key] := by
  have hwords := holds_words (Bytes.Holds.refl (contents.body .native))
  have hword := (hwords.flatMap (fun _ _ => Endian.length_encode ..) hkey).wordAt
    (by rw [Nat.mul_comm, h.scheme.wordLength_mul]; exact h.words_lt _ (List.getElem_mem hkey))
  rw [Nat.zero_add, Nat.mul_comm] at hword
  exact hword

theorem confirmRegion_eq : (LiteralTable.ofContents contents).confirmRegion
    = .ok (.of contents.scheme (contents.confirm.encode .native).toArray) := by
  have hslice := (h.holds_confirm (Bytes.Holds.refl (contents.body .native))).slice
  rw [ConfirmLists.length_encode, Nat.zero_add] at hslice
  have hheader : (LiteralTable.ofContents contents).header = contents.header := rfl
  have harena : (LiteralTable.ofContents contents).arena = (contents.body .native).toArray := rfl
  simp only [LiteralTable.confirmRegion, hheader, harena, h.header_eq]
  rw [show contents.floodOffset = contents.confirmOffset + contents.confirm.encodedLength from rfl,
    hslice]
  rfl

theorem floodRegion_eq : (LiteralTable.ofContents contents).floodRegion
    = .ok ⟨(contents.flood.encode .native).toArray⟩ := by
  have hslice := (h.holds_flood (Bytes.Holds.refl (contents.body .native))).slice
  rw [h.length_flood, Nat.zero_add] at hslice
  have hheader : (LiteralTable.ofContents contents).header = contents.header := rfl
  simp only [LiteralTable.floodRegion, hheader, h.header_eq, h.size_arena]
  rw [show contents.bodyLength = contents.floodOffset + contents.flood.encodedLength from rfl]
  simp only [LiteralTable.ofContents, hslice]
  rfl

theorem size_confirm_lt :
    (ConfirmRegion.of contents.scheme (contents.confirm.encode .native).toArray).bytes.size
      < 1 <<< 32 := by
  have hle : contents.floodOffset ≤ contents.bodyLength := contents.floodOffset_le
  have hlt : contents.bodyLength < 1 <<< 32 := h.bodyLength_lt
  simp only [ConfirmRegion.of, List.size_toArray, ConfirmLists.length_encode]
  exact Nat.lt_of_le_of_lt (Nat.le_trans (Nat.le_add_left ..) hle) hlt

theorem confirm_lists_eq :
    (ConfirmRegion.of contents.scheme (contents.confirm.encode .native).toArray).lists
      = .ok contents.confirm :=
  ConfirmLists.lists_eq h.confirm h.size_confirm_lt h.confirm_length (Bytes.Holds.refl _)

theorem flood_record?_eq (byte : UInt8) :
    FloodRegion.record? ⟨(contents.flood.encode .native).toArray⟩ byte
      = .ok ((contents.flood.lookup? byte).filter (·.IdsValid)) :=
  h.flood.record?_eq h.records_lt (Bytes.Holds.refl _) byte

theorem floodRecord?_eq (byte : UInt8) : (LiteralTable.ofContents contents).floodRecord? byte
    = .ok ((contents.flood.lookup? byte).filter (·.IdsValid)) := by
  simp only [LiteralTable.floodRecord?, h.floodRegion_eq, h.flood_record?_eq, bind, Except.bind]

/-- A table holds the contents that it was laid out from, with what is read from its flood
region. -/
theorem contents_of_flood {flood : FloodIndex}
    (hflood : FloodRegion.contents ⟨(contents.flood.encode .native).toArray⟩ = .ok flood) :
    (LiteralTable.ofContents contents).contents = .ok { contents with flood } := by
  have hwords : (List.range contents.scheme.entries).mapM (LiteralTable.ofContents contents).wordAt
      = .ok contents.words :=
    mapM_range_eq_ok_iff.2 ⟨h.words_length, fun _ hi => h.wordAt_eq hi⟩
  have hscheme : (LiteralTable.ofContents contents).scheme = contents.scheme := rfl
  have hheader : (LiteralTable.ofContents contents).header = contents.header := rfl
  simp only [LiteralTable.contents, hscheme, hheader, hwords, h.confirmRegion_eq,
    h.confirm_lists_eq, h.floodRegion_eq, hflood, h.header_eq, bind, Except.bind]
  rfl

/-- A table holds the contents that it was laid out from. -/
theorem contents_ofContents (hvalid : contents.IdsValid) :
    (LiteralTable.ofContents contents).contents = .ok contents :=
  h.contents_of_flood <| h.flood.contents_eq hvalid.flood h.records_lt (h.length_flood .native)
    (Bytes.Holds.refl _)

/-- A table can be read whatever its identifiers are. Where some are not valid, the copy has other
flood records, but as many. -/
theorem exists_copy : ∃ flood, (LiteralTable.ofContents contents).contents
      = .ok { contents with flood } ∧ { contents with flood }.Fits
      ∧ flood.records.length = contents.flood.records.length
      ∧ { contents with flood }.bodyLength
        = (LiteralTable.ofContents contents).arena.size := by
  obtain ⟨flood, hflood, hfits, hlength⟩ :=
    @FloodIndex.Fits.exists_contents _ ⟨(contents.flood.encode .native).toArray⟩ h.flood
      h.records_lt (h.length_flood .native) (Bytes.Holds.refl _)
  have hbody : { contents with flood }.bodyLength = contents.bodyLength := by
    simp only [bodyLength, FloodIndex.encodedLength, hlength]
    rfl
  exact ⟨flood, h.contents_of_flood hflood,
    { h with flood := hfits, bodyLength_lt := hbody ▸ h.bodyLength_lt }, hlength,
    hbody.trans h.size_arena.symm⟩

end Fits

end Contents

end Multimatch
