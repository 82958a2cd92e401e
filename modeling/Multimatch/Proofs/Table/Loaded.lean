import Multimatch.Proofs.Table.Layout
import Multimatch.Table.Saved

/-!
# Loaded tables

Loading never faults, whatever the bytes are, and a table that it accepts can be read: each
validator establishes what the later reads of its region rely on (`Load.Ensures`).
`LiteralTable.Decodes` says what contents a table has, and loading makes sure that it has some, all
of whose parts fit their fields (`LiteralTable.load_decodes`). `LiteralTable.Loaded` is what a scan
needs of that. A list is decoded without checks later on, so that its validator has to look at every
record; a flood record is checked again when it is read.
-/

namespace Multimatch

open Load (Ensures)

/-- Where the bytes exist, a word can be read. -/
theorem Bytes.exists_wordAt {bytes : Bytes} {place width : Nat} (h : place + width ≤ bytes.size) :
    ∃ word, bytes.wordAt place width = .ok word :=
  ⟨_, Bytes.wordAt_eq_ok h⟩

/-! ## The confirm region -/

namespace ConfirmRegion

open ConfirmLists (directoryEntryLength)
open ConfirmEntry (recordLength)

variable {region : ConfirmRegion}

/-- An entry can be read from a record that is accepted, if the region has all of the record. -/
theorem checkRecord_ensures {place : Nat} (hroom : place + recordLength ≤ region.bytes.size) :
    Ensures (region.checkRecord place) fun _ =>
      ∃ entry, region.entryAt place = .ok entry ∧ entry.Fits ∧ entry.id.IsValid := by
  have hroom : place + 40 ≤ region.bytes.size := hroom
  have hword (offset width : Nat) (h : offset + width ≤ 40) :=
    @Bytes.exists_wordAt region.bytes (place + offset) width (by omega)
  refine (Reader.ensures_tryLiteralIdAt (by omega)).bind fun id ⟨hvalid, hid⟩ => ?_
  refine (Reader.ensures_tryWordAt (by omega)).bind fun length hlength => ?_
  refine (Reader.ensures_tryWordAt (by omega)).bind fun start hstart => ?_
  refine Reader.ensures_add.bind fun stop hstop => ?_
  subst hstop
  refine Load.ensures_require.imp fun _ ⟨hne, hle⟩ => ?_
  have hslice := Bytes.slice_eq_ok (Nat.le_add_right start length) hle
  obtain ⟨flags, hflags⟩ := hword 12 4 (by omega)
  obtain ⟨groups, hgroups⟩ := hword 16 8 (by omega)
  obtain ⟨value, hvalue⟩ := hword 24 8 (by omega)
  obtain ⟨mask, hmask⟩ := hword 32 8 (by omega)
  have hid : region.bytes.wordAt place 4 = .ok id.toNat := hid
  simp only [entryAt, hid, hlength, hstart, hslice, hflags, hgroups, hvalue, hmask, bind,
    Except.bind, Ident.wrap_toNat]
  have hsize : (region.bytes.extract start (start + length)).size = length := by
    rw [Array.size_extract, Nat.min_eq_left hle, Nat.add_sub_cancel_left]
  have hbytes : (region.bytes.extract start (start + length)).size ≠ 0 := by rwa [hsize]
  exact ⟨_, rfl, ⟨hbytes, Bytes.wordAt_lt hvalue, Bytes.wordAt_lt hmask⟩, hvalid⟩

/-- The entries of a list that is accepted can be read. -/
theorem checkList_ensures {list : Nat}
    (hroom : list * directoryEntryLength + directoryEntryLength ≤ region.bytes.size) :
    Ensures (region.checkList list) fun _ => ∃ entries, region.list list = .ok entries
      ∧ ∀ entry ∈ entries, entry.Fits ∧ entry.id.IsValid := by
  have hroom : list * directoryEntryLength + 8 ≤ region.bytes.size := hroom
  refine (Reader.ensures_tryWordAt (by omega)).bind fun place hplace => ?_
  refine (Reader.ensures_tryWordAt (by omega)).bind fun count hcount => ?_
  refine Reader.ensures_multiply.bind fun length hlength => ?_
  refine Reader.ensures_add.bind fun stop hstop => ?_
  subst hlength hstop
  refine Load.ensures_require.bind fun _ ⟨_, hle⟩ => ?_
  have hrecords := @Load.ensures_forM _
    (fun index => region.checkRecord (place + index * recordLength))
    (fun index => ∃ entry, region.entryAt (place + index * recordLength) = .ok entry
      ∧ entry.Fits ∧ entry.id.IsValid)
    (List.range count) fun index hindex => by
      refine checkRecord_ensures ?_
      have hnext : (index + 1) * recordLength ≤ count * recordLength :=
        Nat.mul_le_mul_right _ (List.mem_range.1 hindex)
      rw [Nat.succ_mul] at hnext
      omega
  refine hrecords.imp fun _ hall => ?_
  obtain ⟨entries, hentries, hfit⟩ := exists_mapM_eq_ok_of_forall hall
  exact ⟨entries, by simp only [ConfirmRegion.list, hplace, hcount, hentries, bind, Except.bind],
    hfit⟩

/-- Every list of a region that is accepted can be read. -/
theorem check_ensures : Ensures region.check fun _ =>
    ∃ lists, region.lists = .ok lists ∧ lists.length = region.listCount
      ∧ ∀ list ∈ lists, ∀ entry ∈ list, entry.Fits ∧ entry.id.IsValid := by
  refine Reader.ensures_multiply.bind fun length hlength => ?_
  subst hlength
  refine Reader.ensures_checkLength.bind fun _ hdirectory => ?_
  have hlists := @Load.ensures_forM _ region.checkList
    (fun list => ∃ entries, region.list list = .ok entries
      ∧ ∀ entry ∈ entries, entry.Fits ∧ entry.id.IsValid) (List.range region.listCount)
    fun list hlist => by
      refine checkList_ensures ?_
      have hnext : (list + 1) * directoryEntryLength ≤ region.listCount * directoryEntryLength :=
        Nat.mul_le_mul_right _ (List.mem_range.1 hlist)
      rw [Nat.succ_mul] at hnext
      omega
  refine hlists.imp fun _ hall => ?_
  obtain ⟨lists, hlists, hfit⟩ := exists_mapM_eq_ok_of_forall hall
  exact ⟨lists, hlists, by rw [length_of_mapM hlists, List.length_range], hfit⟩

end ConfirmRegion

/-! ## The flood region -/

namespace FloodRecord

/-- A record whose place exists is read or refused. -/
theorem read_ensures_of_le {bytes : Bytes} {place : Nat} (hplace : place ≤ bytes.size) :
    Ensures (read bytes place) fun record => record.Fits ∧ record.IdsValid := by
  rw [read, if_neg (Nat.not_lt.2 hplace)]
  refine Reader.ensures_checkLength.bind fun _ hroom => ?_
  have hroom : 272 ≤ bytes.size - place := hroom
  have hword (offset width : Nat) (h : offset + width ≤ 272) :=
    @Bytes.exists_wordAt bytes (place + offset) width (by omega)
  obtain ⟨count, hcount⟩ := hword 12 2 (by omega)
  obtain ⟨suffix, hsuffix⟩ := hword 8 4 (by omega)
  obtain ⟨groups, hgroups⟩ := hword 0 8 (by omega)
  refine Load.ensures_liftM_bind hcount ?_
  refine Load.ensures_require.bind fun _ hfull => ?_
  have hfull : count ≤ 16 := hfull
  refine Load.ensures_liftM_bind hsuffix ?_
  have hentries := @Load.ensures_mapM_forall _ _ (readEntry bytes place)
    (fun entry => entry.id.IsValid ∧ entry.length < 1 <<< 32) (List.range count)
    fun index hindex => by
      have hindex := List.mem_range.1 hindex
      obtain ⟨entryGroups, hentryGroups⟩ := hword (groupsStart + 8 * index) 8
        (by simp only [groupsStart, idsStart, maxEntries]; omega)
      obtain ⟨entryLength, hentryLength⟩ := hword (lengthsStart + 4 * index) 4
        (by simp only [lengthsStart, groupsStart, idsStart, maxEntries]; omega)
      rw [← Nat.add_assoc] at hentryGroups hentryLength
      refine (Reader.ensures_tryLiteralIdAt (by simp only [idsStart]; omega)).bind
        fun id hid => ?_
      refine Load.ensures_liftM_bind hentryGroups ?_
      exact Load.ensures_liftM_bind hentryLength ⟨hid.1, Bytes.wordAt_lt hentryLength⟩
  refine hentries.bind fun entries hread => ?_
  obtain ⟨hlength, hall⟩ := hread
  rw [List.length_range] at hlength
  refine Load.ensures_liftM_bind hgroups ⟨⟨?_, ?_, ?_⟩, ?_⟩
  · exact hlength ▸ hfull
  · exact Bytes.wordAt_lt hsuffix
  · exact fun entry hentry => (hall entry hentry).2
  · exact fun entry hentry => (hall entry hentry).1

end FloodRecord

namespace FloodRegion

variable {region : FloodRegion}

theorem recordStart_le {record : Nat} (h : record < region.recordCount) :
    recordStart record ≤ region.bytes.size := by
  have hmul : (record + 1) * 272 ≤ region.bytes.size - 1024 :=
    Nat.le_trans (Nat.mul_le_mul_right 272 h) (Nat.div_mul_le_self _ 272)
  show 1024 + record * 272 ≤ region.bytes.size
  omega

theorem checkByte_ensures {byte : Nat} (hroom : byte * 4 + 4 ≤ region.bytes.size) :
    Ensures (region.checkByte byte) fun _ =>
      ∃ number, region.recordNumber byte = .ok number ∧ number < region.recordCount := by
  refine (Reader.ensures_tryWordAt (by omega)).bind fun number hnumber => ?_
  exact Load.ensures_require.imp fun _ hlt => ⟨number, hnumber, hlt⟩

theorem contents_eq_ok_iff {flood : FloodIndex} : region.contents = .ok flood ↔
    (List.range 256).mapM region.recordNumber = .ok flood.index
      ∧ (List.range region.recordCount).mapM region.recordAt = .ok flood.records := by
  simp only [contents, Except.bind_eq_ok_iff]
  constructor
  · rintro ⟨index, hindex, records, hrecords, ⟨⟩⟩
    exact ⟨hindex, hrecords⟩
  · rintro ⟨hindex, hrecords⟩
    exact ⟨_, hindex, _, hrecords, rfl⟩

/-- The record of a byte is looked up among the records that the region has. -/
theorem record?_of_contents {flood : FloodIndex} (hcontents : region.contents = .ok flood)
    (hfits : flood.Fits) (byte : UInt8) : region.record? byte = .ok (flood.lookup? byte) := by
  obtain ⟨hindex, hrecords⟩ := contents_eq_ok_iff.1 hcontents
  have hbyte : byte.toNat < flood.index.length := by
    rw [hfits.index_length]
    exact byte.toNat_lt
  have hnumber := (mapM_range_eq_ok_iff.1 hindex).2 _ hbyte
  have hin := hfits.index_lt _ (List.getElem_mem hbyte)
  simp only [record?, hnumber, bind, Except.bind, FloodIndex.lookup?,
    List.getElem?_eq_getElem hbyte]
  generalize flood.index[byte.toNat] = number at hin ⊢
  cases number with
  | zero => rfl
  | succ number =>
    have hrecord := (mapM_range_eq_ok_iff.1 hrecords).2 _ hin
    simp only [Nat.succ_ne_zero, if_false, List.getElem?_eq_getElem hin, hrecord,
      Option.filter_some]
    cases hempty : flood.records[number + 1].entries.isEmpty with
    | true => rfl
    | false => rfl

/-- A region that is accepted can be read as a whole, and its parts fit their fields. -/
theorem check_ensures : Ensures region.check fun _ =>
    ∃ flood, region.contents = .ok flood ∧ flood.Fits
      ∧ ∀ record ∈ flood.records, record.IdsValid := by
  refine Reader.ensures_checkLength.bind fun _ hindex => ?_
  have hindex : 1024 ≤ region.bytes.size := hindex
  refine Load.ensures_require.bind fun _ hne => ?_
  have hnumbers := @Load.ensures_forM _ region.checkByte
    (fun byte => ∃ number, region.recordNumber byte = .ok number ∧ number < region.recordCount)
    (List.range 256) fun byte hbyte =>
      checkByte_ensures (by have := List.mem_range.1 hbyte; omega)
  refine hnumbers.bind fun _ hnumbers => ?_
  have hrecords := @Load.ensures_forM _ (fun record => do
      let _ ← FloodRecord.read region.bytes (recordStart record))
    (fun number => ∃ record, region.recordAt number = .ok record ∧ record.Fits ∧ record.IdsValid)
    (List.range region.recordCount) fun number hnumber => by
      have hread := FloodRecord.read_ensures_of_le (recordStart_le (List.mem_range.1 hnumber))
      refine hread.and_eq.bind fun record ⟨heq, hfits⟩ => ?_
      exact ⟨record, by rw [recordAt, heq], hfits⟩
  refine hrecords.bind fun _ hrecords => ?_
  obtain ⟨first, hfirst, -⟩ := hrecords 0 (List.mem_range.2 (Nat.pos_of_ne_zero hne))
  refine Load.ensures_liftM_bind hfirst ?_
  refine Load.ensures_require.imp fun _ hempty => ?_
  obtain ⟨index, hnumbers, hlt⟩ := exists_mapM_eq_ok_of_forall hnumbers
  obtain ⟨records, hrecords, hfit⟩ := exists_mapM_eq_ok_of_forall hrecords
  have hcount : records.length = region.recordCount := by
    rw [length_of_mapM hrecords, List.length_range]
  refine ⟨⟨index, records⟩, contents_eq_ok_iff.2 ⟨hnumbers, hrecords⟩, ⟨?_, ?_, ?_, ?_⟩, ?_⟩
  · rw [length_of_mapM hnumbers, List.length_range]
  · exact fun number hnumber => hcount ▸ hlt number hnumber
  · exact fun record hrecord => (hfit record hrecord).1
  · have hpos : 0 < records.length := hcount ▸ Nat.pos_of_ne_zero hne
    have heq := (mapM_range_eq_ok_iff.1 hrecords).2 0 hpos
    cases hfirst.symm.trans heq
    exact ⟨_, List.getElem?_eq_getElem hpos, hempty⟩
  · exact fun record hrecord => (hfit record hrecord).2

end FloodRegion

/-! ## The header -/

namespace Header

theorem read_ensures {bytes : Bytes} {place : Nat} (hplace : place ≤ bytes.size) :
    Ensures (Header.read bytes place) fun header => header.maxLength < Contents.offsetLimit := by
  rw [Header.read, if_neg (Nat.not_lt.2 hplace)]
  refine Reader.ensures_checkLength.bind fun _ hroom => ?_
  have hroom : 32 ≤ bytes.size - place := hroom
  have hword (offset width : Nat) (h : offset + width ≤ 32) :=
    @Bytes.exists_wordAt bytes (place + offset) width (by omega)
  refine Load.ensures_liftM_bind (hword 0 4 (by omega)).choose_spec ?_
  refine Load.ensures_liftM_bind (hword 4 4 (by omega)).choose_spec ?_
  refine Load.ensures_liftM_bind (hword 8 4 (by omega)).choose_spec ?_
  refine Load.ensures_liftM_bind (hword 12 4 (by omega)).choose_spec ?_
  refine Load.ensures_liftM_bind (hword 16 4 (by omega)).choose_spec ?_
  refine Load.ensures_liftM_bind (hword 20 1 (by omega)).choose_spec ?_
  refine Load.ensures_liftM_bind (hword 21 1 (by omega)).choose_spec ?_
  refine Load.ensures_liftM_bind (hword 22 2 (by omega)).choose_spec ?_
  refine Load.ensures_liftM_bind (hword 24 4 (by omega)).choose_spec ?_
  exact Bytes.wordAt_lt (hword 8 4 (by omega)).choose_spec

/-- What a header says that is accepted for an arena of some size. -/
structure Accepted (header : Header) (arenaSize : Nat) (scheme : Scheme) : Prop where
  known : scheme.IsKnown
  domain : scheme.bits = header.domain
  keyMask : header.keyMask = (1 <<< header.domain) - 1
  wordLength : header.wordLength * 8 = scheme.width
  tableSize : header.tableSize = scheme.tableSize
  regions : header.RegionsFit arenaSize

/-- A key that is masked is one that a word is under. -/
theorem Accepted.masked_lt {header : Header} {arenaSize : Nat} {scheme : Scheme}
    (h : header.Accepted arenaSize scheme) (key : Nat) :
    key &&& header.keyMask < scheme.entries := by
  rw [h.keyMask, ← h.domain]
  have hpos : 0 < 1 <<< scheme.bits := Nat.lt_of_lt_of_le (by decide) h.known.entries_pos
  exact Nat.lt_of_le_of_lt Nat.and_le_right (Nat.sub_lt hpos Nat.one_pos)

theorem validate_ensures (header : Header) (arenaSize : Nat) :
    Ensures (header.validate arenaSize) fun scheme =>
      header.Accepted arenaSize scheme ∧ scheme.id = header.schemeId ∧ header.maxLength ≠ 0 := by
  unfold validate
  cases hfind : Scheme.find? header.schemeId with
  | none => exact trivial
  | some base =>
    refine Load.ensures_require.bind fun _ hdomain => ?_
    have hwith : base.withBits header.domain = .ok { base with bits := header.domain } :=
      if_pos hdomain
    refine Load.ensures_liftM_bind hwith ?_
    refine Load.ensures_require.bind fun _ hmask => ?_
    refine Load.ensures_require.bind fun _ hwidth => ?_
    refine Load.ensures_require.bind fun _ htable => ?_
    refine Load.ensures_require.bind fun _ hlength => ?_
    refine Load.ensures_require.bind fun _ hregions => ?_
    have hid : base.id = header.schemeId := by
      have hfound := hfind
      rw [Scheme.find?] at hfound
      simpa only [beq_iff_eq] using List.find?_some hfound
    exact ⟨⟨Scheme.isKnown_of_find? hfind hdomain, rfl, hmask, hwidth, htable, hregions⟩,
      hid, hlength⟩

end Header

/-! ## The table -/

namespace LiteralTable

/-- What holds of a table that was loaded: its header was accepted for its arena, and its regions
can be read. -/
structure Loaded (table : LiteralTable) : Prop where
  header : table.header.Accepted table.arena.size table.scheme
  confirm : ∃ region lists, table.confirmRegion = .ok region ∧ region.lists = .ok lists
    ∧ lists.length = table.scheme.buckets <<< table.scheme.split
  flood : ∃ region, table.floodRegion = .ok region
    ∧ ∀ byte, ∃ record?, region.record? byte = .ok record?

/-- A table whose header was accepted has a word for every key. -/
theorem exists_wordAt_of_accepted {table : LiteralTable}
    (h : table.header.Accepted table.arena.size table.scheme) {key : Nat}
    (hkey : key < table.scheme.entries) :
    ∃ word, table.wordAt key = .ok word ∧ word < 1 <<< table.scheme.width := by
  obtain ⟨hsize, htable, hconfirm, hflood⟩ := h.regions
  have hwidth : table.header.wordLength = table.scheme.wordLength := by
    have := h.wordLength
    have := h.known.wordLength_mul
    omega
  have hnext : (key + 1) * table.scheme.wordLength
      ≤ table.scheme.entries * table.scheme.wordLength :=
    Nat.mul_le_mul_right _ hkey
  rw [h.tableSize, Scheme.tableSize, Nat.mul_comm] at htable
  rw [Nat.succ_mul] at hnext
  have hinside : Header.encodedLength + key * table.header.wordLength + table.header.wordLength
      ≤ table.arena.size := by
    rw [hwidth]
    omega
  obtain ⟨word, hword⟩ := Bytes.exists_wordAt hinside
  have hlt := Bytes.wordAt_lt hword
  rw [Nat.mul_comm, h.wordLength] at hlt
  exact ⟨word, hword, hlt⟩

/-- The table was accepted for its header, and it has the contents. -/
structure Decodes (table : LiteralTable) (contents : Contents) : Prop where
  header : table.header.Accepted table.arena.size table.scheme
  schemeId : table.scheme.id = table.header.schemeId
  eq_ok : table.contents = .ok contents
  fits : contents.PartsFit
  valid : contents.IdsValid

variable {table : LiteralTable} {contents : Contents}

theorem contents_eq_ok_iff : table.contents = .ok contents ↔
    contents.scheme = table.scheme ∧ contents.maxLength = table.header.maxLength
      ∧ (List.range table.scheme.entries).mapM table.wordAt = .ok contents.words
      ∧ (∃ region, table.confirmRegion = .ok region ∧ region.lists = .ok contents.confirm)
      ∧ ∃ region, table.floodRegion = .ok region ∧ region.contents = .ok contents.flood := by
  simp only [LiteralTable.contents, Except.bind_eq_ok_iff]
  constructor
  · rintro ⟨words, hwords, region, hregion, lists, hlists, region', hregion', flood, hflood, ⟨⟩⟩
    exact ⟨rfl, rfl, hwords, ⟨region, hregion, hlists⟩, region', hregion', hflood⟩
  · rintro ⟨hscheme, hlength, hwords, ⟨region, hregion, hlists⟩, region', hregion', hflood⟩
    refine ⟨_, hwords, region, hregion, _, hlists, region', hregion', _, hflood, ?_⟩
    rw [← hscheme, ← hlength]
    rfl

namespace Decodes

variable (h : table.Decodes contents)
include h

theorem scheme_eq : contents.scheme = table.scheme := (contents_eq_ok_iff.1 h.eq_ok).1

theorem maxLength_eq : contents.maxLength = table.header.maxLength :=
  (contents_eq_ok_iff.1 h.eq_ok).2.1

theorem wordAt_eq {key : Nat} (hkey : key < contents.words.length) :
    table.wordAt key = .ok contents.words[key] :=
  (mapM_range_eq_ok_iff.1 (contents_eq_ok_iff.1 h.eq_ok).2.2.1).2 key hkey

theorem exists_confirm :
    ∃ region, table.confirmRegion = .ok region ∧ region.lists = .ok contents.confirm :=
  (contents_eq_ok_iff.1 h.eq_ok).2.2.2.1

theorem exists_flood : ∃ region, table.floodRegion = .ok region
    ∧ ∀ byte, region.record? byte = .ok (contents.flood.lookup? byte) := by
  obtain ⟨-, -, -, -, region, hregion, hcontents⟩ := contents_eq_ok_iff.1 h.eq_ok
  exact ⟨region, hregion, FloodRegion.record?_of_contents hcontents h.fits.flood⟩

/-- A table whose contents can be read can be scanned with. -/
theorem loaded : table.Loaded := by
  obtain ⟨region, hregion, hlists⟩ := h.exists_confirm
  obtain ⟨flood, hflood, hrecords⟩ := h.exists_flood
  refine ⟨h.header, ⟨region, _, hregion, hlists, ?_⟩, flood, hflood, fun byte => ⟨_, hrecords byte⟩⟩
  rw [← h.scheme_eq]
  exact h.fits.confirm_length

end Decodes

end LiteralTable

theorem Codec.readLabel_le {bytes : Bytes} {label : String} {length : Nat}
    (h : Codec.readLabel bytes label = .ok length) : length ≤ bytes.size := by
  unfold Codec.readLabel at h
  dsimp only at h
  split at h
  · cases h
  · split at h
    · cases h
    · next hle =>
      split at h
      · cases h
        exact Nat.not_lt.1 hle
      · cases h

theorem Codec.readEndian_ensures {bytes : Bytes} {place : Nat} (hplace : place ≤ bytes.size) :
    Ensures (Codec.readEndian bytes place) fun length => place + length ≤ bytes.size := by
  refine (Reader.ensures_tryWordAt hplace).bind fun mark hmark => ?_
  split
  · exact Bytes.inside_of_wordAt hmark
  · exact trivial

theorem Codec.readVersion_ensures {bytes : Bytes} {place expected : Nat}
    (hplace : place ≤ bytes.size) :
    Ensures (Codec.readVersion bytes place expected) fun length =>
      place + length ≤ bytes.size := by
  refine (Reader.ensures_tryWordAt hplace).bind fun found hfound => ?_
  split
  · exact Bytes.inside_of_wordAt hfound
  · exact trivial

namespace LiteralTable

/-- Loading does not fault, and what it accepts is a table whose contents can be read. -/
theorem load_decodes (bytes : Bytes) : Ensures (load bytes) fun loaded =>
    (∃ contents, loaded.1.Decodes contents) ∧ loaded.2 ≤ bytes.size := by
  refine (Load.ensures_accepted fun _ h => Codec.readLabel_le h).bind fun labelRead hlabel => ?_
  refine (Codec.readEndian_ensures hlabel).bind fun endianRead hendian => ?_
  refine (Codec.readVersion_ensures hendian).bind fun versionRead hversion => ?_
  refine (Header.read_ensures hversion).bind fun header hlength => ?_
  refine Reader.ensures_add.bind fun stop hstop => ?_
  refine Reader.ensures_checkLength.bind fun _ hle => ?_
  have hslice := Bytes.slice_eq_ok (show labelRead + endianRead + versionRead ≤ stop by omega) hle
  refine Load.ensures_liftM_bind hslice ?_
  refine (header.validate_ensures _).bind fun scheme hvalidated => ?_
  obtain ⟨haccepted, hid, hne⟩ := hvalidated
  obtain ⟨hsize, -, hconfirm, hflood⟩ := haccepted.regions
  rw [hsize] at hflood
  have hconfirmSlice := Bytes.slice_eq_ok hconfirm hflood
  have hfloodSlice := Bytes.slice_eq_ok hflood (Nat.le_refl _)
  generalize bytes.extract (labelRead + endianRead + versionRead) stop = arena
    at haccepted hconfirmSlice hfloodSlice ⊢
  have hconfirmRegion : confirmRegion { arena, header, scheme }
      = .ok (.of scheme (arena.extract header.confirmOffset header.floodOffset)) := by
    simp only [confirmRegion, hconfirmSlice, bind, Except.bind]
    rfl
  have hfloodRegion : floodRegion { arena, header, scheme }
      = .ok ⟨arena.extract header.floodOffset arena.size⟩ := by
    simp only [floodRegion, hfloodSlice, bind, Except.bind]
    rfl
  refine Load.ensures_liftM_bind hconfirmRegion ?_
  refine ConfirmRegion.check_ensures.bind fun _ hconfirmed => ?_
  obtain ⟨lists, hlists, hcount, hfit⟩ := hconfirmed
  refine Load.ensures_liftM_bind hfloodRegion ?_
  refine FloodRegion.check_ensures.bind fun _ hflooded => ?_
  obtain ⟨flood, hcontents, hflood, hvalid⟩ := hflooded
  obtain ⟨words, hwords, hlt⟩ := exists_mapM_eq_ok_of_forall fun key hkey =>
    @exists_wordAt_of_accepted { arena, header, scheme } haccepted key (List.mem_range.1 hkey)
  refine ⟨⟨⟨scheme, header.maxLength, words, lists, flood⟩, haccepted, hid, ?_, ?_, ?_⟩, hle⟩
  · exact contents_eq_ok_iff.2
      ⟨rfl, rfl, hwords, ⟨_, hconfirmRegion, hlists⟩, ⟨_, hfloodRegion, hcontents⟩⟩
  · exact
      { scheme := haccepted.known
        maxLength_ne_zero := hne
        maxLength_lt := hlength
        words_length := by rw [length_of_mapM hwords, List.length_range]
        words_lt := hlt
        confirm_length := hcount
        confirm := fun list hlist entry hentry => (hfit list hlist entry hentry).1
        flood := hflood }
  · exact ⟨fun list hlist entry hentry => (hfit list hlist entry hentry).2, hvalid⟩

/-- Loading does not fault, and what it accepts is a table that can be scanned with. -/
theorem load_ensures (bytes : Bytes) : Ensures (load bytes) fun loaded =>
    loaded.1.Loaded ∧ loaded.2 ≤ bytes.size :=
  (load_decodes bytes).imp fun _ ⟨⟨_, hdecodes⟩, hle⟩ => ⟨hdecodes.loaded, hle⟩

namespace Loaded

variable {table : LiteralTable} (h : table.Loaded)
include h

/-- Every key has a word. -/
theorem exists_wordAt {key : Nat} (hkey : key < table.scheme.entries) :
    ∃ word, table.wordAt key = .ok word :=
  (exists_wordAt_of_accepted h.header hkey).imp fun _ hword => hword.1

theorem exists_floodRecord? (byte : UInt8) : ∃ record?, table.floodRecord? byte = .ok record? := by
  obtain ⟨region, hregion, hrecords⟩ := h.flood
  obtain ⟨record?, hrecord⟩ := hrecords byte
  exact ⟨record?, by simp only [floodRecord?, hregion, hrecord, bind, Except.bind]⟩

end Loaded

end LiteralTable

end Multimatch
