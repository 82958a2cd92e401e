import Multimatch.Proofs.Codec.Label
import Multimatch.Proofs.Table.Built
import Multimatch.Table.Saved

/-!
# Saving and loading built tables

A saved table that is loaded again is the same table, whatever it was built from, and it is saved to
the same bytes. The way there goes through the contents: saving decodes the arena to the contents
that it was laid out from (`Contents.Fits.contents_ofContents`), and each validator accepts a region
that was laid out from contents that fit (`Contents.Fits.load_eq`).
-/

namespace Multimatch

theorem Load.forM_eq_ok {α : Type} {f : α → Load Unit} {xs : List α}
    (h : ∀ x ∈ xs, f x = .ok ()) : xs.forM f = .ok () := by
  induction xs with
  | nil => rfl
  | cons x xs ih =>
    have hrest := ih fun y hy => h y (List.mem_cons_of_mem _ hy)
    rw [List.forM_eq_forM, List.forM_cons, h x List.mem_cons_self]
    exact hrest

theorem Load.liftM_accepted {α : Type} (value : α) :
    (liftM (Except.ok value : Except LoadError α) : Load α) = .ok value := rfl

theorem Load.require_eq_ok {condition : Prop} [Decidable condition] {flaw : Flaw}
    (h : condition) : Load.require condition flaw = .ok () := if_pos h

namespace Reader

theorem add_eq_ok {a b : Nat} (what : String) (h : a + b < wordLimit) :
    add a b what = .ok (a + b) := if_pos h

theorem multiply_eq_ok {a b : Nat} (what : String) (h : a * b < wordLimit) :
    multiply a b what = .ok (a * b) := if_pos h

theorem checkLength_eq_ok {length atLeast : Nat} (what : String) (h : atLeast ≤ length) :
    checkLength length atLeast what = .ok () := if_neg (Nat.not_lt.2 h)

theorem lt_wordLimit {size : Nat} (h : size < 1 <<< 32) : size < wordLimit :=
  Nat.lt_trans h (by decide)

end Reader

/-! ## The validators accept what was laid out -/

namespace ConfirmRegion

open ConfirmLists (directoryEntryLength)
open ConfirmEntry (recordLength)

variable {region : ConfirmRegion}

theorem checkRecord_eq {entry : ConfirmEntry} {place start : Nat} (hfits : entry.Fits)
    (hvalid : entry.id.IsValid) (hsize : region.bytes.size < 1 <<< 32)
    (hrecord : region.bytes.Holds place (entry.encode .native start))
    (hbytes : region.bytes.Holds start entry.bytes.toList) :
    region.checkRecord place = .ok () := by
  have hend : start + entry.bytes.size ≤ region.bytes.size := hbytes.size_le
  simp only [ConfirmEntry.encode] at hrecord
  have hid := hrecord.left.left.left.left.left.left.wordAt entry.id.toNat_lt
  have hlength := hrecord.left.left.left.left.left.right.wordAt
    (Nat.lt_of_le_of_lt (by omega) hsize)
  have hstart := hrecord.left.left.left.left.right.wordAt (Nat.lt_of_le_of_lt (by omega) hsize)
  simp only [List.length_append, Endian.length_encode] at hlength hstart
  have hstop := Reader.lt_wordLimit (Nat.lt_of_le_of_lt hend hsize)
  simp only [checkRecord, Reader.tryLiteralIdAt_eq _ hid, if_pos hvalid,
    Reader.tryWordAt_eq _ hlength, Reader.tryWordAt_eq _ hstart, Reader.add_eq_ok _ hstop,
    Load.liftM_accepted, bind, Except.bind]
  exact Load.require_eq_ok ⟨hfits.bytes, hend⟩

theorem checkList_eq {lists : ConfirmLists} (hfits : ∀ list ∈ lists, ∀ entry ∈ list, entry.Fits)
    (hvalid : ∀ list ∈ lists, ∀ entry ∈ list, entry.id.IsValid)
    (hsize : region.bytes.size < 1 <<< 32) (hcount : lists.length = region.listCount)
    (hregion : region.bytes.Holds 0 (lists.encode .native)) {i : Nat} (hi : i < lists.length) :
    region.checkList i = .ok () := by
  obtain ⟨place, hplace, hend, hword, hlength, hentries⟩ :=
    ConfirmLists.wordsAt_list hsize hregion hi
  rw [hcount, Nat.mul_comm] at hplace
  rw [Nat.mul_comm] at hend
  have hstop := Reader.lt_wordLimit (Nat.lt_of_le_of_lt hend hsize)
  have hproduct : lists[i].length * recordLength < Reader.wordLimit :=
    Nat.lt_of_le_of_lt (Nat.le_add_left ..) hstop
  simp only [checkList, Reader.tryWordAt_eq _ hword, Reader.tryWordAt_eq _ hlength,
    Reader.multiply_eq_ok _ hproduct, Reader.add_eq_ok _ hstop, Load.liftM_accepted,
    Load.require_eq_ok (And.intro hplace hend), bind, Except.bind]
  refine Load.forM_eq_ok fun j hj => ?_
  have hj := List.mem_range.1 hj
  obtain ⟨start, hrecord, hbytes⟩ := hentries j hj
  exact checkRecord_eq (hfits _ (List.getElem_mem hi) _ (List.getElem_mem hj))
    (hvalid _ (List.getElem_mem hi) _ (List.getElem_mem hj)) hsize hrecord hbytes

/-- A region that lists were laid out in is accepted. -/
theorem check_eq {lists : ConfirmLists} (hfits : ∀ list ∈ lists, ∀ entry ∈ list, entry.Fits)
    (hvalid : ∀ list ∈ lists, ∀ entry ∈ list, entry.id.IsValid)
    (hsize : region.bytes.size < 1 <<< 32) (hcount : lists.length = region.listCount)
    (hregion : region.bytes.Holds 0 (lists.encode .native)) : region.check = .ok () := by
  have hdirectory : region.listCount * directoryEntryLength ≤ region.bytes.size := by
    have hle := hregion.left.left.left.size_le
    rw [ConfirmLists.length_directory, hcount, Nat.mul_comm] at hle
    omega
  have hlt := Reader.lt_wordLimit (Nat.lt_of_le_of_lt hdirectory hsize)
  simp only [check, Reader.multiply_eq_ok _ hlt, Reader.checkLength_eq_ok _ hdirectory,
    Load.liftM_accepted, bind, Except.bind]
  refine Load.forM_eq_ok fun i hi => checkList_eq hfits hvalid hsize hcount hregion ?_
  rw [hcount]
  exact List.mem_range.1 hi

end ConfirmRegion

/-- A region that a flood index was laid out in is accepted. -/
theorem FloodRegion.check_eq {flood : FloodIndex} {region : FloodRegion} (hfits : flood.Fits)
    (hvalid : ∀ record ∈ flood.records, record.IdsValid)
    (hlt : flood.records.length < 1 <<< 32) (hsize : region.bytes.size = flood.encodedLength)
    (hregion : region.bytes.Holds 0 (flood.encode .native)) : region.check = .ok () := by
  have hcount := FloodIndex.Fits.recordCount_eq hsize
  have hindex : FloodIndex.indexLength ≤ region.bytes.size := by
    rw [hsize]
    exact Nat.le_add_right ..
  obtain ⟨record, hfirst, hempty⟩ := hfits.first
  obtain ⟨hpos, hfirst⟩ := List.getElem?_eq_some_iff.1 hfirst
  have hnumbers : (List.range 256).forM region.checkByte = .ok () := by
    refine Load.forM_eq_ok fun byte hbyte => ?_
    have hbyte : byte < flood.index.length := by
      rw [hfits.index_length]
      exact List.mem_range.1 hbyte
    have hword := hfits.recordNumber_eq hlt hregion hbyte
    rw [recordNumber] at hword
    simp only [checkByte, Reader.tryWordAt_eq _ hword, bind, Except.bind]
    exact Load.require_eq_ok (hcount ▸ hfits.index_lt _ (List.getElem_mem hbyte))
  have hrecords : (List.range region.recordCount).forM (fun number => do
      let _ ← FloodRecord.read region.bytes (recordStart number)) = .ok () := by
    refine Load.forM_eq_ok fun number hnumber => ?_
    have hnumber : number < flood.records.length := hcount ▸ List.mem_range.1 hnumber
    rw [hfits.read_eq hvalid hregion hnumber]
    rfl
  simp only [bind, Except.bind] at hrecords
  have hzero := hfits.recordAt_eq hvalid hregion hpos
  have hne : region.recordCount ≠ 0 := by omega
  simp only [check, Reader.checkLength_eq_ok _ hindex, Load.require_eq_ok hne, hnumbers, hrecords,
    hzero, Failure.liftM_ok, Load.liftM_accepted, bind, Except.bind, hfirst]
  exact Load.require_eq_ok hempty

namespace Contents.Fits

variable {contents : Contents} (h : contents.Fits)
include h

/-- The header of contents that fit belongs to a table of that size. -/
theorem validate_eq : contents.header.validate contents.bodyLength = .ok contents.scheme := by
  obtain ⟨base, hfind, hbase⟩ := h.scheme.find?_id
  have hdomain : Scheme.IsDomain contents.scheme.bits := h.scheme.domain
  have hwith : base.withBits contents.scheme.bits = .ok contents.scheme := by
    rw [Scheme.withBits, if_pos hdomain, ← hbase]
  have hregions : Header.RegionsFit contents.header contents.bodyLength := by
    rw [h.header_eq]
    exact ⟨rfl, Nat.le_refl _, contents.confirmOffset_le, contents.floodOffset_le⟩
  rw [h.header_eq] at hregions
  simp only [Header.validate, h.header_eq, hfind, Load.require_eq_ok hdomain, hwith,
    Failure.liftM_ok, bind, Except.bind]
  have hmask : contents.scheme.keyMask = (1 <<< contents.scheme.bits) - 1 := rfl
  simp only [Load.require_eq_ok hmask, Load.require_eq_ok h.scheme.wordLength_mul,
    Load.require_eq_ok h.maxLength_ne_zero, Load.require_eq_ok hregions]
  rfl

end Contents.Fits


/-! ## Loading -/

namespace LiteralTable

theorem labelLength_label : Codec.labelLength label = .ok labelLength := by decide +kernel

theorem length_labelBytes : (Codec.labelBytes label labelLength).length = labelLength := by
  decide +kernel

theorem length_head (endian : Endian) : (head endian).length = headLength := by
  simp only [head, List.length_append, length_labelBytes, Codec.endianBytes, Codec.versionBytes,
    Endian.length_encode, headLength]

/-- A head and a header are loaded as the table that the header describes, if what it says of the
bytes that it starts is accepted, and so are both regions. -/
theorem load_eq_ok {bytes : Bytes} {body : List UInt8} {header : Header} {scheme : Scheme}
    {confirm : ConfirmRegion} {flood : FloodRegion}
    (hbytes : bytes.Holds 0 (head .native ++ body)) (hfits : header.Fits)
    (hheader : bytes.Holds headLength (header.encode .native)) (hsize : header.size = body.length)
    (hvalidate : header.validate body.length = .ok scheme)
    (hconfirm : confirmRegion ⟨body.toArray, header, scheme⟩ = .ok confirm)
    (hchecked : confirm.check = .ok ())
    (hflood : floodRegion ⟨body.toArray, header, scheme⟩ = .ok flood)
    (hchecked' : flood.check = .ok ()) :
    load bytes = .ok (⟨body.toArray, header, scheme⟩, headLength + body.length) := by
  have hbody := hbytes.right
  rw [Nat.zero_add, length_head] at hbody
  have hhead := hbytes.left
  rw [head] at hhead
  have hlabel := Codec.readLabel_eq labelLength_label (by decide) hhead.left.left
  have hmark := hhead.left.right
  have hversion := hhead.right
  rw [length_labelBytes, Nat.zero_add] at hmark
  rw [List.length_append, length_labelBytes, Codec.endianBytes, Endian.length_encode,
    Nat.zero_add] at hversion
  have hlt : body.length < 1 <<< 32 := hsize ▸ hfits.size
  have hstop : headLength + body.length < Reader.wordLimit :=
    Nat.lt_of_lt_of_le (Nat.add_lt_add_left hlt headLength) (by decide)
  simp only [load, hlabel, Codec.readEndian_eq hmark, Codec.readVersion_eq (by decide) hversion,
    Load.liftM_accepted, bind, Except.bind]
  rw [show labelLength + Codec.endianLength + Codec.versionLength = headLength from rfl]
  simp only [hfits.read_eq hheader, hsize, Reader.add_eq_ok _ hstop,
    Reader.checkLength_eq_ok _ hbody.size_le, hbody.slice, Load.liftM_accepted, Failure.liftM_ok,
    List.size_toArray, hvalidate, hconfirm, hflood, hchecked, hchecked']
  rfl

end LiteralTable

namespace Contents.Fits

open LiteralTable

variable {contents : Contents} (h : contents.Fits)
include h

/-- The bytes of a table that was laid out from contents that fit are loaded as that table, whatever
follows them. -/
theorem load_eq (hvalid : contents.IdsValid) {bytes : Bytes}
    (hbytes : bytes.Holds 0 (head .native ++ contents.body .native)) :
    load bytes = .ok (ofContents contents, headLength + contents.bodyLength) := by
  have hheader := holds_header hbytes.right
  rw [Nat.zero_add, length_head] at hheader
  have hconfirm : (ConfirmRegion.of contents.scheme (contents.confirm.encode .native).toArray).check
      = .ok () :=
    ConfirmRegion.check_eq h.confirm hvalid.confirm h.size_confirm_lt h.confirm_length
      (Bytes.Holds.refl _)
  have hflood : FloodRegion.check ⟨(contents.flood.encode .native).toArray⟩ = .ok () :=
    FloodRegion.check_eq h.flood hvalid.flood h.records_lt (h.length_flood .native)
      (Bytes.Holds.refl _)
  have hvalidate := h.validate_eq
  have hsize : contents.header.size = (contents.body .native).length := by
    rw [h.header_eq, h.length_body]
  rw [← h.length_body .native] at hvalidate ⊢
  exact load_eq_ok hbytes h.header_fits hheader hsize hvalidate h.confirmRegion_eq hconfirm
    h.floodRegion_eq hflood

end Contents.Fits

/-! ## Saving -/

namespace LiteralTable

theorem writeTo_of_lt {table : LiteralTable} {buffer : Bytes} (endian : Endian)
    (hshort : buffer.size < table.savedLength) :
    table.writeTo endian buffer = .ok (.error ⟨"literal table"⟩, buffer) := by
  rw [writeTo, if_pos hshort]
  rfl

/-- What a saved table leaves behind in a buffer with enough room: the head, and the regions of the
table behind it. -/
def setSaved (endian : Endian) (contents : Contents) (buffer : Bytes) : Bytes :=
  let begun := fillStart buffer (head endian)
  begun.setFrom headLength
    (contents.setRegions endian (begun.extract headLength begun.size)).toList

theorem size_fillStart_head {buffer : Bytes} (endian : Endian) (hroom : headLength ≤ buffer.size) :
    (fillStart buffer (head endian)).size = buffer.size :=
  size_fillStart (by rwa [length_head])

theorem size_setSaved (endian : Endian) (contents : Contents) {buffer : Bytes}
    (hroom : headLength ≤ buffer.size) : (setSaved endian contents buffer).size = buffer.size := by
  rw [setSaved, Bytes.size_setFrom, size_fillStart_head endian hroom]

section Saved

variable {contents : Contents} (h : contents.PartsFit) {endian : Endian} {buffer : Bytes}
  (hroom : headLength + contents.bodyLength ≤ buffer.size)
include h hroom

/-- What lies behind the saved table stays as it is. -/
theorem getElem?_setSaved {place : Nat} (hplace : headLength + contents.bodyLength ≤ place) :
    (setSaved endian contents buffer)[place]? = buffer[place]? := by
  have hhead : (head endian).length = headLength := length_head endian
  have hbegun := @size_fillStart_head buffer endian (Nat.le_trans (Nat.le_add_right ..) hroom)
  have hrest : ((fillStart buffer (head endian)).extract headLength
      (fillStart buffer (head endian)).size).size = buffer.size - headLength := by
    rw [Array.size_extract, Nat.min_self, hbegun]
  have hlength : (contents.setRegions endian ((fillStart buffer (head endian)).extract headLength
      (fillStart buffer (head endian)).size)).toList.length = buffer.size - headLength := by
    rw [Array.length_toList, Contents.size_setRegions, hrest]
  rw [setSaved, Bytes.getElem?_setFrom (by omega)]
  split
  · rw [Array.getElem?_toList, h.getElem?_setRegions (by omega) (by omega), Array.getElem?_extract,
      if_pos (by omega), Nat.add_sub_cancel' (by omega), getElem?_fillStart (by omega)]
  · rw [getElem?_fillStart (by omega)]

/-- If the offsets fit their fields, what is saved is the head and the body. -/
theorem setSaved_eq (hlt : contents.bodyLength < Contents.offsetLimit) :
    setSaved endian contents buffer = fillStart buffer (head endian ++ contents.body endian) := by
  have hhead : (head endian).length = headLength := length_head endian
  have hbody := h.length_body endian
  have hbegun := @size_fillStart_head buffer endian (Nat.le_trans (Nat.le_add_right ..) hroom)
  rw [setSaved, (h.fits hlt).setRegions_eq, Bytes.setFrom_extract (by omega),
    fillStart_eq_setFrom (by omega), fillStart_eq_setFrom (by rw [List.length_append]; omega),
    Bytes.setFrom_append, Nat.zero_add, hhead]

/-- The bytes that are saved come before those of the buffer that stay. -/
theorem exists_setSaved_eq : ∃ saved : Bytes, saved.size = headLength + contents.bodyLength
    ∧ (contents.bodyLength < Contents.offsetLimit →
      saved = (head endian ++ contents.body endian).toArray)
    ∧ setSaved endian contents buffer = saved ++ buffer.extract saved.size := by
  have hsize := size_setSaved endian contents (Nat.le_trans (Nat.le_add_right ..) hroom)
  have hsaved : ((setSaved endian contents buffer).extract 0
      (headLength + contents.bodyLength)).size = headLength + contents.bodyLength := by
    rw [Array.size_extract, hsize, Nat.min_eq_left hroom, Nat.sub_zero]
  refine ⟨(setSaved endian contents buffer).extract 0 (headLength + contents.bodyLength), hsaved,
    fun hlt => ?_, ?_⟩
  · have hlength : (head endian ++ contents.body endian).length
        = headLength + contents.bodyLength := by
      rw [List.length_append, length_head, h.length_body]
    rw [setSaved_eq h hroom hlt, fillStart, ← hlength, ← List.size_toArray,
      Array.extract_append_left, Array.extract_size]
  · rw [hsaved]
    apply Array.ext_getElem?
    intro i
    rcases Nat.lt_or_ge i (headLength + contents.bodyLength) with hlt | hge
    · rw [Array.getElem?_append_left (by omega), Array.getElem?_extract, if_pos (by omega),
        Nat.zero_add]
    · rw [Array.getElem?_append_right (by omega), hsaved, Array.getElem?_extract,
        getElem?_setSaved h hroom hge, Nat.add_sub_cancel' hge]
      split
      · rfl
      · exact Array.getElem?_eq_none (by omega)

end Saved

section Copy

variable {table : LiteralTable} {contents : Contents} {buffer : Bytes}
  (hcontents : table.contents = .ok contents) (hroom : table.savedLength ≤ buffer.size)
include hcontents hroom

/-- A copy that is longer than the rest of the buffer is refused when the head has been written. -/
theorem writeTo_of_copy_lt (endian : Endian)
    (hshort : buffer.size < headLength + contents.bodyLength) :
    table.writeTo endian buffer
      = .ok (.error ⟨"literal table"⟩, fillStart buffer (head endian)) := by
  have hhead : headLength ≤ table.savedLength := Nat.le_add_right ..
  have hwhole : ¬ buffer.size < table.savedLength := Nat.not_lt.2 hroom
  have hbegun := @size_fillStart_head buffer endian (Nat.le_trans hhead hroom)
  have hrest : ((fillStart buffer (head endian)).extract headLength
      (fillStart buffer (head endian)).size).size < contents.bodyLength := by
    rw [Array.size_extract, Nat.min_self, hbegun]
    omega
  have hslice := @Bytes.slice_eq_ok (fillStart buffer (head endian)) headLength _
    (hbegun ▸ Nat.le_trans hhead hroom) (Nat.le_refl _)
  simp only [writeTo, hwhole, if_false, hcontents, Bytes.within, hslice, Failure.liftM_ok,
    Contents.write_of_size_lt endian hrest, bind, Except.bind]
  rfl

/-- A buffer with enough room gets the saved table at its start. -/
theorem writeTo_of_copy_le (hparts : contents.PartsFit) (endian : Endian)
    (hcopy : headLength + contents.bodyLength ≤ buffer.size) :
    table.writeTo endian buffer
      = .ok (.ok (headLength + contents.bodyLength), setSaved endian contents buffer) := by
  have hwhole : ¬ buffer.size < table.savedLength := Nat.not_lt.2 hroom
  have hhead : headLength ≤ buffer.size := Nat.le_trans (Nat.le_add_right ..) hcopy
  have hbegun := size_fillStart_head endian hhead
  have hrest : ((fillStart buffer (head endian)).extract headLength
      (fillStart buffer (head endian)).size).size = buffer.size - headLength := by
    rw [Array.size_extract, Nat.min_self, hbegun]
  have hwrite := @Contents.PartsFit.write_eq _ hparts endian _
    (hrest ▸ Nat.le_sub_of_add_le' hcopy)
  have hwithin := Bytes.within_eq_ok (hbegun ▸ hhead) hwrite
    (by rw [Contents.size_setRegions, hrest, hbegun])
  simp only [writeTo, hwhole, if_false, hcontents, hwithin, bind, Except.bind]
  rfl

end Copy

end LiteralTable

theorem Contents.PartsFit.length_saved {contents : Contents} (h : contents.PartsFit)
    (endian : Endian) : (LiteralTable.head endian ++ contents.body endian).length
      = LiteralTable.headLength + contents.bodyLength := by
  rw [List.length_append, LiteralTable.length_head, h.length_body]

/-- A table whose copy takes as many bytes as its arena is saved as that copy. -/
theorem LiteralTable.toBytes_of_contents {table : LiteralTable} {contents : Contents}
    (hcontents : table.contents = .ok contents) (hfits : contents.Fits)
    (hsize : contents.bodyLength = table.arena.size) (endian : Endian) :
    table.toBytes endian = .ok (head endian ++ contents.body endian).toArray := by
  have hlength : table.savedLength = headLength + contents.bodyLength := by
    rw [savedLength, hsize]
  have hroom : (Array.replicate (headLength + contents.bodyLength) (0 : UInt8)).size
      = headLength + contents.bodyLength := Array.size_replicate
  have hrest : (Array.replicate (headLength + contents.bodyLength) (0 : UInt8)).extract
      (head endian ++ contents.body endian).length = #[] := by
    rw [hfits.partsFit.length_saved, Array.extract_empty_of_size_le_start (Nat.le_of_eq hroom)]
  have hwrite := writeTo_of_copy_le hcontents (Nat.le_of_eq (hlength.trans hroom.symm))
    hfits.partsFit endian (Nat.le_of_eq hroom.symm)
  rw [setSaved_eq hfits.partsFit (Nat.le_of_eq hroom.symm) hfits.bodyLength_lt, fillStart, hrest,
    Array.append_empty] at hwrite
  simp only [toBytes, hlength, hwrite, bind, Except.bind]
  rfl

namespace Contents.Fits

open LiteralTable

variable {contents : Contents} (h : contents.Fits)
include h

theorem savedLength_eq :
    (ofContents contents).savedLength = headLength + contents.bodyLength := by
  rw [savedLength, h.size_arena]

theorem writeTo_eq (hvalid : contents.IdsValid) (endian : Endian) {buffer : Bytes}
    (hroom : headLength + contents.bodyLength ≤ buffer.size) :
    (ofContents contents).writeTo endian buffer
      = .ok (.ok (headLength + contents.bodyLength),
          fillStart buffer (head endian ++ contents.body endian)) := by
  rw [← setSaved_eq h.partsFit hroom h.bodyLength_lt]
  exact writeTo_of_copy_le (h.contents_ofContents hvalid) (h.savedLength_eq ▸ hroom) h.partsFit
    endian hroom

theorem toBytes_eq (hvalid : contents.IdsValid) (endian : Endian) :
    (ofContents contents).toBytes endian = .ok (head endian ++ contents.body endian).toArray :=
  toBytes_of_contents (h.contents_ofContents hvalid) h h.size_arena.symm endian

end Contents.Fits

namespace LiteralTable

/-- A built table comes back from its saved bytes, and the table that is loaded is saved to the same
bytes in either order. Saving into a buffer leaves one that is too short as it is, and what follows
the saved bytes in one that is not. -/
theorem saved_roundTrip {options : Options} {literals : List Literal} {table : LiteralTable}
    (hbuild : build options literals = .ok table)
    (hids : ∀ literal ∈ literals, literal.id.IsValid) :
    (∃ saved loaded, table.toBytes .native = .ok saved ∧ saved.size = table.savedLength
      ∧ load saved = .ok (loaded, table.savedLength)
      ∧ loaded.header = table.header ∧ loaded.scheme = table.scheme ∧ loaded.arena = table.arena
      ∧ ∀ endian, ∃ again, table.toBytes endian = .ok again ∧ loaded.toBytes endian = .ok again)
    ∧ ∀ endian (buffer : Bytes),
      (buffer.size < table.savedLength →
        table.writeTo endian buffer = .ok (.error ⟨"literal table"⟩, buffer))
      ∧ (table.savedLength ≤ buffer.size →
        ∃ saved, table.toBytes endian = .ok saved ∧ saved.size = table.savedLength
          ∧ table.writeTo endian buffer
            = .ok (.ok table.savedLength, saved ++ buffer.extract table.savedLength)) := by
  obtain ⟨scheme, hscheme, -, -, hfits, rfl⟩ := of_build hbuild
  have hvalid := Contents.idsValid_ofLiterals hscheme hids
  rw [hfits.savedLength_eq]
  refine ⟨?_, fun endian buffer => ⟨fun hshort => ?_, fun hroom => ?_⟩⟩
  · exact ⟨_, _, hfits.toBytes_eq hvalid .native, hfits.partsFit.length_saved .native,
      hfits.load_eq hvalid (Bytes.Holds.refl _), rfl, rfl, rfl,
      fun endian => ⟨_, hfits.toBytes_eq hvalid endian, hfits.toBytes_eq hvalid endian⟩⟩
  · exact writeTo_of_lt endian (hfits.savedLength_eq ▸ hshort)
  · refine ⟨_, hfits.toBytes_eq hvalid endian, hfits.partsFit.length_saved endian, ?_⟩
    rw [hfits.writeTo_eq hvalid endian hroom, fillStart, hfits.partsFit.length_saved]

theorem saved_roundTrip_same_arena :
    let options : Options := { scheme? := some (some 0), domain? := some (some 9) }
    let literals : List Literal := [{ id := .wrap 7, bytes := [97, 98] }]
    ∃ table saved loaded, build options literals = .ok table
      ∧ (∀ literal ∈ literals, literal.id.IsValid)
      ∧ table.toBytes .native = .ok saved ∧ saved.size = table.savedLength
      ∧ load saved = .ok (loaded, table.savedLength) ∧ loaded.arena = table.arena := by
  intro options literals
  have hfor : options.schemeFor literals = .ok ⟨0, 32, 8, 1, .none, 0, 0, 9⟩ := by decide +kernel
  have hbuild := build_of_schemeFor hfor (by decide +kernel)
  have hids : ∀ literal ∈ literals, literal.id.IsValid := by decide
  obtain ⟨⟨saved, loaded, hsaved, hsize, hload, -, -, harena, -⟩, -⟩ := saved_roundTrip hbuild hids
  exact ⟨_, saved, loaded, hbuild, hids, hsaved, hsize, hload, harena⟩

end LiteralTable

end Multimatch
