import Multimatch.Proofs.Table.RoundTrip
import Multimatch.Proofs.Table.Loaded

/-!
# Saving a loaded table

`savedLength` is what the arena of a table takes, and what is saved is a decoded copy of it. For a
table that was built the two agree. One that was loaded need not be laid out as tightly, or as
loosely, as a copy of it: two lists may share their records, and bytes may follow the last flood
record. `LiteralTable.HonoursLength` is what `savedLength` promises; `LiteralTable.saved_of_loaded`
says what becomes of every buffer, and that the promise is kept if and only if the copy takes as
many bytes as the arena. `LiteralTable.exists_shared_record` is a table that cannot be saved at all.
-/

namespace Multimatch

namespace LiteralTable

/-- Saving goes by `savedLength`: a buffer of that many bytes is enough, and all of them are
written and no more, and one with fewer is refused and left as it was. -/
structure HonoursLength (table : LiteralTable) (endian : Endian) : Prop where
  toBytes : ∃ saved, table.toBytes endian = .ok saved
  written : ∀ buffer : Bytes, table.savedLength ≤ buffer.size → ∃ saved : Bytes,
    saved.size = table.savedLength ∧ table.writeTo endian buffer
      = .ok (.ok table.savedLength, saved ++ buffer.extract table.savedLength)
  refused : ∀ buffer : Bytes, buffer.size < table.savedLength →
    ∃ error, table.writeTo endian buffer = .ok (.error error, buffer)

/-- A buffer that a table was saved into has room for its copy and starts with it. -/
theorem eq_of_writeTo {table : LiteralTable} {contents : Contents} {endian : Endian}
    {buffer after : Bytes} {written : Nat} (hcontents : table.contents = .ok contents)
    (hparts : contents.PartsFit)
    (hwrite : table.writeTo endian buffer = .ok (.ok written, after)) :
    headLength + contents.bodyLength ≤ buffer.size
      ∧ written = headLength + contents.bodyLength
      ∧ after = setSaved endian contents buffer := by
  rcases Nat.lt_or_ge buffer.size table.savedLength with hshort | hroom
  · rw [writeTo_of_lt endian hshort] at hwrite
    cases hwrite
  · rcases Nat.lt_or_ge buffer.size (headLength + contents.bodyLength) with hshort | hcopy
    · rw [writeTo_of_copy_lt hcontents hroom endian hshort] at hwrite
      cases hwrite
    · rw [writeTo_of_copy_le hcontents hroom hparts endian hcopy] at hwrite
      cases hwrite
      exact ⟨hcopy, rfl, rfl⟩

/-- A table that was laid out from contents has them. -/
theorem decodes_ofContents {contents : Contents} (hfits : contents.Fits)
    (hvalid : contents.IdsValid) : (ofContents contents).Decodes contents := by
  have hheader := (Header.validate_ensures contents.header contents.bodyLength).of_ok
    hfits.validate_eq
  rw [← hfits.size_arena] at hheader
  exact ⟨hheader.1, hheader.2.1, hfits.contents_ofContents hvalid, hfits.partsFit, hvalid⟩

section Loaded

variable {table : LiteralTable} {contents : Contents} (h : table.Decodes contents)
include h

/-- A table is saved on its own if and only if its copy takes no more bytes than its arena. -/
theorem Decodes.exists_toBytes_iff (endian : Endian) :
    (∃ saved, table.toBytes endian = .ok saved) ↔ contents.bodyLength ≤ table.arena.size := by
  have hsize : (Array.replicate table.savedLength (0 : UInt8)).size = table.savedLength :=
    Array.size_replicate
  have hroom := Nat.le_of_eq hsize.symm
  rcases Nat.lt_or_ge table.arena.size contents.bodyLength with hlt | hle
  · have hshort : (Array.replicate table.savedLength (0 : UInt8)).size
        < headLength + contents.bodyLength := by
      rw [hsize]
      exact Nat.add_lt_add_left hlt headLength
    have hwrite := writeTo_of_copy_lt h.eq_ok hroom endian hshort
    refine iff_of_false ?_ (Nat.not_le.2 hlt)
    rintro ⟨saved, hsaved⟩
    simp only [LiteralTable.toBytes, hwrite, bind, Except.bind] at hsaved
    cases hsaved
  · have hcopy : headLength + contents.bodyLength
        ≤ (Array.replicate table.savedLength (0 : UInt8)).size := by
      rw [hsize]
      exact Nat.add_le_add_left hle headLength
    have hwrite := writeTo_of_copy_le h.eq_ok hroom h.fits endian hcopy
    refine iff_of_true ⟨setSaved endian contents (.replicate table.savedLength 0), ?_⟩ hle
    simp only [LiteralTable.toBytes, hwrite, bind, Except.bind]
    rfl

/-- A buffer with enough room gets the copy, byte for byte if its offsets have 32 bits, and keeps
what follows it. -/
theorem Decodes.exists_saved {buffer : Bytes} (hroom : table.savedLength ≤ buffer.size)
    (endian : Endian) (hcopy : headLength + contents.bodyLength ≤ buffer.size) : ∃ saved : Bytes,
    saved.size = headLength + contents.bodyLength
      ∧ (contents.bodyLength < Contents.offsetLimit →
        saved = (head endian ++ contents.body endian).toArray)
      ∧ table.writeTo endian buffer
        = .ok (.ok saved.size, saved ++ buffer.extract saved.size) := by
  obtain ⟨saved, hsize, hsmall, hset⟩ := @exists_setSaved_eq _ h.fits endian _ hcopy
  refine ⟨saved, hsize, hsmall, ?_⟩
  rw [writeTo_of_copy_le h.eq_ok hroom h.fits endian hcopy, hset, hsize]

theorem Decodes.honoursLength_iff (endian : Endian) :
    table.HonoursLength endian ↔ contents.bodyLength = table.arena.size := by
  constructor
  · intro hhonours
    -- A buffer that is long enough for both lengths gets either of them for an answer.
    have hroom : table.savedLength
        ≤ (Array.replicate (table.savedLength + contents.bodyLength) (0 : UInt8)).size := by
      rw [Array.size_replicate]
      exact Nat.le_add_right ..
    have hcopy : headLength + contents.bodyLength
        ≤ (Array.replicate (table.savedLength + contents.bodyLength) (0 : UInt8)).size := by
      rw [Array.size_replicate]
      exact Nat.add_le_add_right (Nat.le_add_right ..) _
    have hwrite := writeTo_of_copy_le h.eq_ok hroom h.fits endian hcopy
    obtain ⟨saved, -, hsaved⟩ := hhonours.written _ hroom
    rw [hwrite] at hsaved
    simp only [Except.ok.injEq, Prod.mk.injEq] at hsaved
    exact Nat.add_left_cancel hsaved.1
  · intro heq
    have hlength : headLength + contents.bodyLength = table.savedLength := by
      rw [heq, savedLength]
    refine ⟨(h.exists_toBytes_iff endian).2 (Nat.le_of_eq heq), fun buffer hroom => ?_,
      fun buffer hshort => ⟨_, writeTo_of_lt endian hshort⟩⟩
    obtain ⟨saved, hsize, -, hwrite⟩ := h.exists_saved hroom endian (hlength ▸ hroom)
    rw [hsize, hlength] at hwrite
    exact ⟨saved, hsize.trans hlength, hwrite⟩

end Loaded

/-- The start of a saved table is no start of a blank buffer. -/
theorem fillStart_head_ne {size : Nat} (endian : Endian) (hroom : headLength ≤ size) :
    fillStart (.replicate size 0) (head endian) ≠ .replicate size 0 := by
  intro heq
  have hfirst : (head endian)[0]? = some 102 := by cases endian <;> decide +kernel
  have hfilled : (fillStart (.replicate size 0) (head endian))[0]? = some 102 := by
    have hlength : 0 < (head endian).toArray.size := (List.getElem?_eq_some_iff.1 hfirst).1
    rw [fillStart, Array.getElem?_append_left hlength, List.getElem?_toArray, hfirst]
  have hpos : 0 < size := Nat.lt_of_lt_of_le (by decide) hroom
  rw [heq, Array.getElem?_replicate, if_pos hpos] at hfilled
  exact absurd hfilled (by decide)

/-- A table whose copy takes more bytes than its arena is never saved on its own, and a blank buffer
that should be long enough is refused, but not left blank. -/
theorem Decodes.refused_of_size_lt {table : LiteralTable} {contents : Contents}
    (h : table.Decodes contents) (hlt : table.arena.size < contents.bodyLength) (endian : Endian) :
    (∀ saved, table.toBytes endian ≠ .ok saved)
      ∧ table.writeTo endian (.replicate table.savedLength 0) = .ok
        (.error ⟨"literal table"⟩, fillStart (.replicate table.savedLength 0) (head endian))
      ∧ fillStart (.replicate table.savedLength 0) (head endian) ≠ .replicate table.savedLength 0
      ∧ ¬ table.HonoursLength endian := by
  refine ⟨fun saved hsaved => ?_, ?_, fillStart_head_ne endian (Nat.le_add_right ..), ?_⟩
  · have hle := (h.exists_toBytes_iff endian).1 ⟨saved, hsaved⟩
    exact Nat.not_lt.2 hle hlt
  · refine writeTo_of_copy_lt h.eq_ok (Nat.le_of_eq Array.size_replicate.symm) endian ?_
    rw [Array.size_replicate]
    exact Nat.add_lt_add_left hlt headLength
  · intro hhonours
    exact Nat.ne_of_gt hlt ((h.honoursLength_iff endian).1 hhonours)

/-- Every table that is loaded has a copy to save. A buffer shorter than `savedLength` is refused
and left as it was; one that is too short for the copy is refused too, but starts with the head
then; any other gets as many bytes as the copy takes, which are the copy where its offsets have 32
bits, and keeps what follows them. The length is honoured if and only if the copy takes as many
bytes as the arena. -/
theorem saved_of_loaded {bytes : Bytes} {table : LiteralTable} {count : Nat}
    (hload : load bytes = .ok (table, count)) :
    ∃ contents, table.contents = .ok contents ∧ ∀ endian,
      (∀ buffer : Bytes, buffer.size < table.savedLength →
        table.writeTo endian buffer = .ok (.error ⟨"literal table"⟩, buffer))
      ∧ (∀ buffer : Bytes, table.savedLength ≤ buffer.size →
        buffer.size < headLength + contents.bodyLength →
          table.writeTo endian buffer
            = .ok (.error ⟨"literal table"⟩, fillStart buffer (head endian)))
      ∧ (∀ buffer : Bytes, table.savedLength ≤ buffer.size →
        headLength + contents.bodyLength ≤ buffer.size → ∃ saved : Bytes,
          saved.size = headLength + contents.bodyLength
            ∧ (contents.bodyLength < Contents.offsetLimit →
              saved = (head endian ++ contents.body endian).toArray)
            ∧ table.writeTo endian buffer
              = .ok (.ok saved.size, saved ++ buffer.extract saved.size))
      ∧ ((∃ saved, table.toBytes endian = .ok saved) ↔ contents.bodyLength ≤ table.arena.size)
      ∧ (table.HonoursLength endian ↔ contents.bodyLength = table.arena.size) := by
  obtain ⟨⟨contents, hdecodes⟩, -⟩ := (load_decodes bytes).of_ok hload
  exact ⟨contents, hdecodes.eq_ok, fun endian => ⟨fun _ => writeTo_of_lt endian,
    fun _ hroom => writeTo_of_copy_lt hdecodes.eq_ok hroom endian,
    fun _ hroom => hdecodes.exists_saved hroom endian, hdecodes.exists_toBytes_iff endian,
    hdecodes.honoursLength_iff endian⟩⟩

theorem saved_of_loaded_honoured :
    let options : Options := { scheme? := some (some 0), domain? := some (some 9) }
    let literals : List Literal := [{ id := .wrap 7, bytes := [97, 98] }]
    ∃ bytes table count contents, build options literals = .ok table
      ∧ load bytes = .ok (table, count) ∧ table.contents = .ok contents
      ∧ contents.bodyLength = table.arena.size ∧ ∀ endian, table.HonoursLength endian := by
  intro options literals
  have hfor : options.schemeFor literals = .ok ⟨0, 32, 8, 1, .none, 0, 0, 9⟩ := by decide +kernel
  have hbuild := build_of_schemeFor hfor (by decide +kernel)
  obtain ⟨scheme, hscheme, -, -, hfits, htable⟩ := of_build hbuild
  have hvalid := Contents.idsValid_ofLiterals hscheme (show ∀ literal ∈ literals, _ by decide)
  have hload := hfits.load_eq hvalid (Bytes.Holds.refl _)
  have hcontents := hfits.contents_ofContents hvalid
  have hsize := hfits.size_arena
  rw [← htable] at hload hcontents hsize
  obtain ⟨contents, hcopy, hsaved⟩ := saved_of_loaded hload
  cases hcontents.symm.trans hcopy
  exact ⟨_, _, _, _, hbuild, hload, hcontents, hsize.symm,
    fun endian => (hsaved endian).2.2.2.2.2 hsize.symm⟩

/-! ## Lists that share a record -/

namespace SharedRecord

def scheme : Scheme := ⟨0, 32, 8, 1, .none, 0, 0, 9⟩

/-- The entry of a literal of one byte. -/
def entry : ConfirmEntry := .of { id := .wrap 0, bytes := [97] } scheme.quickLength

/-- A confirm region whose first two lists have the same record. -/
def confirm : List UInt8 :=
  let directory := [64, 1, 64, 1] ++ (List.replicate 6 [104, 0]).flatten
  directory.flatMap (Endian.native.encode 4) ++ entry.encode .native 104 ++ [97]

def flood : FloodIndex := ⟨List.replicate 256 0, [FloodRecord.empty 0]⟩

def header : Header :=
  { schemeId := 0, size := 3481, maxLength := 1, floodOffset := 2185, confirmOffset := 2080
    domain := 9, wordLength := 4, keyMask := 511, tableSize := 2048 }

def body : List UInt8 :=
  header.encode .native ++ List.replicate 2048 0 ++ confirm ++ flood.encode .native

def table : LiteralTable := ⟨body.toArray, header, scheme⟩

theorem flood_fits : flood.Fits where
  index_length := List.length_replicate
  index_lt := fun number hnumber => by
    rw [List.eq_of_mem_replicate hnumber]
    exact Nat.one_pos
  records := by
    intro record hrecord
    cases List.mem_singleton.1 hrecord
    exact ⟨by decide, by decide, nofun⟩
  first := ⟨_, rfl, rfl⟩

theorem length_confirm : confirm.length = 105 := by decide +kernel

theorem length_flood : (flood.encode .native).length = flood.encodedLength :=
  FloodIndex.length_encode .native flood_fits.index_length fun r hr =>
    (flood_fits.records r hr).entries

theorem length_body : body.length = 3481 := by
  simp only [body, List.length_append, Header.length_encode, List.length_replicate, length_confirm,
    length_flood]
  rfl

theorem confirmRegion_eq : table.confirmRegion = .ok (.of scheme confirm.toArray) := by
  have hconfirm : Bytes.Holds body.toArray 2080 confirm := by
    have hbody := (Bytes.Holds.refl body).left.right
    rwa [List.length_append, Header.length_encode, List.length_replicate] at hbody
  have hslice := hconfirm.slice
  rw [length_confirm] at hslice
  simp only [LiteralTable.confirmRegion, table, header, hslice, bind, Except.bind]
  rfl

theorem floodRegion_eq : table.floodRegion = .ok ⟨(flood.encode .native).toArray⟩ := by
  have hflood : Bytes.Holds body.toArray 2185 (flood.encode .native) := by
    have hbody := (Bytes.Holds.refl body).right
    rwa [List.length_append, List.length_append, Header.length_encode, List.length_replicate,
      length_confirm] at hbody
  have hslice := hflood.slice
  rw [length_flood] at hslice
  simp only [LiteralTable.floodRegion, table, header, List.size_toArray, length_body]
  rw [show 3481 = 2185 + flood.encodedLength from rfl, hslice]
  rfl

theorem lists_eq : (ConfirmRegion.of scheme confirm.toArray).lists
    = .ok ([entry] :: [entry] :: List.replicate 6 []) := by
  decide +kernel

theorem flood_valid : ∀ record ∈ flood.records, record.IdsValid := by
  intro record hrecord
  cases List.mem_singleton.1 hrecord
  exact nofun

theorem load_eq : load (head .native ++ body).toArray = .ok (table, headLength + body.length) := by
  have hbytes := Bytes.Holds.refl (head .native ++ body)
  have hheader := hbytes.right.left.left.left
  rw [Nat.zero_add, length_head] at hheader
  have hfits : header.Fits := by constructor <;> decide
  refine load_eq_ok hbytes hfits hheader length_body.symm ?_ confirmRegion_eq ?_ floodRegion_eq ?_
  · rw [length_body]
    rfl
  · rfl
  · exact FloodRegion.check_eq flood_fits flood_valid (by decide) length_flood (Bytes.Holds.refl _)

theorem size_arena : table.arena.size = 3481 := length_body

/-- A copy of the table has the record twice. -/
theorem bodyLength_of_contents {contents : Contents} (hcontents : table.contents = .ok contents) :
    contents.bodyLength = 3528 := by
  obtain ⟨hscheme, -, -, ⟨region, hregion, hlists⟩, region', hregion', hflood⟩ :=
    contents_eq_ok_iff.1 hcontents
  cases confirmRegion_eq.symm.trans hregion
  cases floodRegion_eq.symm.trans hregion'
  have hconfirm := Except.ok.inj (lists_eq.symm.trans hlists)
  have hindex := flood_fits.contents_eq flood_valid (by decide) length_flood (Bytes.Holds.refl _)
  have hflood := Except.ok.inj (hindex.symm.trans hflood)
  rw [Contents.bodyLength, Contents.floodOffset, Contents.confirmOffset, hscheme, ← hconfirm,
    ← hflood]
  decide +kernel

end SharedRecord

/-- A table is loaded two of whose lists have one record between them. Its copy has that record
twice: it does not fit the length that is given for it, so that the table cannot be saved, and a
buffer of that length is refused when its start has been written. -/
theorem exists_shared_record : ∃ bytes table count, load bytes = .ok (table, count)
    ∧ ∀ endian, (∀ saved, table.toBytes endian ≠ .ok saved)
      ∧ table.writeTo endian (.replicate table.savedLength 0) = .ok
        (.error ⟨"literal table"⟩, fillStart (.replicate table.savedLength 0) (head endian))
      ∧ fillStart (.replicate table.savedLength 0) (head endian) ≠ .replicate table.savedLength 0
      ∧ ¬ table.HonoursLength endian := by
  obtain ⟨⟨contents, hdecodes⟩, -⟩ := (load_decodes _).of_ok SharedRecord.load_eq
  have hlt : SharedRecord.table.arena.size < contents.bodyLength := by
    rw [SharedRecord.size_arena, SharedRecord.bodyLength_of_contents hdecodes.eq_ok]
    decide
  exact ⟨_, _, _, SharedRecord.load_eq, fun endian => hdecodes.refused_of_size_lt hlt endian⟩

end LiteralTable

end Multimatch
