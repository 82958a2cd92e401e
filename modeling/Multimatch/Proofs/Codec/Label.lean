import Multimatch.Codec.Label
import Multimatch.Proofs.Codec.Placed

/-!
# Reading back the head of a saved object

The reader of each part of a head accepts what the writer of that part put, and reads as many bytes
as were put (`readLabel_eq`, `readEndian_eq`, `readVersion_eq`). For the label this asks that its
terminator does not start a block of eight bytes: the reader does not count that block
(`readLabel_writeLabel`).
-/

namespace Multimatch.Codec

theorem toList_loop_eq (bytes : ByteArray) (start : Nat) (read : List UInt8) :
    ByteArray.toList.loop bytes start read = read.reverse ++ bytes.data.toList.drop start := by
  fun_induction ByteArray.toList.loop bytes start read with
  | case1 start read hlt ih =>
    have hget : bytes.get! start = bytes.data.toList[start] := by
      simp [ByteArray.get!, getElem!_pos, hlt]
    rw [ih, List.reverse_cons, List.append_assoc, hget, List.singleton_append,
      List.getElem_cons_drop]
  | case2 start read hle =>
    rw [List.drop_eq_nil_of_le (by simpa using hle), List.append_nil]

/-- The bytes of a text are as many as its size says. -/
theorem length_utf8 (text : String) : text.toUTF8.toList.length = text.utf8ByteSize := by
  rw [ByteArray.toList, toList_loop_eq]
  rfl

/-- The first NUL among the bytes of a label and what follows them is its terminator. -/
theorem findIdx?_nul {text rest : List UInt8} (hnul : text.contains 0 = false) :
    (text ++ 0 :: rest).findIdx? (· == 0) = some text.length := by
  have hnone : text.findIdx? (· == 0) = none := by
    rw [List.findIdx?_eq_none_iff]
    intro byte hbyte
    rw [List.contains_eq_mem, decide_eq_false_iff_not] at hnul
    exact beq_false_of_ne fun h => hnul (h ▸ hbyte)
  rw [List.findIdx?_append, hnone, List.findIdx?_cons]
  simp

theorem toUTF8_inj {text other : String} (h : text.toUTF8.toList = other.toUTF8.toList) :
    text = other := by
  simp only [ByteArray.toList, toList_loop_eq, List.reverse_nil, List.nil_append,
    List.drop_zero] at h
  exact String.toByteArray_inj.1 (ByteArray.ext (Array.toList_inj.1 h))

/-! ## Labels -/

theorem labelLength_eq_ok_iff {label : String} {length : Nat} :
    labelLength label = .ok length ↔ label.utf8ByteSize ≤ 255 ∧ 0 ∉ label.toUTF8.toList ∧
      length = label.utf8ByteSize + 1 + paddingLength (label.utf8ByteSize + 1) := by
  unfold labelLength
  split
  · next hlong => exact ⟨nofun, fun h => absurd h.1 (Nat.not_le.2 hlong)⟩
  · next hshort =>
    split
    · next hnul => exact ⟨nofun, fun h => absurd (List.contains_iff_mem.1 hnul) h.2.1⟩
    · next hnul =>
      rw [Except.ok.injEq, eq_comm]
      exact ⟨fun h => ⟨Nat.not_lt.1 hshort, mt List.contains_iff_mem.2 hnul, h⟩, fun h => h.2.2⟩

theorem length_labelBytes {label : String} {length : Nat} (hle : label.utf8ByteSize ≤ length) :
    (labelBytes label length).length = length := by
  rw [labelBytes, List.length_append, List.length_replicate, length_utf8]
  omega

/-- What a reader counts for a label: it brings the place of the terminator up to a multiple of
eight, not the length that includes the terminator. -/
def labelCount (label : String) : Nat := label.utf8ByteSize + paddingLength label.utf8ByteSize

/-- A reader counts what was written, unless the terminator starts a block of eight bytes: it does
not count that block. -/
theorem labelCount_eq {label : String} {length : Nat} (hlength : labelLength label = .ok length) :
    labelCount label = if label.utf8ByteSize % 8 = 0 then length - 8 else length := by
  obtain ⟨-, -, rfl⟩ := labelLength_eq_ok_iff.1 hlength
  unfold labelCount paddingLength
  split <;> omega

/-- Where a label was written, each label but this one is refused. -/
theorem readLabel_of_holds {bytes : Bytes} {label : String} {length : Nat}
    (hlength : labelLength label = .ok length) (h : bytes.Holds 0 (labelBytes label length))
    (expected : String) :
    readLabel bytes expected
      = if expected = label then .ok (labelCount label) else .error (.labelMismatch expected) := by
  have hsize := length_utf8 label
  have hle := h.size_le
  obtain ⟨before, after, heq, hbefore⟩ := h
  cases List.length_eq_zero_iff.1 hbefore
  obtain ⟨hshort, hnul, rfl⟩ := labelLength_eq_ok_iff.1 hlength
  rw [length_labelBytes (by omega)] at hle
  rw [labelBytes, Nat.add_assoc, Nat.add_sub_cancel_left, Nat.add_comm 1,
    List.replicate_succ, List.nil_append, List.append_assoc, List.cons_append] at heq
  have hfits : label.toUTF8.toList.length ≤ labelReach - 0 := by
    unfold labelReach
    omega
  have hreach : (bytes.extract 0 labelReach).toList = label.toUTF8.toList ++ 0 ::
      (List.replicate (paddingLength (label.utf8ByteSize + 1)) 0 ++ after).take
        (255 - label.utf8ByteSize) := by
    rw [Array.toList_extract, List.extract_eq_take_drop, List.drop_zero, heq,
      List.take_append, List.take_of_length_le hfits, hsize,
      show labelReach - 0 - label.utf8ByteSize = (255 - label.utf8ByteSize) + 1 by
        unfold labelReach; omega,
      List.take_succ_cons]
  have hroom : ¬ bytes.size < label.utf8ByteSize + paddingLength label.utf8ByteSize := by
    unfold paddingLength at hle ⊢
    omega
  have hnone : label.toUTF8.toList.contains 0 = false :=
    Bool.eq_false_iff.2 fun h => hnul (List.contains_iff_mem.1 h)
  have hsame : label.toUTF8.toList = expected.toUTF8.toList ↔ expected = label :=
    ⟨fun h => (toUTF8_inj h).symm, fun h => h ▸ rfl⟩
  simp only [readLabel, hreach, findIdx?_nul hnone, hsize, hroom, if_false]
  rw [← hsize, List.take_left, hsize]
  simp only [hsame, labelCount]

theorem readLabel_eq {bytes : Bytes} {label : String} {length : Nat}
    (hlength : labelLength label = .ok length) (hblock : label.utf8ByteSize % 8 ≠ 0)
    (h : bytes.Holds 0 (labelBytes label length)) : readLabel bytes label = .ok length := by
  rw [readLabel_of_holds hlength h, if_pos rfl, labelCount_eq hlength, if_neg hblock]

/-- A buffer with room takes the bytes at its start and keeps what is behind them. -/
theorem put_eq {buffer : Bytes} {bytes : List UInt8} (what : String)
    (hroom : bytes.length ≤ buffer.size) :
    ∃ after, put buffer bytes what = (.ok bytes.length, after) ∧ after.size = buffer.size ∧
      after.Holds 0 bytes ∧ ∀ place, bytes.length ≤ place → after[place]? = buffer[place]? := by
  refine ⟨bytes.toArray ++ buffer.extract bytes.length, ?_, ?_, ?_, fun place hplace => ?_⟩
  · rw [put, if_neg (Nat.not_lt.2 hroom)]
  · rw [Array.size_append, Array.size_extract, List.size_toArray]
    omega
  · exact ⟨[], (buffer.extract bytes.length).toList, by simp, rfl⟩
  · have hskip : bytes.length + (place - bytes.length) = place := Nat.add_sub_cancel' hplace
    simp only [Array.getElem?_append, List.size_toArray, Nat.not_lt.2 hplace, if_false,
      Array.getElem?_extract, Nat.min_self, hskip]
    split
    · rfl
    · exact (Array.getElem?_eq_none (by omega)).symm

/-- A label that may be written is written into any buffer with room for it, whatever it held, and
nothing behind it changes. -/
theorem exists_writeLabel {label : String} {length : Nat} {buffer : Bytes}
    (hlength : labelLength label = .ok length) (hroom : length ≤ buffer.size) :
    ∃ written, writeLabel label buffer = .ok (.ok length, written) ∧ written.size = buffer.size ∧
      written.Holds 0 (labelBytes label length) ∧
      ∀ place, length ≤ place → written[place]? = buffer[place]? := by
  obtain ⟨-, -, hsum⟩ := labelLength_eq_ok_iff.1 hlength
  have hbytes : (labelBytes label length).length = length := length_labelBytes (by omega)
  obtain ⟨written, hput, hsize, hholds, hbehind⟩ := put_eq "label" (hbytes.symm ▸ hroom)
  rw [hbytes] at hput hbehind
  refine ⟨written, ?_, hsize, hholds, hbehind⟩
  rw [writeLabel, hlength]
  exact congrArg Except.ok hput

/-- A label that may be written is written in whole blocks of eight bytes into any buffer with room
for them, whatever it held, and nothing behind them changes. Each other label is refused there. The
label itself is accepted, but one whose length is a multiple of eight is counted one block short, so
that what follows it is looked for where its terminator is. -/
theorem readLabel_writeLabel (label : String) (hshort : label.utf8ByteSize ≤ 255)
    (hnul : 0 ∉ label.toUTF8.toList) :
    ∃ length, labelLength label = .ok length ∧ length % 8 = 0 ∧ label.utf8ByteSize < length ∧
      ∀ buffer : Bytes, length ≤ buffer.size →
        ∃ written, writeLabel label buffer = .ok (.ok length, written) ∧
          written.size = buffer.size ∧
          (∀ place, length ≤ place → written[place]? = buffer[place]?) ∧
          readLabel written label
            = .ok (if label.utf8ByteSize % 8 = 0 then length - 8 else length) ∧
          ∀ expected, expected ≠ label →
            readLabel written expected = .error (.labelMismatch expected) := by
  have hlength := labelLength_eq_ok_iff.2 ⟨hshort, hnul, rfl⟩
  refine ⟨_, hlength, add_paddingLength_mod _, by omega, fun buffer hroom => ?_⟩
  obtain ⟨written, hwrite, hsize, hholds, hbehind⟩ := exists_writeLabel hlength hroom
  refine ⟨written, hwrite, hsize, hbehind, ?_, fun expected hne => ?_⟩
  · rw [readLabel_of_holds hlength hholds, if_pos rfl, labelCount_eq hlength]
  · rw [readLabel_of_holds hlength hholds, if_neg hne]

/-- A label of five bytes takes one block, and the reader counts it. -/
theorem readLabel_writeLabel_table :
    ∃ length, labelLength "table" = .ok length ∧ length % 8 = 0 ∧ 5 < length ∧
      ∀ buffer : Bytes, length ≤ buffer.size →
        ∃ written, writeLabel "table" buffer = .ok (.ok length, written) ∧
          written.size = buffer.size ∧
          (∀ place, length ≤ place → written[place]? = buffer[place]?) ∧
          readLabel written "table" = .ok length ∧
          ∀ expected, expected ≠ "table" →
            readLabel written expected = .error (.labelMismatch expected) :=
  readLabel_writeLabel "table" (by decide) (by decide +kernel)

/-- A label of eight bytes takes two blocks, and the reader counts one. -/
theorem exists_label_counted_short :
    "abcdefgh".utf8ByteSize ≤ 255 ∧ 0 ∉ "abcdefgh".toUTF8.toList ∧
      ∃ written, writeLabel "abcdefgh" (Array.replicate 16 0) = .ok (.ok 16, written) ∧
        readLabel written "abcdefgh" = .ok 8 := by
  have hshort : "abcdefgh".utf8ByteSize ≤ 255 := by decide
  have hnul : 0 ∉ "abcdefgh".toUTF8.toList := by decide +kernel
  have hlength := labelLength_eq_ok_iff.2 ⟨hshort, hnul, rfl⟩
  have hroom : 16 ≤ Array.size (Array.replicate 16 (0 : UInt8)) := by decide
  obtain ⟨written, hwrite, -, hholds, -⟩ := exists_writeLabel hlength hroom
  exact ⟨hshort, hnul, written, hwrite, readLabel_of_holds hlength hholds "abcdefgh"⟩

/-- The order mark of native order is accepted. -/
theorem readEndian_eq {bytes : Bytes} {place : Nat} (h : bytes.Holds place (endianBytes .native)) :
    readEndian bytes place = .ok endianLength := by
  have hmark := h.wordAt (by decide)
  simp only [readEndian, Reader.tryWordAt_eq _ hmark, bind, Except.bind, if_true]
  rfl

/-- The order mark of the other order is refused. What is found is the mark with its bytes
reversed. -/
theorem readEndian_of_foreign {bytes : Bytes} {place : Nat} {endian : Endian}
    (hforeign : endian ≠ .native) (h : bytes.Holds place (endianBytes endian)) :
    readEndian bytes place
      = .error (.refused (.endianMismatch endianMark 0xFFFE000000000000)) := by
  cases endian with
  | little => exact absurd rfl hforeign
  | big =>
    have hmark := h.wordAt_decode
    rw [endianBytes, Endian.length_encode,
      show Endian.native.decode (Endian.big.encode endianLength endianMark) = 0xFFFE000000000000 by
        decide] at hmark
    simp only [readEndian, Reader.tryWordAt_eq _ hmark, bind, Except.bind]
    rfl

theorem readVersion_eq {bytes : Bytes} {place version : Nat} (hversion : version < 1 <<< 64)
    (h : bytes.Holds place (versionBytes .native version)) :
    readVersion bytes place version = .ok versionLength := by
  have hfound := h.wordAt hversion
  simp only [readVersion, Reader.tryWordAt_eq _ hfound, bind, Except.bind, if_true]
  rfl

end Multimatch.Codec
