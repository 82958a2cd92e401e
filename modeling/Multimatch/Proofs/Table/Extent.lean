import Multimatch.Proofs.Table.Loaded
import Multimatch.Proofs.Table.RoundTrip

/-!
# How far loading reads

Loading answers with the number of bytes that it read, and the answer depends on these bytes only:
bytes that agree so far (`Bytes.Agree`) are loaded as the same table (`LiteralTable.load_of_agree`).
That a saved table is refused when its end is cut off comes of it: what could be loaded from a part
would be loaded from the whole too, with the count of the part (`LiteralTable.load_exact`).
-/

namespace Multimatch

theorem Load.liftM_eq_ok_iff {α : Type} {part : Except LoadError α} {value : α} :
    (liftM part : Load α) = .ok value ↔ part = .ok value := by
  cases part with
  | ok other => exact ⟨fun h => by cases h; rfl, fun h => by cases h; rfl⟩
  | error error => exact ⟨nofun, nofun⟩

theorem Load.liftM_read_eq_ok_iff {α : Type} {part : Except Fault α} {value : α} :
    (liftM part : Load α) = .ok value ↔ part = .ok value := by
  cases part with
  | ok other => exact ⟨fun h => by cases h; rfl, fun h => by cases h; rfl⟩
  | error error => exact ⟨nofun, nofun⟩

/-! ## Bytes that start alike -/

namespace Bytes

/-- Both have so many bytes, and these are the same. -/
structure Agree (count : Nat) (a b : Bytes) : Prop where
  left : count ≤ a.size
  right : count ≤ b.size
  same : ∀ place, place < count → a[place]? = b[place]?

namespace Agree

variable {count : Nat} {a b : Bytes} (h : Agree count a b)
include h

theorem symm : Agree count b a := ⟨h.right, h.left, fun place hlt => (h.same place hlt).symm⟩

theorem trans {c : Bytes} (h' : Agree count b c) : Agree count a c :=
  ⟨h.left, h'.right, fun place hlt => (h.same place hlt).trans (h'.same place hlt)⟩

theorem extract_eq (start : Nat) {stop : Nat} (hstop : stop ≤ count) :
    a.extract start stop = b.extract start stop := by
  apply Array.ext_getElem?
  intro i
  rw [Array.getElem?_extract, Array.getElem?_extract, Nat.min_eq_left (Nat.le_trans hstop h.left),
    Nat.min_eq_left (Nat.le_trans hstop h.right)]
  split
  · exact h.same _ (by omega)
  · rfl

theorem slice_eq {start stop : Nat} (hordered : start ≤ stop) (hstop : stop ≤ count) :
    a.slice start stop = b.slice start stop := by
  rw [slice_eq_ok hordered (Nat.le_trans hstop h.left),
    slice_eq_ok hordered (Nat.le_trans hstop h.right), h.extract_eq _ hstop]

theorem wordAt_eq {place width : Nat} (hroom : place + width ≤ count) :
    a.wordAt place width = b.wordAt place width := by
  rw [wordAt_eq_ok (Nat.le_trans hroom h.left), wordAt_eq_ok (Nat.le_trans hroom h.right),
    h.extract_eq _ hroom]

theorem tryWordAt_eq {place width : Nat} {what : String} (hroom : place + width ≤ count) :
    Reader.tryWordAt a place width what = Reader.tryWordAt b place width what := by
  have hleft := wordAt_eq_ok (Nat.le_trans hroom h.left)
  have hright := wordAt_eq_ok (Nat.le_trans hroom h.right)
  rw [Reader.tryWordAt_eq what hleft, Reader.tryWordAt_eq what hright, h.extract_eq _ hroom]

theorem readEndian_eq {place : Nat} (hroom : place + Codec.endianLength ≤ count) :
    Codec.readEndian a place = Codec.readEndian b place := by
  rw [Codec.readEndian, Codec.readEndian, h.tryWordAt_eq hroom]

theorem readVersion_eq {place version : Nat} (hroom : place + Codec.versionLength ≤ count) :
    Codec.readVersion a place version = Codec.readVersion b place version := by
  rw [Codec.readVersion, Codec.readVersion, h.tryWordAt_eq hroom]

theorem readHeader_eq {place : Nat} (hroom : place + Header.encodedLength ≤ count) :
    Header.read a place = Header.read b place := by
  have hroom : place + 32 ≤ count := hroom
  have hleft : ¬ a.size < place := by have := h.left; omega
  have hright : ¬ b.size < place := by have := h.right; omega
  have hlength (bytes : Bytes) (hcount : count ≤ bytes.size) :
      Reader.checkLength (bytes.size - place) Header.encodedLength "literal table header"
        = .ok () := Reader.checkLength_eq_ok _ (by simp only [Header.encodedLength]; omega)
  have hword (offset width : Nat) (hoffset : offset + width ≤ 32) :
      a.wordAt (place + offset) width = b.wordAt (place + offset) width :=
    h.wordAt_eq (by omega)
  simp only [Header.read, hleft, hright, if_false, hlength a h.left, hlength b h.right,
    hword 4 4 (by decide), hword 8 4 (by decide), hword 12 4 (by decide), hword 16 4 (by decide),
    hword 20 1 (by decide), hword 21 1 (by decide), hword 22 2 (by decide), hword 24 4 (by decide),
    show a.wordAt place 4 = b.wordAt place 4 from hword 0 4 (by decide)]

/-- The end of a label is looked for further than the label goes, but only up to the first NUL. -/
theorem readLabel_eq {label : String} {length : Nat} (hread : Codec.readLabel a label = .ok length)
    (hnul : label.utf8ByteSize < count) (hlength : length ≤ count) :
    Codec.readLabel b label = .ok length := by
  unfold Codec.readLabel at hread ⊢
  dsimp only at hread ⊢
  cases hfind : (a.extract 0 Codec.labelReach).toList.findIdx? (· == 0) with
  | none => rw [hfind] at hread; cases hread
  | some nul =>
    simp only [hfind] at hread
    split at hread
    · cases hread
    · split at hread
      · next hsame =>
        obtain ⟨hreach, -⟩ := List.findIdx?_eq_some_iff_getElem.1 hfind
        have hsize : nul = label.utf8ByteSize := by
          rw [← Codec.length_utf8, ← hsame, List.length_take, Nat.min_eq_left (Nat.le_of_lt hreach)]
        have hwindow : nul + 1 ≤ Codec.labelReach := by
          rw [Array.length_toList, Array.size_extract] at hreach
          omega
        -- Up to the NUL both readers see the same bytes.
        have htake : (b.extract 0 Codec.labelReach).toList.take (nul + 1)
            = (a.extract 0 Codec.labelReach).toList.take (nul + 1) := by
          have hreached : nul + 1 ≤ count := by omega
          have heq := congrArg Array.toList (h.symm.extract_eq 0 hreached)
          simp only [Array.toList_extract, List.extract_eq_take_drop, List.drop_zero,
            List.take_take, Nat.sub_zero, Nat.min_eq_left hwindow] at heq ⊢
          exact heq
        have hfound : (b.extract 0 Codec.labelReach).toList.findIdx? (· == 0) = some nul := by
          have hstart := congrArg (List.findIdx? (· == 0)) htake
          rw [List.findIdx?_take, List.findIdx?_take, hfind] at hstart
          obtain ⟨place, hplace, hguard⟩ := Option.bind_eq_some_iff.1 (hstart.trans
            (by simp : _ = some nul))
          rw [hplace, (Option.guard_eq_some_iff.1 hguard).1]
        have hprefix : (b.extract 0 Codec.labelReach).toList.take nul = label.toUTF8.toList := by
          rw [← hsame]
          have := congrArg (List.take nul) htake
          simpa only [List.take_take, Nat.min_eq_left (Nat.le_succ nul)] using this
        have hroom : ¬ b.size < nul + paddingLength nul := by
          have := h.right
          cases hread
          omega
        simp only [hfound, hroom, if_false, hprefix, if_true]
        exact hread
      · cases hread

end Agree

/-- A part that is long enough starts as the whole does. -/
theorem agree_extract {bytes : Bytes} {count length : Nat} (hcount : count ≤ length)
    (hlength : length ≤ bytes.size) : Agree count (bytes.extract 0 length) bytes where
  left := by rwa [Array.size_extract, Nat.sub_zero, Nat.min_eq_left hlength]
  right := Nat.le_trans hcount hlength
  same place hplace := by
    rw [Array.getElem?_extract, if_pos (by omega), Nat.zero_add]

/-- What stands behind the first bytes may change. -/
theorem agree_append {bytes rest : Bytes} {count : Nat} (hcount : count ≤ bytes.size) :
    Agree count bytes (bytes ++ rest) where
  left := hcount
  right := by
    rw [Array.size_append]
    exact Nat.le_trans hcount (Nat.le_add_right ..)
  same place hplace := (Array.getElem?_append_left (Nat.lt_of_lt_of_le hplace hcount)).symm

end Bytes

theorem Codec.eq_of_readEndian {bytes : Bytes} {place length : Nat}
    (h : Codec.readEndian bytes place = .ok length) : length = Codec.endianLength := by
  obtain ⟨mark, -, h⟩ := Except.bind_eq_ok_iff.1 h
  split at h
  · exact (Except.ok.inj h).symm
  · cases h

theorem Codec.eq_of_readVersion {bytes : Bytes} {place version length : Nat}
    (h : Codec.readVersion bytes place version = .ok length) : length = Codec.versionLength := by
  obtain ⟨found, -, h⟩ := Except.bind_eq_ok_iff.1 h
  split at h
  · exact (Except.ok.inj h).symm
  · cases h

theorem Bytes.eq_of_slice {bytes part : Bytes} {start stop : Nat}
    (h : bytes.slice start stop = .ok part) :
    start ≤ stop ∧ stop ≤ bytes.size ∧ part = bytes.extract start stop := by
  unfold slice at h
  split at h
  · next hin => exact ⟨hin.1, hin.2, (Except.ok.inj h).symm⟩
  · cases h

namespace LiteralTable

theorem utf8ByteSize_label : label.utf8ByteSize = 17 := by decide

variable {bytes other : Bytes} {table : LiteralTable} {count : Nat}

/-- The bytes that loading counts are all that it depends on. -/
theorem load_of_agree (hload : load bytes = .ok (table, count))
    (h : Bytes.Agree count bytes other) : load other = .ok (table, count) := by
  simp only [load, Except.bind_eq_ok_iff, Load.liftM_eq_ok_iff] at hload
  obtain ⟨labelRead, hlabel, endianRead, hendian, versionRead, hversion, header, hheader, stop,
    hstop, ⟨⟩, hroom, arena, harena, scheme, hvalidate, confirm, hconfirm, ⟨⟩, hchecked, flood,
    hflood, ⟨⟩, hchecked', heq⟩ := hload
  cases heq
  cases Codec.eq_of_readEndian hendian
  cases Codec.eq_of_readVersion hversion
  obtain ⟨hordered, -, rfl⟩ := Bytes.eq_of_slice (Load.liftM_read_eq_ok_iff.1 harena)
  have hsum := Reader.ensures_add.of_ok (Load.liftM_eq_ok_iff.2 hstop)
  obtain ⟨hsize, htable, hconfirmed, hflooded⟩ :=
    ((header.validate_ensures _).of_ok hvalidate).1.regions
  have hlengths : Codec.endianLength = 8 ∧ Codec.versionLength = 8 ∧ Header.encodedLength = 32 :=
    ⟨rfl, rfl, rfl⟩
  have hlabel' := h.readLabel_eq hlabel (by rw [utf8ByteSize_label]; omega) (by omega)
  rw [h.readEndian_eq (by omega)] at hendian
  rw [h.readVersion_eq (by omega)] at hversion
  rw [h.readHeader_eq (by omega)] at hheader
  rw [h.slice_eq hordered (Nat.le_refl count), h.extract_eq _ (Nat.le_refl count)] at harena
  rw [h.extract_eq _ (Nat.le_refl count)] at hvalidate hconfirm hflood ⊢
  simp only [load, hlabel', hendian, hversion, hheader, hstop, harena, hvalidate, hconfirm,
    hchecked, hflood, hchecked', Reader.checkLength_eq_ok _ h.right, Load.liftM_accepted, bind,
    Except.bind]
  rfl

/-- Loading reads exactly the bytes that it counts. Whatever stands behind them is of no concern,
and without the last of them there is no table: the bytes are refused, and nothing faults. -/
theorem load_exact (hload : load bytes = .ok (table, count)) :
    count ≤ bytes.size
      ∧ (∀ rest : Bytes, load (bytes.extract 0 count ++ rest) = .ok (table, count))
      ∧ ∀ length, length < count →
        ∃ error, load (bytes.extract 0 length) = .error (.refused error) := by
  have hcount := ((load_ensures bytes).of_ok hload).2
  have hpart := Bytes.agree_extract (Nat.le_refl count) hcount
  refine ⟨hcount,
    fun rest => load_of_agree hload (hpart.symm.trans (Bytes.agree_append hpart.left)),
    fun length hlength => ?_⟩
  have hpart := load_ensures (bytes.extract 0 length)
  cases hresult : load (bytes.extract 0 length) with
  | ok loaded =>
    -- The whole would be loaded with the count of its part, and that is too small.
    have hsize := (hpart.of_ok hresult).2
    rw [Array.size_extract, Nat.sub_zero, Nat.min_eq_left (by omega)] at hsize
    have hwhole := load_of_agree hresult (Bytes.agree_extract hsize (by omega))
    cases hload.symm.trans hwhole
    exact absurd hlength (Nat.not_lt.2 hsize)
  | error failure =>
    cases failure with
    | refused error => exact ⟨error, rfl⟩
    | fault fault => exact absurd hresult (hpart.ne_fault fault)

theorem load_exact_longer_and_shorter :
    let options : Options := { scheme? := some (some 0), domain? := some (some 9) }
    let literals : List Literal := [{ id := .wrap 7, bytes := [97, 98] }]
    ∃ built saved table count, build options literals = .ok built
      ∧ built.toBytes .native = .ok saved ∧ load saved = .ok (table, count)
      ∧ load (saved.extract 0 count ++ #[0, 1]) = .ok (table, count)
      ∧ ∃ error, load (saved.extract 0 (count - 1)) = .error (.refused error) := by
  intro options literals
  have hfor : options.schemeFor literals = .ok ⟨0, 32, 8, 1, .none, 0, 0, 9⟩ := by decide +kernel
  have hbuild := build_of_schemeFor hfor (by decide +kernel)
  obtain ⟨scheme, hscheme, -, -, hfits, htable⟩ := of_build hbuild
  have hvalid := Contents.idsValid_ofLiterals hscheme (show ∀ literal ∈ literals, _ by decide)
  have hsaved := hfits.toBytes_eq hvalid .native
  have hload := hfits.load_eq hvalid (Bytes.Holds.refl _)
  rw [← htable] at hsaved hload
  obtain ⟨-, hrest, hshort⟩ := load_exact hload
  have hpos : 0 < headLength + (Contents.ofLiterals scheme literals).bodyLength :=
    Nat.lt_of_lt_of_le (by decide) (Nat.le_add_right ..)
  exact ⟨_, _, _, _, hbuild, hsaved, hload, hrest _, hshort _ (Nat.sub_lt hpos Nat.one_pos)⟩

end LiteralTable

end Multimatch
