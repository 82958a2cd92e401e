import Multimatch.Proofs.Scan.Exact

/-!
# Scanning a stream in parts

A stream that is scanned part by part gives the matches of the whole, wherever it is cut. Each part
gets some end of what came before as its histories; these may differ in length, but both have to be
long enough for a literal to begin in them, which `ScanInput.Continues` says. What ends at an end
then depends on the part alone (`Naive.idsAt_eq_of_continues`), and the calls follow one after the
other.
-/

namespace Multimatch

/-- The sink of a part of a stream: its ends count from the start of the stream. -/
def Sink.after {σ : Type} (sink : Sink σ) (seen : Nat) : Sink σ :=
  { sink with onMatch := fun matchEnd id => sink.onMatch (seen + matchEnd) id }

/-- Scans the parts of a stream one after the other until a halt. So many bytes came before the
first one. -/
def LiteralTable.scanAll {σ : Type} (table : LiteralTable) (sink : Sink σ) :
    (seen : Nat) → List ScanInput → EStateM Fault σ Control
  | _, [] => pure .proceed
  | seen, input :: inputs =>
    Control.andThen (table.scan input (sink.after seen))
      (scanAll table sink (seen + input.buffer.size) inputs)

namespace ScanInput

/-- The input is the part of a stream that comes after some bytes: it is scanned from its start, and
its histories are ends of these bytes that reach back far enough. -/
structure Continues (input : ScanInput) (reach : Nat) (before : List UInt8) : Prop where
  start : input.start = 0
  cased : input.history.toList <:+ before
  caseless : input.caselessHistory.toList <:+ before
  cased_le : min before.length reach ≤ input.history.size
  caseless_le : min before.length reach ≤ input.caselessHistory.size

/-- The inputs are the parts of a stream, of which the first comes after some bytes. -/
inductive AreParts (reach : Nat) : List UInt8 → List ScanInput → Prop where
  | nil {before : List UInt8} : AreParts reach before []
  | cons {before : List UInt8} {input : ScanInput} {inputs : List ScanInput}
      (continues : input.Continues reach before)
      (rest : AreParts reach (before ++ input.buffer.toList) inputs) :
      AreParts reach before (input :: inputs)

/-- The bytes of all parts. -/
def stream (inputs : List ScanInput) : List UInt8 := inputs.flatMap (·.buffer.toList)

theorem Continues.historiesAgree {input : ScanInput} {reach : Nat} {before : List UInt8}
    (h : input.Continues reach before) : input.HistoriesAgree := by
  rcases Nat.le_total input.history.toList.length input.caselessHistory.toList.length with hle | hle
  · exact .inl (List.suffix_of_suffix_length_le h.cased h.caseless hle)
  · exact .inr (List.suffix_of_suffix_length_le h.caseless h.cased hle)

end ScanInput

/-! ## What ends at an end -/

/-- The last bytes of a list and of an end of it are the same, as many as both have. -/
theorem drop_eq_of_suffix {short long : List UInt8} (h : short <:+ long) {count : Nat}
    (hcount : min long.length count ≤ short.length) :
    short.drop (short.length - count) = long.drop (long.length - count) := by
  obtain ⟨more, rfl⟩ := h
  rw [List.length_append] at hcount ⊢
  rcases Nat.lt_or_ge short.length count with hlt | hge
  · have hnil : more = [] := List.eq_nil_of_length_eq_zero (by omega)
    rw [hnil, List.nil_append, List.length_nil, Nat.zero_add]
  · have hplace : more.length + short.length - count = more.length + (short.length - count) := by
      omega
    rw [hplace, List.drop_length_add_append]

/-- A literal that is not too long ends in a part of a stream where it ends in the whole. -/
theorem ScanInput.Continues.endsAt_eq {input whole : ScanInput} {reach : Nat}
    {before after : List UInt8} (h : input.Continues reach before) (hcased : whole.history = #[])
    (hcaseless : whole.caselessHistory = #[])
    (hbuffer : whole.buffer.toList = before ++ input.buffer.toList ++ after) {literal : Literal}
    (hlength : literal.length ≤ reach + 1) {matchEnd : Nat} (hpos : 0 < matchEnd)
    (hend : matchEnd ≤ input.buffer.size) :
    input.endsAt literal matchEnd = whole.endsAt literal (before.length + matchEnd) := by
  have hwhole : whole.before literal.nocase (before.length + matchEnd)
      = before ++ input.buffer.toList.take matchEnd := by
    rw [ScanInput.before, hcased, hcaseless, ite_self, hbuffer, List.append_assoc,
      List.take_length_add_append, List.take_append_of_le_length (by simpa using hend)]
    rfl
  have hhistory : ∃ history : Bytes, input.before literal.nocase matchEnd
        = history.toList ++ input.buffer.toList.take matchEnd
      ∧ history.toList <:+ before ∧ min before.length reach ≤ history.size := by
    rw [ScanInput.before]
    cases literal.nocase with
    | false => exact ⟨_, rfl, h.cased, h.cased_le⟩
    | true => exact ⟨_, rfl, h.caseless, h.caseless_le⟩
  obtain ⟨history, hpart, ⟨more, hmore⟩, hle⟩ := hhistory
  have hsuffix : history.toList ++ input.buffer.toList.take matchEnd
      <:+ before ++ input.buffer.toList.take matchEnd :=
    ⟨more, by rw [← hmore, List.append_assoc]⟩
  have htaken : (input.buffer.toList.take matchEnd).length = matchEnd := by
    simp [Nat.min_eq_left hend]
  have hlong : min (before ++ input.buffer.toList.take matchEnd).length literal.length
      ≤ (history.toList ++ input.buffer.toList.take matchEnd).length := by
    simp only [List.length_append, htaken, Array.length_toList]
    omega
  have hdrop := drop_eq_of_suffix hsuffix hlong
  simp only [ScanInput.endsAt, hwhole, hpart, hdrop]

/-- What a part of a stream reports at an end is what the whole reports there. -/
theorem Naive.idsAt_eq_of_continues {literals : List Literal} {input whole : ScanInput}
    {before after : List UInt8} (h : input.Continues (Literal.maxLength literals - 1) before)
    (hcased : whole.history = #[]) (hcaseless : whole.caselessHistory = #[])
    (hbuffer : whole.buffer.toList = before ++ input.buffer.toList ++ after) {matchEnd : Nat}
    (hpos : 0 < matchEnd) (hend : matchEnd ≤ input.buffer.size) (groups : Groups) :
    idsAt literals input matchEnd groups
      = idsAt literals whole (before.length + matchEnd) groups := by
  refine eq_idsAt pairwise_idsAt fun id => ?_
  rw [mem_idsAt]
  refine exists_congr fun literal => and_congr_right fun hliteral => ?_
  have hlength := Literal.le_maxLength hliteral
  rw [h.endsAt_eq hcased hcaseless hbuffer (by omega) hpos hend]

/-! ## The parts one after the other -/

/-- The ends of a part, counted from the start of the stream. -/
theorem ScanInput.Continues.map_ends {input : ScanInput} {reach : Nat} {before : List UInt8}
    (h : input.Continues reach before) : input.ends.map (before.length + ·)
      = List.range' (before.length + 1) input.buffer.size := by
  rw [ScanInput.ends, h.start, List.map_add_range']
  rfl

theorem scanAll_eq_visitAll {scheme : Scheme} {literals : List Literal}
    (hfits : (Contents.ofLiterals scheme literals).Fits)
    (hbytes : ∀ literal ∈ literals, literal.bytes ≠ []) {before : List UInt8}
    {inputs : List ScanInput}
    (hparts : ScanInput.AreParts (Literal.maxLength literals - 1) before inputs)
    {whole : ScanInput} (hcased : whole.history = #[]) (hcaseless : whole.caselessHistory = #[])
    (hbuffer : whole.buffer.toList = before ++ ScanInput.stream inputs) {σ : Type} (sink : Sink σ) :
    (LiteralTable.ofContents (.ofLiterals scheme literals)).scanAll sink before.length inputs
      = Control.visitAll (sink.tell (Naive.idsAt literals whole))
          (List.range' (before.length + 1) (ScanInput.stream inputs).length) := by
  induction hparts with
  | nil => rfl
  | @cons before input inputs hinput _ ih =>
    have hstream : ScanInput.stream (input :: inputs)
        = input.buffer.toList ++ ScanInput.stream inputs := List.flatMap_cons
    rw [hstream] at hbuffer ⊢
    have hrest := ih (by rw [hbuffer, List.append_assoc])
    have hids (matchEnd : Nat) (hpos : 0 < matchEnd) (hend : matchEnd ≤ input.buffer.size) :=
      Naive.idsAt_eq_of_continues hinput hcased hcaseless
        (hbuffer.trans (List.append_assoc ..).symm) hpos hend
    have hpart : Naive.scan literals input (sink.after before.length)
        = Control.visitAll (sink.tell (Naive.idsAt literals whole))
            (List.range' (before.length + 1) input.buffer.size) := by
      rw [← hinput.map_ends, Control.visitAll_map, Naive.scan]
      refine Control.visitAll_congr fun matchEnd hend => ?_
      obtain ⟨hpos, hle⟩ := List.mem_range'_1.1 hend
      have hstart := hinput.start
      simp only [Sink.tell, hids matchEnd (by omega) (by omega)]
      rfl
    rw [LiteralTable.scanAll, Scanner.scan_ofContents hfits hbytes hinput.historiesAgree, hpart]
    have hsize : input.buffer.toList.length = input.buffer.size := Array.length_toList
    rw [List.length_append, hsize] at hrest ⊢
    rw [hrest, ← List.range'_append_1, Control.visitAll_append, Nat.add_right_comm]

namespace LiteralTable

/-- Scanning the parts of a stream one after the other makes the calls of one scan of the whole,
and ends as it does. -/
theorem scanAll_eq_scan {options : Options} {literals : List Literal} {table : LiteralTable}
    (hbuild : build options literals = .ok table) {inputs : List ScanInput}
    (hparts : ScanInput.AreParts (table.header.maxLength - 1) [] inputs) (floodFrom : Nat)
    {σ : Type} (sink : Sink σ) :
    table.scanAll sink 0 inputs
      = table.scan { buffer := (ScanInput.stream inputs).toArray, floodFrom } sink := by
  obtain ⟨scheme, -, -, hbytes, hfits, rfl⟩ := of_build hbuild
  have hmax : (ofContents (.ofLiterals scheme literals)).header.maxLength
      = Literal.maxLength literals := Nat.mod_eq_of_lt hfits.maxLength_lt
  rw [hmax] at hparts
  rw [Scanner.scan_ofContents hfits hbytes (.inl (List.suffix_refl _)) sink]
  exact scanAll_eq_visitAll hfits hbytes hparts rfl rfl rfl sink

theorem scanAll_eq_scan_across_buffers :
    let options : Options := { scheme? := some (some 2), domain? := some (some 9) }
    let literals : List Literal := [{ id := .wrap 7, bytes := [97, 98] }]
    let inputs : List ScanInput :=
      [{ buffer := #[99, 97] }, { buffer := #[98], history := #[97], caselessHistory := #[99, 97] }]
    ∃ table, build options literals = .ok table
      ∧ ScanInput.AreParts (table.header.maxLength - 1) [] inputs
      ∧ ∀ (σ : Type) (sink : Sink σ),
        table.scanAll sink 0 inputs = table.scan { buffer := #[99, 97, 98] } sink := by
  intro options literals inputs
  have hfor : options.schemeFor literals = .ok ⟨2, 32, 8, 4, .none, 3, 0, 9⟩ := by decide +kernel
  have hbuild := build_of_schemeFor hfor (by decide +kernel)
  have hfirst : ScanInput.Continues { buffer := #[99, 97] } 1 [] :=
    ⟨rfl, List.nil_suffix, List.nil_suffix, by decide, by decide⟩
  have hsecond : ScanInput.Continues
      { buffer := #[98], history := #[97], caselessHistory := #[99, 97] } 1 [99, 97] :=
    ⟨rfl, ⟨[99], rfl⟩, ⟨[], rfl⟩, by decide, by decide⟩
  have hparts : ScanInput.AreParts 1 [] inputs := .cons hfirst (.cons hsecond .nil)
  exact ⟨_, hbuild, hparts, fun σ sink => scanAll_eq_scan hbuild hparts 0 sink⟩

end LiteralTable

end Multimatch
