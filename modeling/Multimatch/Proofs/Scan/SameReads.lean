import Multimatch.Proofs.Scan.Walk
import Multimatch.Proofs.Table.Resaved

/-!
# Scanning after saving again

A scan reads no more of a table than its words, lists and flood records, so that it does not matter
where in the arena they are. `Scanner.ReadsAs` says of two scanners that one reads what the other
does; then they take the same steps (`Scanner.ReadsAs.run_eq`). Tables with the same contents have
such scanners (`LiteralTable.Decodes.scan_eq`), and a loaded table that is saved comes back with the
contents it had, whatever layout it was loaded with (`LiteralTable.resaved_scan_eq`).
-/

namespace Multimatch

namespace Scanner

/-- What can be read through one of the scanners is what can be read through the other. -/
structure ReadsAs (a b : Scanner) : Prop where
  scheme : a.table.scheme = b.table.scheme
  keyMask : a.table.header.keyMask = b.table.header.keyMask
  wordAt : ∀ key, a.table.wordAt (key &&& b.table.header.keyMask)
    = b.table.wordAt (key &&& b.table.header.keyMask)
  confirm : a.confirm = b.confirm
  record? : ∀ byte, a.flood.record? byte = b.flood.record? byte
  cased : a.cased = b.cased
  caseless : a.caseless = b.caseless
  reach : a.reach = b.reach
  floodFrom : a.floodFrom = b.floodFrom

namespace ReadsAs

variable {a b : Scanner} (h : a.ReadsAs b)
include h

theorem length_eq : a.length = b.length := by
  rw [Scanner.length, Scanner.length, h.cased]

theorem endOf_eq (place : Nat) : a.endOf place = b.endOf place := by
  rw [endOf, endOf, h.cased]

theorem shift_eq (state word : Nat) : a.shift state word = b.shift state word := by
  simp only [shift, h.scheme]

theorem runStart_eq (byte : UInt8) (place : Nat) :
    a.runStart byte place = b.runStart byte place := by
  induction place with
  | zero => rfl
  | succ place ih => rw [runStart, runStart, h.reach, h.cased, ih]

theorem runStop_eq (byte : UInt8) (count place : Nat) :
    a.runStop byte count place = b.runStop byte count place := by
  induction count generalizing place with
  | zero => rfl
  | succ count ih => rw [runStop, runStop, h.cased, ih]

theorem floodAt_eq (place : Nat) : a.floodAt place = b.floodAt place := by
  simp only [floodAt, h.cased, h.record?, h.runStart_eq, h.runStop_eq, h.length_eq]

theorem probeWord_eq (probe : Nat) : a.probeWord probe = b.probeWord probe := by
  simp only [probeWord, h.length_eq, h.cased, h.keyMask, h.wordAt]

theorem matchesAt_eq (state back place : Nat) (groups : Groups) :
    a.matchesAt state back place groups = b.matchesAt state back place groups := by
  have hbucket (bucket : Nat) :
      a.bucketMatches state back place groups bucket
        = b.bucketMatches state back place groups bucket := by
    simp only [bucketMatches, h.scheme, h.confirm, h.endOf_eq, h.cased, h.caseless]
  simp only [matchesAt, h.scheme, funext hbucket]

variable {σ : Type} (sink : Sink σ)

theorem reportUpTo_eq (state probe count place : Nat) :
    a.reportUpTo sink state probe count place = b.reportUpTo sink state probe count place := by
  simp only [reportUpTo, reportAt, h.matchesAt_eq, h.endOf_eq]

theorem reportFlood_eq (record : FloodRecord) (start count place : Nat) :
    a.reportFlood sink record start count place = b.reportFlood sink record start count place := by
  have hreport : a.reportInFlood sink record start = b.reportInFlood sink record start := by
    funext place
    simp only [reportInFlood, h.endOf_eq]
  rw [reportFlood, reportFlood, hreport]

theorem probeStep_eq (cursor : ScanCursor) : a.probeStep sink cursor = b.probeStep sink cursor := by
  simp only [probeStep, h.scheme, h.probeWord_eq, h.shift_eq, h.length_eq, h.reportUpTo_eq]

/-- The scanners take the same step. -/
theorem step_eq (cursor : ScanCursor) : a.step sink cursor = b.step sink cursor := by
  simp only [step, h.floodFrom, h.floodAt_eq, h.probeStep_eq, h.reportFlood_eq]

/-- They take the same steps to the end of the text. -/
theorem run_eq (steps : Nat) (cursor : ScanCursor) :
    a.run sink steps cursor = b.run sink steps cursor := by
  induction steps generalizing cursor with
  | zero => rfl
  | succ steps ih => simp only [run, h.length_eq, h.step_eq, ih]

end ReadsAs

end Scanner

namespace LiteralTable

/-! ## Tables with the same contents -/

namespace Decodes

variable {table other : LiteralTable} {contents : Contents}
  (h : table.Decodes contents) (hother : other.Decodes contents)

include h in
theorem length_words : contents.words.length = table.scheme.entries := by
  rw [h.fits.words_length, h.scheme_eq]

include h in
theorem domain_eq : table.header.domain = contents.scheme.bits := by
  rw [h.scheme_eq, h.header.domain]

include h in
theorem floodRecord?_eq (byte : UInt8) :
    table.floodRecord? byte = .ok (contents.flood.lookup? byte) := by
  obtain ⟨region, hregion, hrecords⟩ := h.exists_flood
  simp only [floodRecord?, hregion, hrecords, bind, Except.bind]

include h hother

theorem scheme_eq_scheme : table.scheme = other.scheme :=
  h.scheme_eq.symm.trans hother.scheme_eq

theorem keyMask_eq_keyMask : table.header.keyMask = other.header.keyMask := by
  rw [h.header.keyMask, hother.header.keyMask, h.domain_eq, hother.domain_eq]

/-- Scans with tables that have the same contents make the same calls. -/
theorem scan_eq {σ : Type} (input : ScanInput) (sink : Sink σ) :
    table.scan input sink = other.scan input sink := by
  obtain ⟨region, hregion, hlists⟩ := h.exists_confirm
  obtain ⟨region', hregion', hlists'⟩ := hother.exists_confirm
  obtain ⟨flood, hflood, hrecords⟩ := h.exists_flood
  obtain ⟨flood', hflood', hrecords'⟩ := hother.exists_flood
  have hwords (key : Nat) : table.wordAt (key &&& other.header.keyMask)
      = other.wordAt (key &&& other.header.keyMask) := by
    have hkey := hother.header.masked_lt key
    rw [← hother.length_words] at hkey
    rw [h.wordAt_eq hkey, hother.wordAt_eq hkey]
  have hreads : (Scanner.made table contents.confirm flood input).ReadsAs
      (Scanner.made other contents.confirm flood' input) :=
    { scheme := h.scheme_eq_scheme hother
      keyMask := h.keyMask_eq_keyMask hother
      wordAt := hwords
      confirm := rfl
      record? := fun byte => (hrecords byte).trans (hrecords' byte).symm
      cased := rfl, caseless := rfl, reach := rfl, floodFrom := rfl }
  have hof := @Scanner.of_eq_made _ _ _ _ input hregion hlists hflood
  have hof' := @Scanner.of_eq_made _ _ _ _ input hregion' hlists' hflood'
  simp only [scan, hof, hof', EStateM.liftM_ok, pure_bind, hreads.run_eq]

end Decodes

/-! ## Saving again -/

/-- Saving again keeps what a table means. If a table that was loaded is saved, and its body has
less than 4 GiB, the bytes written are loaded, whatever follows them, as a table with the same
scheme, words and flood records, and every scan with it is a scan with the first one. -/
theorem resaved_scan_eq {bytes buffer after : Bytes} {table : LiteralTable} {count written : Nat}
    (hload : load bytes = .ok (table, count))
    (hwrite : table.writeTo .native buffer = .ok (.ok written, after))
    (hbody : written - headLength < 1 <<< 32) :
    ∃ reloaded, load (after.extract 0 written) = .ok (reloaded, written)
      ∧ load after = .ok (reloaded, written)
      ∧ reloaded.scheme = table.scheme ∧ reloaded.header.schemeId = table.header.schemeId
      ∧ reloaded.header.domain = table.header.domain
      ∧ reloaded.header.maxLength = table.header.maxLength
      ∧ (∀ key < table.scheme.entries, ∃ word,
        table.wordAt key = .ok word ∧ reloaded.wordAt key = .ok word)
      ∧ (∀ byte, ∃ record?,
        table.floodRecord? byte = .ok record? ∧ reloaded.floodRecord? byte = .ok record?)
      ∧ ∀ (σ : Type) (input : ScanInput) (sink : Sink σ),
        reloaded.scan input sink = table.scan input sink := by
  obtain ⟨⟨contents, hdecodes⟩, -⟩ := (load_decodes bytes).of_ok hload
  obtain ⟨hroom, rfl, rfl⟩ := eq_of_writeTo hdecodes.eq_ok hdecodes.fits hwrite
  rw [Nat.add_sub_cancel_left] at hbody
  rw [setSaved_eq hdecodes.fits hroom hbody]
  have hfits := hdecodes.fits.fits hbody
  have hsame := decodes_ofContents hfits hdecodes.valid
  have hsaved := holds_fillStart buffer (head .native ++ contents.body .native)
  have hcopy := hsaved.toList_extract
  rw [Nat.zero_add, hdecodes.fits.length_saved] at hcopy
  have hcopy : (fillStart buffer (head .native ++ contents.body .native)).extract 0
      (headLength + contents.bodyLength) = (head .native ++ contents.body .native).toArray :=
    Array.toList_inj.1 hcopy
  refine ⟨ofContents contents, ?_, hfits.load_eq hdecodes.valid hsaved,
    hsame.scheme_eq_scheme hdecodes, ?_, ?_, ?_, fun key hkey => ?_, fun byte => ?_,
    fun σ input sink => hsame.scan_eq hdecodes input sink⟩
  · rw [hcopy]
    exact hfits.load_eq hdecodes.valid (Bytes.Holds.refl _)
  · rw [← hsame.schemeId, ← hdecodes.schemeId, hsame.scheme_eq_scheme hdecodes]
  · rw [hsame.domain_eq, hdecodes.domain_eq]
  · rw [← hsame.maxLength_eq, ← hdecodes.maxLength_eq]
  · have hkey : key < contents.words.length := hdecodes.length_words ▸ hkey
    exact ⟨_, hdecodes.wordAt_eq hkey, hsame.wordAt_eq hkey⟩
  · exact ⟨_, hdecodes.floodRecord?_eq byte, hsame.floodRecord?_eq byte⟩

/-- The table whose lists share a record is one that can be saved again where there is room. -/
theorem resaved_scan_eq_shared_record : ∃ bytes buffer after table count reloaded,
    load bytes = .ok (table, count)
      ∧ table.writeTo .native buffer = .ok (.ok (headLength + 3528), after)
      ∧ table.arena.size ≠ 3528
      ∧ load after = .ok (reloaded, headLength + 3528) ∧ reloaded.scheme = table.scheme
      ∧ ∀ (σ : Type) (input : ScanInput) (sink : Sink σ),
        reloaded.scan input sink = table.scan input sink := by
  have hload := SharedRecord.load_eq
  obtain ⟨⟨contents, hdecodes⟩, -⟩ := (load_decodes _).of_ok hload
  have hbody := SharedRecord.bodyLength_of_contents hdecodes.eq_ok
  have hsize : (Array.replicate (headLength + 3528) (0 : UInt8)).size = headLength + 3528 :=
    Array.size_replicate
  have hroom : SharedRecord.table.savedLength
      ≤ (Array.replicate (headLength + 3528) (0 : UInt8)).size := by
    rw [hsize, savedLength, SharedRecord.size_arena]
    decide
  have hcopy : headLength + contents.bodyLength
      ≤ (Array.replicate (headLength + 3528) (0 : UInt8)).size := by
    apply Nat.le_of_eq
    rw [hsize, hbody]
  have hwrite := writeTo_of_copy_le hdecodes.eq_ok hroom hdecodes.fits .native hcopy
  rw [hbody] at hwrite
  obtain ⟨reloaded, -, hreload, hscheme, -, -, -, -, -, hscan⟩ :=
    resaved_scan_eq hload hwrite (by decide)
  exact ⟨_, _, _, _, _, reloaded, hload, hwrite, by rw [SharedRecord.size_arena]; decide, hreload,
    hscheme, hscan⟩

end LiteralTable

end Multimatch
