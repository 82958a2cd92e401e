import Multimatch.Proofs.Scan.Calls
import Multimatch.Proofs.Scan.Flood
import Multimatch.Proofs.Table.Loaded
import Multimatch.Proofs.Table.RoundTrip

/-!
# Scanning with loaded tables

A table that was loaded is safe to scan with, whatever its bytes say: every read of a scan is one
that loading made sure of, so that the scan visits its ends one after the other and only the sink
can stop it.
-/

namespace Multimatch

namespace LiteralTable.Loaded

variable {table : LiteralTable} (h : table.Loaded)
include h

/-- A word is found for every probe: the mask keeps a key below the number of words. -/
theorem exists_probeWord {scanner : Scanner} (htable : scanner.table = table) (probe : Nat) :
    ∃ word, scanner.probeWord probe = .ok word := by
  by_cases hnone : scanner.length ≤ probe ∨ probe = 0
  · exact ⟨0, if_pos hnone⟩
  · obtain ⟨hlength, hpos⟩ := not_or.1 hnone
    obtain ⟨first, second, -, -, hprobe⟩ := Scanner.probeWord_of_lt (Nat.not_le.1 hlength) hpos
    rw [hprobe, htable]
    exact h.exists_wordAt (h.header.masked_lt _)

/-- The candidates of a bucket are settled by lists that the table has. -/
theorem exists_bucketMatches {scanner : Scanner} (htable : scanner.table = table)
    (hconfirm : scanner.confirm.length = table.scheme.buckets <<< table.scheme.split)
    (state back place : Nat) (groups : Groups) {bucket : Nat}
    (hbucket : bucket < table.scheme.buckets) :
    ∃ ids, scanner.bucketMatches state back place groups bucket = .ok ids := by
  have hbit := h.header.known.bitAt?_eq_ok hbucket back
  simp only [Scanner.bucketMatches, htable, hbit, bind, Except.bind]
  split
  · exact ⟨[], rfl⟩
  · unfold ConfirmLists.confirm
    split
    · exact ⟨[], rfl⟩
    · next last _ =>
      have hlist : table.scheme.listFor bucket last < scanner.confirm.length := by
        rw [hconfirm]
        exact Scheme.listFor_lt hbucket last
      simp only [elementAt_eq_ok hlist, bind, Except.bind]
      exact ⟨_, rfl⟩

theorem exists_matchesAt {scanner : Scanner} (htable : scanner.table = table)
    (hconfirm : scanner.confirm.length = table.scheme.buckets <<< table.scheme.split)
    (state back place : Nat) (groups : Groups) :
    ∃ ids, scanner.matchesAt state back place groups = .ok ids := by
  obtain ⟨found, hfound⟩ := exists_mapM_eq_ok fun bucket hbucket =>
    h.exists_bucketMatches htable hconfirm state back place groups (List.mem_range.1 hbucket)
  refine ⟨Scanner.ascending found.flatten, ?_⟩
  simp only [Scanner.matchesAt, htable, hfound, bind, Except.bind]
  rfl

/-- A scanner of the table can take every step, wherever it is. -/
theorem sound_made {confirm : ConfirmLists} {flood : FloodRegion}
    (hconfirm : confirm.length = table.scheme.buckets <<< table.scheme.split)
    (hrecords : ∀ byte, ∃ record?, flood.record? byte = .ok record?) (input : ScanInput) :
    (Scanner.made table confirm flood input).Sound (fun _ _ => True) fun _ _ _ => True := by
  generalize hscanner : Scanner.made table confirm flood input = scanner
  have htable : scanner.table = table := by rw [← hscanner]; rfl
  have hconfirm : scanner.confirm.length = table.scheme.buckets <<< table.scheme.split := by
    rw [← hscanner]
    exact hconfirm
  have hrecords : ∀ byte, ∃ record?, scanner.flood.record? byte = .ok record? := by
    rw [← hscanner]
    exact hrecords
  refine ⟨htable ▸ h.header.known.stride_pos, fun {state next} _ _ => ?_, fun _ hnext => ?_⟩
  · obtain ⟨word, hword⟩ := h.exists_probeWord htable (next + scanner.table.scheme.stride - 1)
    refine ⟨word, hword, trivial, fun place groups _ _ _ => ?_⟩
    obtain ⟨ids, hids⟩ := h.exists_matchesAt htable hconfirm (scanner.shift state word)
      (next + scanner.table.scheme.stride - 1 - place) place groups
    exact ⟨ids, hids, trivial⟩
  · obtain ⟨decision, hdecision, htake⟩ := Scanner.floodAt_eq_ok hrecords hnext
    refine ⟨decision, hdecision, fun record start stop heq => ?_⟩
    obtain ⟨byte, hflood⟩ := htake record start stop heq
    exact ⟨hflood.lt_stop, hflood.stop_le, trivial, fun _ _ _ _ => trivial⟩

/-- A scan tells its sink about every end, and more steps would not change that. -/
theorem exists_scan_eq (input : ScanInput) : ∃ scanner found,
    Scanner.of table input = .ok scanner
      ∧ ∀ (σ : Type) (sink : Sink σ),
        table.scan input sink = Control.visitAll (sink.tell found) input.ends
          ∧ ∀ steps, input.buffer.size - input.start ≤ steps →
            scanner.run sink steps (Scanner.startOf input)
              = Control.visitAll (sink.tell found) input.ends := by
  obtain ⟨region, lists, hregion, hlists, hlength⟩ := h.confirm
  obtain ⟨flood, hflood, hrecords⟩ := h.flood
  have hof := @Scanner.of_eq_made _ _ _ _ input hregion hlists hflood
  obtain ⟨found, -, hscan⟩ := (h.sound_made hlength hrecords input).scan_eq hof trivial
  exact ⟨_, found, hof, hscan⟩

end LiteralTable.Loaded

namespace LiteralTable

/-- Loading never faults, and a table that it accepts never leaves its bytes: the header describes
the arena, every key has a word, every byte has an answer about floods, and a scan of any input
comes to its end with calls in the order of their ends, which only the sink can cut short. -/
theorem load_safe (bytes : Bytes) :
    (∀ fault, load bytes ≠ .error (.fault fault))
    ∧ ∀ table count, load bytes = .ok (table, count) →
      count ≤ bytes.size
      ∧ table.header.keyMask = (1 <<< table.header.domain) - 1
      ∧ table.header.tableSize = table.scheme.width / 8 * (1 <<< table.header.domain)
      ∧ Header.encodedLength + table.header.tableSize ≤ table.header.confirmOffset
      ∧ table.header.confirmOffset ≤ table.header.floodOffset
      ∧ table.header.floodOffset ≤ table.header.size ∧ table.header.size = table.arena.size
      ∧ (∀ key < table.scheme.entries, ∃ word, table.wordAt key = .ok word)
      ∧ (∀ byte, ∃ record?, table.floodRecord? byte = .ok record?)
      ∧ ∀ input : ScanInput, ∃ scanner, Scanner.of table input = .ok scanner
        ∧ ∀ (σ : Type) (sink : Sink σ),
          (∀ steps, input.buffer.size - input.start ≤ steps →
            scanner.run sink steps (Scanner.startOf input) = table.scan input sink)
          ∧ ∀ s, ∃ calls, sink.Exchange s calls (table.scan input sink s)
            ∧ (∀ call ∈ calls, input.start < call.1 ∧ call.1 ≤ input.buffer.size)
            ∧ calls.Pairwise (·.1 ≤ ·.1)
            ∧ ∀ s', table.scan input sink s = .ok .halt s' ↔
              ∃ before matchEnd id middle, calls = before ++ [(matchEnd, id)]
                ∧ sink.Exchange s before (.ok .proceed middle)
                ∧ sink.onMatch matchEnd id middle = .ok .halt s' := by
  have hload := load_ensures bytes
  refine ⟨hload.ne_fault, fun table count hok => ?_⟩
  obtain ⟨hloaded, hcount⟩ := hload.of_ok hok
  have hheader := hloaded.header
  obtain ⟨hsize, htable, hconfirm, hflood⟩ := hheader.regions
  have htableSize : table.header.tableSize
      = table.scheme.width / 8 * (1 <<< table.header.domain) := by
    rw [hheader.tableSize, ← hheader.domain]
    rfl
  refine ⟨hcount, hheader.keyMask, htableSize, htable, hconfirm, hflood, hsize,
    fun key => hloaded.exists_wordAt, hloaded.exists_floodRecord?, fun input => ?_⟩
  obtain ⟨scanner, found, hof, hscan⟩ := hloaded.exists_scan_eq input
  refine ⟨scanner, hof, fun σ sink => ?_⟩
  obtain ⟨hscan, hrun⟩ := hscan σ sink
  refine ⟨fun steps hsteps => (hrun steps hsteps).trans hscan.symm, fun s => ?_⟩
  -- Nothing is said about the order of the identifiers that are found at one end.
  obtain ⟨calls, hcalls, hfound, hsorted⟩ := @Sink.exists_records_tell _ sink found input.ends
    (·.1 ≤ ·.1) input.pairwise_ends Nat.le_of_lt
    (fun _ _ => List.pairwise_of_forall fun _ _ => Nat.le_refl _) s
  have hexchange := hcalls.exchange
  rw [← hscan] at hexchange
  exact ⟨calls, hexchange, fun call hcall => ScanInput.mem_ends.1 (hfound call hcall).1, hsorted,
    fun s' => hexchange.halt_iff⟩

theorem load_safe_saved_table :
    let options : Options := { scheme? := some (some 0), domain? := some (some 9) }
    let literals : List Literal := [{ id := .wrap 7, bytes := [97, 98] }]
    ∃ bytes table count, build options literals = .ok table ∧ load bytes = .ok (table, count)
      ∧ count ≤ bytes.size ∧ (∀ byte, ∃ record?, table.floodRecord? byte = .ok record?)
      ∧ ∀ input : ScanInput, ∃ scanner, Scanner.of table input = .ok scanner := by
  intro options literals
  have hfor : options.schemeFor literals = .ok ⟨0, 32, 8, 1, .none, 0, 0, 9⟩ := by decide +kernel
  have hbuild := build_of_schemeFor hfor (by decide +kernel)
  obtain ⟨scheme, hscheme, -, -, hfits, htable⟩ := of_build hbuild
  have hvalid := Contents.idsValid_ofLiterals hscheme (show ∀ literal ∈ literals, _ by decide)
  have hload := hfits.load_eq hvalid (Bytes.Holds.refl _)
  rw [← htable] at hload
  obtain ⟨hcount, -, -, -, -, -, -, -, hrecord, hscan⟩ := (load_safe _).2 _ _ hload
  exact ⟨_, _, _, hbuild, hload, hcount, hrecord, fun input => (hscan input).imp fun _ h => h.1⟩

end LiteralTable

end Multimatch
