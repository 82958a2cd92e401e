import Multimatch.Proofs.Scan.FloodRecord
import Multimatch.Proofs.Scan.Match

/-!
# Floods of built tables

The flood record of a byte lists the literals that are runs of it: all of them, or there is no
record at all (`FloodIndex.exists_lookup?_iff`, `FloodIndex.lookup?_of_eq_some`). Its suffix is at
least as long as the longest literal, so that what ends after that much of a run lies inside the run
(`Literal.endsText_append_replicate_iff`). A built table has these records for its literals, and
every byte has its own, however many share one (`LiteralTable.floodRecord?_runs`).
-/

namespace Multimatch

/-! ## Runs -/

namespace Literal

variable {literal : Literal} {byte : UInt8}

theorem isRunOf_iff (hbytes : literal.bytes ≠ []) : literal.isRunOf byte = true
    ↔ ∀ index (hindex : index < literal.bytes.length),
      Letter.agree literal.nocase literal.bytes[index] byte = true := by
  have hempty : literal.isEmpty = false := by simpa [isEmpty] using hbytes
  rw [isRunOf, hempty, Bool.not_false, Bool.true_and, List.all_eq_true]
  refine ⟨fun hall index hindex => hall _ (List.getElem_mem hindex), fun hall wanted hmem => ?_⟩
  obtain ⟨index, hindex, rfl⟩ := List.getElem_of_mem hmem
  exact hall index hindex

theorem filter_isRunOf {literals : List Literal} (hbytes : ∀ literal ∈ literals, literal.bytes ≠ [])
    (byte : UInt8) : literals.filter (·.isRunOf byte)
      = literals.filter fun literal =>
          literal.bytes.all (Letter.agree literal.nocase · byte) := by
  refine List.filter_congr fun literal hliteral => ?_
  rw [isRunOf, isEmpty, List.isEmpty_eq_false_iff.2 (hbytes literal hliteral)]
  rfl

/-- The text ends with a match of the literal. -/
def EndsText (literal : Literal) (text : List UInt8) : Prop :=
  ∃ last, last <:+ text ∧ literal.accepts last = true

/-- After a run that is as long as the literal, only what is a run of the same byte ends. -/
theorem endsText_append_replicate_iff (hbytes : literal.bytes ≠ []) {count : Nat}
    (hfits : literal.length ≤ count) (before : List UInt8) :
    literal.EndsText (before ++ List.replicate count byte) ↔ literal.isRunOf byte = true := by
  rw [isRunOf_iff hbytes]
  constructor
  · rintro ⟨last, hsuffix, haccepts⟩ index hindex
    obtain ⟨hlength, hagree⟩ := accepts_iff.1 haccepts
    have hin : last <:+ List.replicate count byte :=
      List.suffix_of_suffix_length_le hsuffix (List.suffix_append ..)
        (by rwa [hlength, List.length_replicate])
    obtain ⟨own, hown, hagrees⟩ := hagree index hindex
    rw [← List.eq_of_mem_replicate (hin.subset (List.mem_of_getElem? hown))]
    exact hagrees
  · intro hall
    refine ⟨List.replicate literal.length byte, ?_, ?_⟩
    · refine List.IsSuffix.trans ?_ (List.suffix_append ..)
      exact ⟨List.replicate (count - literal.length) byte,
        by rw [List.replicate_append_replicate, Nat.sub_add_cancel hfits]⟩
    · exact accepts_iff.2 ⟨List.length_replicate, fun index hindex =>
        ⟨byte, List.getElem?_replicate_of_lt hindex, hall index hindex⟩⟩

end Literal

/-! ## The record of a byte -/

namespace FloodEntry

/-- The entry of a literal that ends inside a flood. -/
def of (literal : Literal) : FloodEntry := ⟨literal.id, literal.groups, literal.length⟩

/-- The order of the entries of a record: by identifier, and by length where it is repeated. -/
def Precedes (a b : FloodEntry) : Prop :=
  a.id.toNat < b.id.toNat ∨ a.id.toNat = b.id.toNat ∧ a.length ≤ b.length

end FloodEntry

/-- The record has an entry for each of the literals, in order, and all of their groups. -/
structure FloodRecord.Lists (record : FloodRecord) (literals : List Literal) : Prop where
  entries : record.entries.Perm (literals.map FloodEntry.of)
  ordered : record.entries.Pairwise FloodEntry.Precedes
  allGroups : ∀ bit, record.allGroups.getLsbD bit = true
    ↔ ∃ literal ∈ literals, literal.groups.getLsbD bit = true

namespace FloodRecord.Lists

variable {record : FloodRecord} {literals : List Literal}

theorem sorted (h : record.Lists literals) : record.Sorted :=
  h.ordered.imp fun hle => hle.elim Nat.le_of_lt fun heq => Nat.le_of_eq heq.1

theorem mem_entries (h : record.Lists literals) {entry : FloodEntry} :
    entry ∈ record.entries ↔ ∃ literal ∈ literals, FloodEntry.of literal = entry := by
  rw [h.entries.mem_iff, List.mem_map]

theorem idsValid_iff (h : record.Lists literals) :
    record.IdsValid ↔ ∀ literal ∈ literals, literal.id.IsValid := by
  simp only [IdsValid, h.mem_entries, forall_exists_index, and_imp, forall_apply_eq_imp_iff₂]
  rfl

theorem of_perm {others : List Literal} (h : record.Lists literals) (hperm : literals.Perm others) :
    record.Lists others where
  entries := h.entries.trans (hperm.map _)
  ordered := h.ordered
  allGroups bit := by
    rw [h.allGroups]
    simp only [hperm.mem_iff]

end FloodRecord.Lists

namespace FloodIndex

variable {scheme : Scheme} {literals : List Literal} {byte : UInt8} {record : FloodRecord}

theorem pairwise_sorted (literals : List Literal) :
    ((sorted literals).map FloodEntry.of).Pairwise FloodEntry.Precedes := by
  have hsorted := @List.pairwise_mergeSort _
    (fun a b : Literal => decide (a.id.toNat < b.id.toNat)
      || (a.id.toNat == b.id.toNat && decide (a.length ≤ b.length)))
    (fun a b c hab hbc => by
      simp only [Bool.or_eq_true, Bool.and_eq_true, decide_eq_true_eq, beq_iff_eq] at *
      omega)
    (fun a b => by
      simp only [Bool.or_eq_true, Bool.and_eq_true, decide_eq_true_eq, beq_iff_eq]
      omega) literals
  refine List.pairwise_map.2 (hsorted.imp fun {a b} h => ?_)
  simp only [Bool.or_eq_true, Bool.and_eq_true, decide_eq_true_eq, beq_iff_eq] at h
  exact h

theorem perm_runs (literals : List Literal) (byte : UInt8) :
    ((sorted literals).filter (·.isRunOf byte)).Perm (literals.filter (·.isRunOf byte)) :=
  (List.mergeSort_perm ..).filter _

theorem length_le_suffixFor (scheme : Scheme) {literal : Literal} (h : literal ∈ literals) :
    literal.length ≤ suffixFor scheme literals :=
  Nat.le_trans (Literal.le_maxLength h) (Nat.le_max_right ..)

theorem lists_recordOf (suffix : Nat) {runs : List Literal}
    (hruns : (runs.map FloodEntry.of).Pairwise FloodEntry.Precedes) :
    (recordOf suffix runs).Lists runs where
  entries := .refl _
  ordered := hruns
  allGroups bit := by
    rw [recordOf, ← List.foldl_map, ← Groups.union, Groups.getLsbD_union]
    simp only [List.mem_map, exists_exists_and_eq_and]

theorem lookup?_of_eq_some (h : (FloodIndex.of scheme literals).lookup? byte = some record) :
    record.Lists (literals.filter (·.isRunOf byte))
      ∧ record.suffix = suffixFor scheme literals := by
  rw [lookup?_of] at h
  obtain ⟨-, rfl⟩ := recordFor?_eq_some.1 h
  have hordered : (((sorted literals).filter (·.isRunOf byte)).map FloodEntry.of).Pairwise
      FloodEntry.Precedes :=
    (pairwise_sorted literals).sublist (List.filter_sublist.map FloodEntry.of)
  exact ⟨(lists_recordOf _ hordered).of_perm (perm_runs literals byte), rfl⟩

/-- A byte has a record if it has some runs, and no more than there is room for. -/
theorem exists_lookup?_iff : (∃ record, (FloodIndex.of scheme literals).lookup? byte = some record)
    ↔ 1 ≤ (literals.filter (·.isRunOf byte)).length
      ∧ (literals.filter (·.isRunOf byte)).length ≤ FloodRecord.maxEntries := by
  simp only [lookup?_of, recordFor?_eq_some, exists_and_left, exists_eq, and_true,
    ← (perm_runs literals byte).length_eq, Nat.one_le_iff_ne_zero, ne_eq, List.length_eq_zero_iff]

theorem isSome_filter_lookup?_iff :
    (((FloodIndex.of scheme literals).lookup? byte).filter (·.IdsValid)).isSome = true
      ↔ (1 ≤ (literals.filter (·.isRunOf byte)).length
          ∧ (literals.filter (·.isRunOf byte)).length ≤ FloodRecord.maxEntries)
        ∧ ∀ literal ∈ literals.filter (·.isRunOf byte), literal.id.IsValid := by
  rw [← @exists_lookup?_iff scheme, Option.isSome_iff_exists]
  simp only [Option.filter_eq_some_iff, decide_eq_true_eq]
  constructor
  · rintro ⟨record, hlookup, hvalid⟩
    exact ⟨⟨record, hlookup⟩, (lookup?_of_eq_some hlookup).1.idsValid_iff.1 hvalid⟩
  · rintro ⟨⟨record, hlookup⟩, hvalid⟩
    exact ⟨record, hlookup, (lookup?_of_eq_some hlookup).1.idsValid_iff.2 hvalid⟩

end FloodIndex

/-! ## The records of a table -/

namespace LiteralTable

/-- Every byte of a built table has the record of its own runs. There is one if these are some, and
no more than a record has room for; should one have an identifier that was made without the check
for valid ones, there is none. The record lists all of them, and its suffix is that of the scheme or
the length of the longest literal, whichever is greater. So what ends after that much of a run of
the byte is no longer than the run, and is what the record lists. -/
theorem floodRecord?_runs {options : Options} {literals : List Literal} {table : LiteralTable}
    (hbuild : build options literals = .ok table) (byte : UInt8) :
    let runs := literals.filter fun literal =>
      literal.bytes.all (Letter.agree literal.nocase · byte)
    ∃ record?, table.floodRecord? byte = .ok record?
      ∧ (record?.isSome = true ↔ (1 ≤ runs.length ∧ runs.length ≤ FloodRecord.maxEntries)
          ∧ ∀ literal ∈ runs, literal.id.IsValid)
      ∧ ∀ record, record? = some record → record.Lists runs
        ∧ record.suffix = max table.scheme.floodSuffix (Literal.maxLength literals)
        ∧ ∀ before count, record.suffix ≤ count → ∀ literal ∈ literals, literal.length ≤ count
          ∧ (literal.EndsText (before ++ List.replicate count byte) ↔ literal ∈ runs) := by
  obtain ⟨scheme, -, -, hbytes, hfits, rfl⟩ := of_build hbuild
  have hrecord := hfits.floodRecord?_eq byte
  rw [Contents.flood_ofLiterals] at hrecord
  rw [← Literal.filter_isRunOf hbytes]
  refine ⟨_, hrecord, FloodIndex.isSome_filter_lookup?_iff, fun record hsome => ?_⟩
  obtain ⟨hlists, hsuffix⟩ :=
    FloodIndex.lookup?_of_eq_some (Option.filter_eq_some_iff.1 hsome).1
  refine ⟨hlists, hsuffix, fun before count hcount literal hliteral => ?_⟩
  have hlength : literal.length ≤ count :=
    Nat.le_trans (FloodIndex.length_le_suffixFor scheme hliteral) (hsuffix ▸ hcount)
  refine ⟨hlength, ?_⟩
  rw [Literal.endsText_append_replicate_iff (hbytes literal hliteral) hlength, List.mem_filter,
    and_iff_right hliteral]

/-- A capital letter without regard to case is a run of the small letter too. -/
theorem floodRecord?_runs_caseless :
    let options : Options := { scheme? := some (some 0), domain? := some (some 9) }
    let capital : Literal := { id := .wrap 7, bytes := [65], nocase := true }
    let small : Literal := { id := .wrap 7, bytes := [97, 97], groups := 5 }
    let other : Literal := { id := .wrap 9, bytes := [97, 98] }
    ∃ table record, build options [capital, small, other] = .ok table
      ∧ table.floodRecord? 97 = .ok (some record)
      ∧ record.entries.Perm [⟨.wrap 7, .all, 1⟩, ⟨.wrap 7, 5, 2⟩] := by
  intro options capital small other
  have hfor : options.schemeFor [capital, small, other] = .ok ⟨0, 32, 8, 1, .none, 0, 0, 9⟩ := by
    decide +kernel
  have hbuckets : Buckets.sorted [capital, small, other] = [capital, small, other] :=
    List.mergeSort_of_pairwise (by decide)
  have hflood : FloodIndex.sorted [capital, small, other] = [capital, small, other] :=
    List.mergeSort_of_pairwise (by decide)
  have hsize : (Contents.ofLiterals ⟨0, 32, 8, 1, .none, 0, 0, 9⟩
      [capital, small, other]).bodyLength ≤ maxSize := by
    rw [Contents.ofLiterals, Contents.ofBuckets, Buckets.assign, hbuckets, FloodIndex.of, hflood]
    decide +kernel
  have hbuild := build_of_schemeFor hfor hsize
  obtain ⟨record?, hrecord, hsome, hlists⟩ := floodRecord?_runs hbuild 97
  obtain ⟨record, rfl⟩ := Option.isSome_iff_exists.1 (hsome.2 (by decide))
  exact ⟨_, record, hbuild, hrecord, (hlists record rfl).1.entries⟩

end LiteralTable

end Multimatch
