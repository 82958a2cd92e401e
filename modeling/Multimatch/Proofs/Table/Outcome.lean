import Mathlib
import Multimatch.Proofs.Table.Built

/-!
# What building a table comes to

Literals are refused for what is wrong with them or with the options (`Options.refusal?`), and
otherwise a table is built, unless it would take 4 GiB. How much it takes is known before it is
built: the confirm lists have one entry for every literal (`ConfirmLists.perm_flatten_of`), and
there are as many flood records as are different (`FloodIndex.length_records_of`). The table is laid
out with that many bytes (`LiteralTable.build_exact`).
-/

namespace Multimatch

/-! ## Confirm lists -/

/-- Elements are divided among the parts that their keys name. -/
theorem perm_flatMap_filter_key {α : Type} (xs : List α) (key : α → Nat) (count : Nat) :
    ((List.range count).flatMap fun part => xs.filter (key · == part)).Perm
      (xs.filter (key · < count)) := by
  induction count with
  | zero => simp
  | succ count ih =>
    have hlow : (xs.filter (key · < count + 1)).filter (key · < count)
        = xs.filter (key · < count) := by
      rw [List.filter_filter]
      exact List.filter_congr fun x _ => by grind
    have hlast : (xs.filter (key · < count + 1)).filter (fun x => !decide (key x < count))
        = xs.filter (key · == count) := by
      rw [List.filter_filter]
      exact List.filter_congr fun x _ => by grind
    have hparts := List.filter_append_perm (key · < count) (xs.filter (key · < count + 1))
    rw [hlow, hlast] at hparts
    rw [List.range_succ, List.flatMap_append, List.flatMap_singleton]
    exact (ih.append_right _).trans hparts

namespace ConfirmLists

variable {scheme : Scheme}

/-- A literal with bytes belongs to one part of its bucket. -/
theorem perm_parts {literals : List Literal}
    (hbytes : ∀ literal ∈ literals, literal.bytes ≠ []) :
    ((List.range scheme.listsPerBucket).flatMap (partOf scheme literals)).Perm literals := by
  have hpart (part : Nat) : partOf scheme literals part
      = literals.filter fun literal => scheme.splitIndex (literal.bytes.getLast?.getD 0) == part :=
    List.filter_congr fun literal hliteral => by
      rw [List.getLast?_eq_some_getLast (hbytes literal hliteral)]
      rfl
  have hall : (literals.filter fun literal =>
      scheme.splitIndex (literal.bytes.getLast?.getD 0) < scheme.listsPerBucket) = literals :=
    List.filter_eq_self.2 fun literal _ => decide_eq_true (scheme.splitIndex_lt _)
  have hperm := perm_flatMap_filter_key literals
    (fun literal => scheme.splitIndex (literal.bytes.getLast?.getD 0)) scheme.listsPerBucket
  rw [hall] at hperm
  simp only [funext hpart]
  exact hperm

/-- The lists have an entry for every literal of every bucket. -/
theorem perm_flatten_of {buckets : List (List Literal)}
    (hbytes : ∀ bucket ∈ buckets, ∀ literal ∈ bucket, literal.bytes ≠ []) :
    (ConfirmLists.of scheme buckets).flatten.Perm
      (buckets.flatten.map (ConfirmEntry.of · scheme.quickLength)) := by
  have hbucket (literals : List Literal) (hmem : literals ∈ buckets) :
      ((List.range scheme.listsPerBucket).flatMap (partEntries scheme literals)).Perm
        (literals.map (ConfirmEntry.of · scheme.quickLength)) := by
    have hsorted := List.Perm.flatMap_left (List.range scheme.listsPerBucket) fun part _ =>
      List.mergeSort_perm ((partOf scheme literals part).map (ConfirmEntry.of · scheme.quickLength))
        fun a b => a.id.toNat ≤ b.id.toNat
    refine hsorted.trans ?_
    rw [← List.map_flatMap]
    exact (perm_parts (hbytes literals hmem)).map _
  rw [of_eq, List.flatMap_def, List.flatten_flatten, List.map_map, List.map_flatten,
    ← List.flatMap_def, ← List.flatMap_def]
  exact List.Perm.flatMap_left buckets fun literals hmem => by
    rw [Function.comp_apply, ← List.flatMap_def]
    exact hbucket literals hmem

end ConfirmLists

/-! ## Flood records -/

namespace FloodIndex

theorem nodup_add {flood : FloodIndex} (h : flood.records.Nodup) (record? : Option FloodRecord) :
    (flood.add record?).records.Nodup := by
  unfold FloodIndex.add
  cases record? with
  | none => exact h
  | some record =>
    dsimp only
    split
    · exact h
    · next hnone =>
      have hnew : record ∉ flood.records := fun hmem => by
        simpa using List.findIdx?_eq_none_iff.1 hnone record hmem
      dsimp only
      rw [← List.concat_eq_append]
      exact h.concat hnew

theorem nodup_foldl {asked : List (Option FloodRecord)} {flood : FloodIndex}
    (h : flood.records.Nodup) : (asked.foldl FloodIndex.add flood).records.Nodup := by
  induction asked generalizing flood with
  | nil => exact h
  | cons record? asked ih => exact ih (nodup_add h record?)

/-- No record is there twice. -/
theorem nodup_records_of (scheme : Scheme) (literals : List Literal) :
    (FloodIndex.of scheme literals).records.Nodup := by
  have h := @nodup_foldl (asked scheme literals) ⟨[], [FloodRecord.empty 0]⟩
    (List.nodup_singleton _)
  rw [asked, List.foldl_map] at h
  exact h

/-- The records that bytes ask for, each of them once. -/
def wanted (scheme : Scheme) (literals : List Literal) : List FloodRecord :=
  (asked scheme literals).reduceOption.dedup

theorem mem_wanted {scheme : Scheme} {literals : List Literal} {record : FloodRecord} :
    record ∈ wanted scheme literals ↔ some record ∈ asked scheme literals := by
  rw [wanted, List.mem_dedup, List.reduceOption_mem_iff]

theorem Serves.mem_records {flood : FloodIndex} {asked : List (Option FloodRecord)}
    (h : flood.Serves asked) {record : FloodRecord} (hasked : some record ∈ asked) :
    record ∈ flood.records := by
  obtain ⟨i, hi, heq⟩ := List.getElem_of_mem hasked
  have hanswer := h.index.get hi (h.index.length_eq ▸ hi)
  rw [List.get_eq_getElem, heq] at hanswer
  exact List.mem_of_getElem? hanswer.2

/-- Beside the empty record there are those that bytes ask for. -/
theorem perm_records_of (scheme : Scheme) (literals : List Literal) :
    (FloodIndex.of scheme literals).records.Perm
      (FloodRecord.empty 0 :: wanted scheme literals) := by
  have hserves := serves_of scheme literals
  have hempty : FloodRecord.empty 0 ∉ wanted scheme literals := fun hmem =>
    asked_used _ (mem_wanted.1 hmem) rfl
  refine (List.perm_ext_iff_of_nodup (nodup_records_of scheme literals)
    (List.nodup_cons.2 ⟨hempty, List.nodup_dedup _⟩)).2 fun record => ?_
  rw [List.mem_cons, mem_wanted]
  constructor
  · exact hserves.records record
  · rintro (rfl | hasked)
    · exact List.mem_of_getElem? hserves.first
    · exact hserves.mem_records hasked

theorem length_records_of (scheme : Scheme) (literals : List Literal) :
    (FloodIndex.of scheme literals).records.length = 1 + (wanted scheme literals).length := by
  rw [(perm_records_of scheme literals).length_eq, List.length_cons, Nat.add_comm]

end FloodIndex

/-! ## The size of a table -/

theorem add_paddingLength (length : Nat) :
    length + paddingLength length = (length + 7) / 8 * 8 := by
  unfold paddingLength
  omega

namespace ConfirmLists

/-- Every literal has its entry in exactly one list. -/
theorem perm_entries {scheme : Scheme} {literals : List Literal} (hpos : 0 < scheme.buckets)
    (hbytes : ∀ literal ∈ literals, literal.bytes ≠ []) :
    (ConfirmLists.of scheme (Buckets.assign scheme literals)).flatten.Perm
      (literals.map (ConfirmEntry.of · scheme.quickLength)) := by
  have hperm := @perm_flatten_of scheme (Buckets.assign scheme literals)
    fun bucket hbucket literal hliteral =>
      hbytes literal ((Buckets.mem_assign hpos).1 ⟨bucket, hbucket, hliteral⟩)
  rw [Buckets.flatten_assign scheme literals hpos] at hperm
  exact hperm.trans ((List.mergeSort_perm literals Buckets.precedes).map _)

section Counts

variable {scheme : Scheme} {literals : List Literal} (hpos : 0 < scheme.buckets)
  (hbytes : ∀ literal ∈ literals, literal.bytes ≠ [])
include hpos hbytes

theorem entryCount_of :
    (ConfirmLists.of scheme (Buckets.assign scheme literals)).entryCount = literals.length := by
  rw [entryCount, (perm_entries hpos hbytes).length_eq, List.length_map]

theorem length_strings_of :
    (strings (ConfirmLists.of scheme (Buckets.assign scheme literals))).length
      = (literals.map Literal.length).sum := by
  rw [strings, ((perm_entries hpos hbytes).flatMap_right _).length_eq, List.flatMap_map,
    List.length_flatMap]
  rfl

end Counts

end ConfirmLists

namespace Scheme

/-- The bytes of the confirm region for the literals: eight for every list, forty and its own for
every literal, and as many as make them a multiple of eight. -/
def confirmLength (scheme : Scheme) (literals : List Literal) : Nat :=
  (8 * (scheme.buckets * 2 ^ scheme.split) + 40 * literals.length
    + (literals.map Literal.length).sum + 7) / 8 * 8

/-- The bytes of the flood region for the literals. -/
def floodLength (scheme : Scheme) (literals : List Literal) : Nat :=
  1024 + 272 * (1 + (FloodIndex.wanted scheme literals).length)

end Scheme

namespace Contents

variable {scheme : Scheme} {literals : List Literal}

theorem confirmOffset_ofLiterals (scheme : Scheme) (literals : List Literal) :
    (ofLiterals scheme literals).confirmOffset = 32 + scheme.width / 8 * 2 ^ scheme.bits := by
  rw [← Nat.one_shiftLeft]
  rfl

theorem confirmLength_ofLiterals (hpos : 0 < scheme.buckets)
    (hbytes : ∀ literal ∈ literals, literal.bytes ≠ []) :
    (ofLiterals scheme literals).confirm.encodedLength = scheme.confirmLength literals := by
  have hcount := ConfirmLists.entryCount_of hpos hbytes
  have hstrings := ConfirmLists.length_strings_of hpos hbytes
  show (ConfirmLists.of scheme (Buckets.assign scheme literals)).encodedLength = _
  rw [ConfirmLists.encodedLength, add_paddingLength, ConfirmLists.bareLength, hstrings,
    ConfirmLists.stringsStart, ConfirmLists.recordsStart, ConfirmLists.length_of,
    Buckets.length_assign, hcount, Scheme.confirmLength, Scheme.listsPerBucket, Nat.one_shiftLeft]
  rfl

theorem floodLength_ofLiterals (scheme : Scheme) (literals : List Literal) :
    (ofLiterals scheme literals).flood.encodedLength = scheme.floodLength literals := by
  rw [flood_ofLiterals, FloodIndex.encodedLength, FloodIndex.length_records_of, Scheme.floodLength]
  rfl

theorem bodyLength_ofLiterals (hpos : 0 < scheme.buckets)
    (hbytes : ∀ literal ∈ literals, literal.bytes ≠ []) :
    (ofLiterals scheme literals).bodyLength = 32 + scheme.width / 8 * 2 ^ scheme.bits
      + scheme.confirmLength literals + scheme.floodLength literals := by
  rw [bodyLength, floodOffset, confirmOffset_ofLiterals, confirmLength_ofLiterals hpos hbytes,
    floodLength_ofLiterals]

end Contents

/-! ## Refusals -/

namespace Options

/-- What is wrong with the literals or the options: the first of these that applies. -/
def refusal? (options : Options) (literals : List Literal) : Option TableError :=
  if literals.isEmpty then some .noLiterals
  else ((literals.find? Literal.isEmpty).map (.emptyLiteral ·.id)).or <|
    ((options.forcedScheme?.filter fun id => (Scheme.find? id).isNone).map .unknownScheme).or <|
    (options.forcedDomain?.filter fun bits => bits < 9 ∨ 15 < bits).map .domainOutside

variable {options : Options} {literals : List Literal}

theorem baseScheme_eq_error {id : Nat} (hforced : options.forcedScheme? = some id)
    (hnone : Scheme.find? id = none) (literals : List Literal) :
    options.baseScheme literals = .error (.unknownScheme id) := by
  simp only [baseScheme, hforced, hnone]

theorem withForcedDomain_eq_error {bits : Nat} (hforced : options.forcedDomain? = some bits)
    (hout : bits < 9 ∨ 15 < bits) (scheme : Scheme) :
    options.withForcedDomain scheme = .error (.domainOutside bits) := by
  have hnot : ¬ Scheme.IsDomain bits := fun h => by
    have hle : 9 ≤ bits ∧ bits ≤ 15 := h
    omega
  simp only [withForcedDomain, hforced, hnot, if_false]

/-- A scheme is found unless something is wrong. -/
theorem schemeFor_of_refusal? (options : Options) (literals : List Literal) :
    match options.refusal? literals with
    | some error => options.schemeFor literals = .error error
    | none => ∃ scheme, options.schemeFor literals = .ok scheme := by
  unfold refusal?
  cases hnil : literals.isEmpty with
  | true =>
    simp only [if_true, schemeFor, hnil]
    rfl
  | false =>
    cases hempty : literals.find? Literal.isEmpty with
    | some literal =>
      simp only [schemeFor, hnil, hempty]
      rfl
    | none =>
      have hne : literals ≠ [] := by simpa using hnil
      have hbytes (literal : Literal) (hliteral : literal ∈ literals) : literal.bytes ≠ [] := by
        simpa [Literal.isEmpty] using List.find?_eq_none.1 hempty literal hliteral
      cases hscheme : options.forcedScheme?.filter fun id => (Scheme.find? id).isNone with
      | some id =>
        obtain ⟨hforced, hnone⟩ := Option.filter_eq_some_iff.1 hscheme
        have hbase := baseScheme_eq_error hforced (Option.isNone_iff_eq_none.1 hnone) literals
        simp only [schemeFor, hnil, hempty, hbase]
        rfl
      | none =>
        have hforces (id : Nat) (hforced : options.forcedScheme? = some id) :
            ∃ scheme, Scheme.find? id = some scheme :=
          Option.ne_none_iff_exists'.1 fun hnone =>
            Option.filter_eq_none_iff.1 hscheme id hforced (Option.isNone_iff_eq_none.2 hnone)
        obtain ⟨base, hbase, -⟩ := baseScheme_eq_ok hforces hne hbytes
        cases hdomain : options.forcedDomain?.filter fun bits => bits < 9 ∨ 15 < bits with
        | some bits =>
          obtain ⟨hforced, hout⟩ := Option.filter_eq_some_iff.1 hdomain
          have hlast := withForcedDomain_eq_error hforced (of_decide_eq_true hout) base
          simp only [schemeFor, hnil, hempty, hbase]
          exact hlast
        | none =>
          have hinside (bits : Nat) (hforced : options.forcedDomain? = some bits) :
              Scheme.IsDomain bits := by
            have hnot := Option.filter_eq_none_iff.1 hdomain bits hforced
            simp only [decide_eq_true_eq, not_or, Nat.not_lt] at hnot
            exact hnot
          obtain ⟨scheme, hfor, -⟩ := schemeFor_eq_ok ⟨hforces, hinside⟩ hne hbytes
          exact ⟨scheme, hfor⟩

end Options

/-! ## Building -/

namespace LiteralTable

/-- The table is laid out for the literals, with nothing between its regions: the header and the
primary table, the confirm lists, and the flood records. -/
structure IsLaidOut (table : LiteralTable) (scheme : Scheme) (literals : List Literal) : Prop where
  scheme_eq : table.scheme = scheme
  size : table.arena.size = 32 + scheme.width / 8 * 2 ^ scheme.bits
    + scheme.confirmLength literals + scheme.floodLength literals
  confirmOffset : table.header.confirmOffset = 32 + scheme.width / 8 * 2 ^ scheme.bits
  floodOffset : table.header.floodOffset
    = table.header.confirmOffset + scheme.confirmLength literals
  headerSize : table.header.size = table.header.floodOffset + scheme.floodLength literals
  /-- The header is what the arena starts with. -/
  header : Header.read table.arena 0 = .ok table.header
  /-- Every literal has its entry in exactly one of the lists that are read from the arena. -/
  entries : ∃ region lists, table.confirmRegion = .ok region ∧ region.lists = .ok lists
    ∧ lists.length = scheme.buckets * 2 ^ scheme.split
    ∧ lists.flatten.Perm (literals.map (ConfirmEntry.of · scheme.quickLength))

theorem isLaidOut_ofContents {scheme : Scheme} {literals : List Literal}
    (hscheme : scheme.IsKnown) (hbytes : ∀ literal ∈ literals, literal.bytes ≠ [])
    (hfits : (Contents.ofLiterals scheme literals).Fits) :
    (ofContents (.ofLiterals scheme literals)).IsLaidOut scheme literals := by
  have hpos := hscheme.buckets_pos
  have hheader := hfits.header_eq
  have hconfirm := Contents.confirmOffset_ofLiterals scheme literals
  have hlength := Contents.confirmLength_ofLiterals hpos hbytes
  have hflood := Contents.floodLength_ofLiterals scheme literals
  have hread : Header.read (ofContents (.ofLiterals scheme literals)).arena 0
      = .ok (Contents.ofLiterals scheme literals).header :=
    hfits.header_fits.read_eq (Contents.Fits.holds_header (Bytes.Holds.refl _))
  have hlists := hfits.confirm_length
  rw [Nat.shiftLeft_eq] at hlists
  refine ⟨rfl, ?_, ?_, ?_, ?_, hread, _, _, hfits.confirmRegion_eq, hfits.confirm_lists_eq, hlists,
    ConfirmLists.perm_entries hpos hbytes⟩
  · rw [hfits.size_arena, Contents.bodyLength_ofLiterals hpos hbytes]
  all_goals
    simp only [ofContents, hheader]
  · exact hconfirm
  · rw [Contents.floodOffset, hlength]
  · rw [Contents.bodyLength, hflood]

/-- Building ends with the first thing that is wrong, and else with a table that is laid out for the
literals, unless that table would take 4 GiB. -/
theorem build_exact (options : Options) (literals : List Literal) :
    match options.refusal? literals with
    | some error => build options literals = .error error
    | none => ∃ scheme, options.schemeFor literals = .ok scheme ∧
        if 32 + scheme.width / 8 * 2 ^ scheme.bits + scheme.confirmLength literals
            + scheme.floodLength literals < 2 ^ 32
        then ∃ table, build options literals = .ok table ∧ table.IsLaidOut scheme literals
        else build options literals = .error .tooBig := by
  have hfor := options.schemeFor_of_refusal? literals
  cases hrefusal : options.refusal? literals with
  | some error =>
    rw [hrefusal] at hfor
    dsimp only at hfor ⊢
    simp only [build, hfor, bind, Except.bind]
  | none =>
    rw [hrefusal] at hfor
    obtain ⟨scheme, hfor⟩ := hfor
    obtain ⟨-, hbytes, -⟩ := Options.of_schemeFor hfor
    have hknown := Options.isKnown_of_schemeFor hfor
    refine ⟨scheme, hfor, ?_⟩
    rw [← Contents.bodyLength_ofLiterals hknown.buckets_pos hbytes, build_eq_of_schemeFor hfor]
    split
    · next hsize =>
      have hsmall : (Contents.ofLiterals scheme literals).bodyLength ≤ maxSize :=
        Nat.le_of_lt_succ hsize
      exact ⟨_, if_neg (Nat.not_lt.2 hsmall),
        isLaidOut_ofContents hknown hbytes (fits_of_schemeFor hfor hsmall)⟩
    · next hsize => exact if_pos (Nat.not_lt.1 hsize)

end LiteralTable

end Multimatch
