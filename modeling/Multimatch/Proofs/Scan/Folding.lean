import Multimatch.Proofs.Scan.FloodRuns

/-!
# Case folding

Literals meet case in several places: when they are compared with what they should match, when the
bytes that they may have are laid out in a table, when they are told to be runs of one byte, when
their quick checks are made, and when they are split by their last bytes. All of these go by one
relation of bytes, `Letter.agree` (`Letter.mem_variants_iff`, `Letter.and_quickMaskByte_iff`), so
that all of them define the same language (`Literal.folding_exact`).
-/

namespace Multimatch

/-! ## Bytes -/

namespace Letter

variable {nocase : Bool} {a b : UInt8}

theorem agree_of_mem_variants (h : b ∈ variants nocase a) : agree nocase a b = true :=
  of_mem_variants (p := agree) (by decide +kernel) h

/-- The variants of a byte are the bytes that agree with it. -/
theorem mem_variants_iff : b ∈ variants nocase a ↔ agree nocase a b = true :=
  ⟨agree_of_mem_variants, mem_variants_of_agree⟩

/-- Without the bit in which the cases of a letter differ, a byte that is a capital has the lower
case of that capital. -/
theorem lower_of_and_upper (ha : isLetter a = true) (h : b &&& 0xdf = upper a) :
    lower b = lower a := by
  have hcapital := forall_of_lt (p := fun a => isLetter a = true →
    isUpper (upper a) = true ∧ lower (upper a) = lower a) (by decide +kernel) a ha
  have hown := forall_of_lt (p := fun b => isUpper (b &&& 0xdf) = true →
    lower b = lower (b &&& 0xdf)) (by decide +kernel) b
  rw [hown (h ▸ hcapital.1), h, hcapital.2]

/-- A quick check takes no byte but those that agree with that of the literal. -/
theorem and_quickMaskByte_iff : b &&& ConfirmEntry.quickMaskByte nocase a
    = ConfirmEntry.quickByte nocase a ↔ agree nocase a b = true := by
  refine ⟨fun h => ?_, and_quickMaskByte⟩
  unfold ConfirmEntry.quickMaskByte ConfirmEntry.quickByte at h
  split at h
  · next hfolds =>
    obtain ⟨rfl, hletter⟩ := Bool.and_eq_true_iff.1 hfolds
    exact beq_iff_eq.2 (lower_of_and_upper hletter h).symm
  · have hsame : b = a := (forall_of_lt (p := fun b => b &&& 0xff = b) (by decide +kernel) b) ▸ h
    rw [hsame]
    simp [agree]

end Letter

/-! ## Literals -/

namespace Literal

variable {literal : Literal} {haystack : List UInt8}

/-- A literal accepts what has at each place a byte that the literal may have there. -/
theorem accepts_iff_variantsAt : literal.accepts haystack = true
    ↔ haystack.length = literal.length
      ∧ ∀ index byte, haystack[index]? = some byte → byte ∈ literal.variantsAt index := by
  rw [accepts_iff]
  refine and_congr_right fun hlength => ⟨fun h index byte hbyte => ?_, fun h index hindex => ?_⟩
  · obtain ⟨hin, -⟩ := List.getElem?_eq_some_iff.1 hbyte
    have hindex : index < literal.bytes.length := Nat.lt_of_lt_of_eq hin hlength
    obtain ⟨found, hfound, hagree⟩ := h index hindex
    cases hbyte.symm.trans hfound
    rw [variantsAt, List.getElem?_eq_getElem hindex]
    exact Letter.mem_variants_iff.2 hagree
  · have hin : index < haystack.length := hlength.symm ▸ hindex
    have hvariant := h index _ (List.getElem?_eq_getElem hin)
    have hindex : index < literal.bytes.length := hindex
    rw [variantsAt, List.getElem?_eq_getElem hindex] at hvariant
    exact ⟨_, List.getElem?_eq_getElem hin, Letter.mem_variants_iff.1 hvariant⟩

/-- A run of a byte is a literal that accepts as many of it. -/
theorem isRunOf_iff_accepts {byte : UInt8} : literal.isRunOf byte = true
    ↔ literal.bytes ≠ [] ∧ literal.accepts (List.replicate literal.length byte) = true := by
  by_cases hbytes : literal.bytes = []
  · simp [isRunOf, isEmpty, hbytes]
  · rw [isRunOf_iff hbytes, and_iff_right hbytes, accepts_iff, and_iff_right List.length_replicate]
    refine forall₂_congr fun index hindex => ?_
    have hlt : index < literal.length := hindex
    rw [List.getElem?_replicate_of_lt hlt]
    simp

/-- What a literal accepts ends with a byte that the literal may have at its end. -/
theorem exists_getLast?_of_accepts (h : literal.accepts haystack = true) {own : UInt8}
    (hown : literal.bytes.getLast? = some own) :
    ∃ last, haystack.getLast? = some last ∧ last ∈ Letter.variants literal.nocase own := by
  obtain ⟨hlength, hvariants⟩ := accepts_iff_variantsAt.1 h
  have hlength : haystack.length = literal.bytes.length := hlength
  rw [List.getLast?_eq_getElem?, ← hlength] at hown
  rw [List.getLast?_eq_getElem?]
  obtain ⟨hindex, -⟩ := List.getElem?_eq_some_iff.1 hown
  have hin : haystack.length - 1 < haystack.length := by omega
  have hvariant := hvariants _ _ (List.getElem?_eq_getElem hin)
  rw [variantsAt, hown] at hvariant
  exact ⟨_, List.getElem?_eq_getElem hin, hvariant⟩

end Literal

/-! ## Confirm lists -/

/-- The lists of a bucket that have a literal are those for the last bytes that the scheme does not
tell from its own. -/
theorem ConfirmLists.mem_list_iff {scheme : Scheme} {buckets : List (List Literal)} {bucket : Nat}
    (hbucket : bucket < buckets.length) {literal : Literal} (hliteral : literal ∈ buckets[bucket])
    {own : UInt8} (hown : literal.bytes.getLast? = some own) (byte : UInt8) :
    ∃ list, (ConfirmLists.of scheme buckets)[scheme.listFor bucket byte]? = some list
      ∧ (ConfirmEntry.of literal scheme.quickLength ∈ list
        ↔ scheme.splitIndex byte = scheme.splitIndex own) := by
  refine ⟨_, getElem?_listFor hbucket byte, ?_⟩
  rw [mem_partEntries]
  constructor
  · rintro ⟨other, -, ⟨last, hlast, hpart⟩, hentry⟩
    have hbytes : literal.bytes = other.bytes := by
      simpa [ConfirmEntry.of] using congrArg ConfirmEntry.bytes hentry
    rw [← hbytes, hown] at hlast
    cases hlast
    exact hpart.symm
  · intro hpart
    exact ⟨literal, hliteral, ⟨own, hown, hpart.symm⟩, rfl⟩

/-- All that goes by the case of a byte goes by the same bytes: those that a literal accepts are
those that the table is laid out for, a run is what accepts that many of one byte, and what is
accepted ends with a byte of the same part as the literal, so that it leads to the list that has
the literal, and to no list of the bucket that has not. -/
theorem Literal.folding_exact (literal : Literal) :
    (∀ haystack, literal.accepts haystack = true ↔ haystack.length = literal.length
        ∧ ∀ index byte, haystack[index]? = some byte → byte ∈ literal.variantsAt index)
      ∧ (∀ byte, literal.isRunOf byte = true
        ↔ literal.bytes ≠ [] ∧ literal.accepts (List.replicate literal.length byte) = true)
      ∧ ∀ own, literal.bytes.getLast? = some own → ∀ haystack, literal.accepts haystack = true →
        ∃ last, haystack.getLast? = some last
          ∧ ∀ scheme : Scheme, scheme.split ≤ 5 →
            scheme.splitIndex last = scheme.splitIndex own
            ∧ ∀ (buckets : List (List Literal)) (bucket : Nat) (hbucket : bucket < buckets.length),
              literal ∈ buckets[bucket] → ∀ byte, ∃ list,
                (ConfirmLists.of scheme buckets)[scheme.listFor bucket byte]? = some list
                ∧ (ConfirmEntry.of literal scheme.quickLength ∈ list
                  ↔ scheme.splitIndex byte = scheme.splitIndex last) := by
  refine ⟨fun haystack => accepts_iff_variantsAt, fun byte => isRunOf_iff_accepts,
    fun own hown haystack h => ?_⟩
  obtain ⟨last, hlast, hvariant⟩ := exists_getLast?_of_accepts h hown
  refine ⟨last, hlast, fun scheme hsplit => ?_⟩
  have hsame := Scheme.splitIndex_eq_of_mem_variants hsplit hvariant
  refine ⟨hsame, fun buckets bucket hbucket hliteral byte => ?_⟩
  rw [hsame]
  exact ConfirmLists.mem_list_iff hbucket hliteral hown byte

/-- The sign before the capital letters and the one before the small letters are not cases of each
other, and a capital K leads to the list of a small one. -/
theorem Literal.folding_exact_signs :
    let literal : Literal := { id := .wrap 3, bytes := [0x40, 0x6b], nocase := true }
    let scheme : Scheme := ⟨6, 64, 16, 1, .none, 0, 2, 13⟩
    literal.bytes.getLast? = some 0x6b ∧ literal.accepts [0x40, 0x4b] = true ∧ scheme.split ≤ 5
      ∧ 0 < [[literal]].length ∧ literal ∈ [literal] ∧ literal.accepts [0x60, 0x4b] = false
      ∧ ∃ list, (ConfirmLists.of scheme [[literal]])[scheme.listFor 0 0x4b]? = some list
        ∧ ConfirmEntry.of literal scheme.quickLength ∈ list := by
  intro literal scheme
  have haccepts : literal.accepts [0x40, 0x4b] = true := by decide
  have hsplit : scheme.split ≤ 5 := by decide
  obtain ⟨hvariants, -, hlists⟩ := folding_exact literal
  obtain ⟨last, hlast, hscheme⟩ := hlists 0x6b rfl _ haccepts
  cases hlast
  obtain ⟨list, hlist, hmem⟩ :=
    (hscheme scheme hsplit).2 [[literal]] 0 Nat.one_pos List.mem_cons_self 0x4b
  refine ⟨rfl, haccepts, hsplit, Nat.one_pos, List.mem_cons_self, ?_, list, hlist, hmem.2 rfl⟩
  rw [← Bool.not_eq_true, hvariants]
  exact fun h => absurd (h.2 0 0x60 rfl) (by decide)

end Multimatch
