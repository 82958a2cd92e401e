import Multimatch.Proofs.Scheme.Known
import Multimatch.Proofs.Table.PrimaryBits
import Multimatch.Scan.Basic

/-!
# Why a bit is clear

Each bit of a word belongs to one position of one bucket (`Scheme.bitAt_inj`). It is clear under a
key exactly if a literal of the bucket allows a candidate there: the position looks at no byte of
the literal, or at one that may be the second of a pair of bytes with this key (`Primary.Allows`). A
bucket without literals has all its bits set, and has them set in every state that takes the word
in, so that it raises no candidate (`Primary.words_exact`).
-/

namespace Multimatch

/-! ## Places in a word -/

namespace Scheme

variable {scheme : Scheme} {bucket position : Nat}

theorem bitAt_mod (hbucket : bucket < scheme.buckets) :
    scheme.bitAt bucket position % scheme.buckets = bucket := by
  rw [bitAt, Nat.add_comm, Nat.add_mul_mod_self_right, Nat.mod_eq_of_lt hbucket]

theorem bitAt_div (hbucket : bucket < scheme.buckets) :
    scheme.bitAt bucket position / scheme.buckets = position := by
  rw [bitAt, Nat.mul_comm, Nat.mul_add_div (Nat.zero_lt_of_lt hbucket),
    Nat.div_eq_of_lt hbucket, Nat.add_zero]

theorem bitAt_inj {other place : Nat} (hbucket : bucket < scheme.buckets)
    (hother : other < scheme.buckets)
    (h : scheme.bitAt other place = scheme.bitAt bucket position) :
    other = bucket ∧ place = position := by
  have hmod := congrArg (· % scheme.buckets) h
  have hdiv := congrArg (· / scheme.buckets) h
  simp only [bitAt_mod hother, bitAt_mod hbucket] at hmod
  simp only [bitAt_div hother, bitAt_div hbucket] at hdiv
  exact ⟨hmod, hdiv⟩

/-- Every bit of a word belongs to a position of a bucket. -/
theorem IsKnown.exists_bitAt (h : scheme.IsKnown) {bit : Nat} (hbit : bit < scheme.width) :
    ∃ bucket < scheme.buckets, ∃ position < scheme.bucketWidth,
      scheme.bitAt bucket position = bit := by
  refine ⟨bit % scheme.buckets, Nat.mod_lt _ h.buckets_pos, bit / scheme.buckets, ?_, ?_⟩
  · rw [h.width_eq, Nat.mul_comm] at hbit
    exact Nat.div_lt_of_lt_mul hbit
  · rw [bitAt, Nat.mul_comm, Nat.div_add_mod]

end Scheme

namespace Primary

/-! ## What a literal allows -/

variable {scheme : Scheme} {literal : Literal} {position key : Nat}

/-- The place of the byte that a position looks at, counted from the start of a literal of the given
length. It may lie outside the literal. -/
def lookedAt (scheme : Scheme) (length position : Nat) : Int :=
  let back := scheme.bucketWidth - 1 - position
  length - 1 + (back % scheme.stride : Nat) - (back / scheme.stride * scheme.stride : Nat)

/-- The literal may have a pair of bytes with the key at a place. Any byte may come before it. -/
def MayHave (scheme : Scheme) (literal : Literal) (index key : Nat) : Prop :=
  ∃ second ∈ literal.variantsAt index, ∃ first,
    (index ≠ 0 → first ∈ literal.variantsAt (index - 1))
      ∧ ((first.toNat <<< 8) ||| second.toNat) % (1 <<< scheme.bits) = key

/-- The literal allows a candidate for a position under a key. -/
def Allows (scheme : Scheme) (literal : Literal) (position key : Nat) : Prop :=
  let place := lookedAt scheme literal.length position
  (place < 0 ∨ literal.length ≤ place)
    ∨ ∃ index : Nat, place = index ∧ MayHave scheme literal index key

theorem indexAt?_eq (scheme : Scheme) (length position : Nat) : indexAt? scheme length position
    = if 0 ≤ lookedAt scheme length position ∧ lookedAt scheme length position < length
      then some (lookedAt scheme length position).toNat else none :=
  rfl

theorem keyOf_eq (scheme : Scheme) (first second : UInt8) :
    keyOf scheme first second = ((first.toNat <<< 8) ||| second.toNat) % (1 <<< scheme.bits) := by
  rw [keyOf, Scheme.keyMask, Scheme.entries, Nat.one_shiftLeft, Nat.and_two_pow_sub_one_eq_mod]

theorem mem_allBytes (byte : UInt8) : byte ∈ allBytes :=
  List.mem_map.2 ⟨byte.toNat, List.mem_range.2 byte.toNat_lt, UInt8.ofNat_toNat⟩

theorem mem_bytesBefore {index : Nat} {byte : UInt8} :
    byte ∈ bytesBefore literal index ↔ (index ≠ 0 → byte ∈ literal.variantsAt (index - 1)) := by
  unfold bytesBefore
  split
  · next hzero => exact ⟨fun _ hne => absurd hzero hne, fun _ => mem_allBytes byte⟩
  · next hne => exact ⟨fun h _ => h, fun h => h hne⟩

theorem mem_keysAt {index : Nat} :
    key ∈ keysAt scheme literal index ↔ MayHave scheme literal index key := by
  simp only [keysAt, MayHave, List.mem_flatMap, List.mem_map, mem_bytesBefore, keyOf_eq]

/-- What a position does to the words is to clear its bit under the keys that the literal allows. -/
theorem hits_iff {bit other : Nat} :
    (⟨bit, (indexAt? scheme literal.length position).map (keysAt scheme literal)⟩ : Clearing).Hits
        other key ↔ bit = other ∧ Allows scheme literal position key := by
  refine and_congr_right fun _ => ?_
  simp only [indexAt?_eq, Allows]
  generalize lookedAt scheme literal.length position = place
  split
  · next hin =>
    simp only [Option.map_some, Option.some.injEq, forall_eq', mem_keysAt]
    constructor
    · exact fun h => .inr ⟨_, (Int.toNat_of_nonneg hin.1).symm, h⟩
    · rintro (hout | ⟨index, rfl, h⟩)
      · omega
      · exact h
  · next hout =>
    refine ⟨fun _ => .inl ?_, fun _ _ h => (nomatch h)⟩
    omega

end Primary

/-! ## States -/

/-- A bit of the state after a probe is that of the word or, a stride below it, that of the state
before. -/
theorem Scanner.testBit_shift {scanner : Scanner} (hscheme : scanner.table.scheme.IsKnown)
    (state word : Nat) {bucket position : Nat} (hbucket : bucket < scanner.table.scheme.buckets)
    (hposition : position < scanner.table.scheme.bucketWidth) :
    (scanner.shift state word).testBit (scanner.table.scheme.bitAt bucket position)
      = ((decide (scanner.table.scheme.stride ≤ position)
          && state.testBit (scanner.table.scheme.bitAt bucket
            (position - scanner.table.scheme.stride)))
        || word.testBit (scanner.table.scheme.bitAt bucket position)) := by
  unfold shift
  generalize scanner.table.scheme = scheme at hscheme hbucket hposition ⊢
  simp only [Nat.testBit_and, Nat.testBit_or, Nat.testBit_shiftLeft, Primary.testBit_fullWord,
    hscheme.bitAt_lt hbucket hposition, decide_true, Bool.and_true, ge_iff_le,
    Scheme.stride_le_bitAt_iff hbucket]
  by_cases hstride : scheme.stride ≤ position
  · rw [Scheme.bitAt_sub_stride hstride]
  · simp only [hstride, decide_false, Bool.false_and]

/-- Once a word with all its bits for a bucket set is taken in, the bucket raises no candidate. -/
theorem Scanner.bucketMatches_shift {scanner : Scanner} (hscheme : scanner.table.scheme.IsKnown)
    {bucket word : Nat} (hbucket : bucket < scanner.table.scheme.buckets)
    (hset : ∀ position < scanner.table.scheme.bucketWidth,
      word.testBit (scanner.table.scheme.bitAt bucket position) = true)
    (state back place : Nat) (groups : Groups) :
    scanner.bucketMatches (scanner.shift state word) back place groups bucket = .ok [] := by
  have hposition : scanner.table.scheme.bucketWidth - 1 - back
      < scanner.table.scheme.bucketWidth := by
    have hstride := hscheme.stride_pos
    have hwidth := hscheme.stride_le
    omega
  simp only [bucketMatches, hscheme.bitAt?_eq_ok hbucket, testBit_shift hscheme state word hbucket
    hposition, hset _ hposition, Bool.or_true, bind, Except.bind, if_true]
  rfl

/-! ## The words -/

namespace Primary

variable {scheme : Scheme} {buckets : List (List Literal)} {key : Nat}

theorem mem_getD {literal : Literal} {bucket : Nat} : literal ∈ buckets.getD bucket []
    ↔ ∃ hbucket : bucket < buckets.length, literal ∈ buckets[bucket] := by
  rw [List.getD_eq_getElem?_getD]
  rcases Nat.lt_or_ge bucket buckets.length with hlt | hge
  · rw [List.getElem?_eq_getElem hlt, Option.getD_some, exists_prop_of_true hlt]
  · rw [List.getElem?_eq_none hge]
    exact ⟨fun h => (nomatch h), fun ⟨hlt, _⟩ => absurd hlt (Nat.not_lt.2 hge)⟩

/-- A bit is cleared by the literals of its own bucket, for its own position. -/
theorem testBit_words_eq_false_iff (hscheme : scheme.IsKnown)
    (hbuckets : buckets.length ≤ scheme.buckets) (hkey : key < (words scheme buckets).length)
    {bucket position : Nat} (hbucket : bucket < scheme.buckets)
    (hposition : position < scheme.bucketWidth) :
    (words scheme buckets)[key].testBit (scheme.bitAt bucket position) = false
      ↔ ∃ literal ∈ buckets.getD bucket [], Allows scheme literal position key := by
  rw [← Bool.not_eq_true, testBit_words hkey, and_iff_right (hscheme.bitAt_lt hbucket hposition)]
  simp only [Classical.not_forall, Classical.not_not, mem_getD]
  constructor
  · rintro ⟨_, hmem, hhits⟩
    obtain ⟨own, hown, literal, hliteral, place, -, rfl⟩ := mem_clearings.1 hmem
    obtain ⟨hbit, hallows⟩ := hits_iff.1 hhits
    obtain ⟨rfl, rfl⟩ := Scheme.bitAt_inj hbucket (Nat.lt_of_lt_of_le hown hbuckets) hbit
    exact ⟨literal, ⟨hown, hliteral⟩, hallows⟩
  · rintro ⟨literal, ⟨hown, hliteral⟩, hallows⟩
    exact ⟨_, mem_clearings.2 ⟨bucket, hown, literal, hliteral, position, hposition, rfl⟩,
      hits_iff.2 ⟨rfl, hallows⟩⟩

/-- The word of a key has no bits but those of the positions of the buckets, and each of them is
clear exactly if some literal of the bucket allows a candidate for the position under the key. So a
bucket without literals raises no candidate at a probe that takes the word in, whatever the state
was before. -/
theorem words_exact (hscheme : scheme.IsKnown) (hbuckets : buckets.length ≤ scheme.buckets)
    (hkey : key < 1 <<< scheme.bits) :
    ∃ word, (words scheme buckets)[key]? = some word
      ∧ (∀ bit, scheme.width ≤ bit → word.testBit bit = false)
      ∧ (∀ bit < scheme.width, ∃ bucket < scheme.buckets, ∃ position < scheme.bucketWidth,
          scheme.bitAt? bucket position = .ok bit)
      ∧ ∀ bucket < scheme.buckets,
          (∀ position < scheme.bucketWidth, ∃ bit, scheme.bitAt? bucket position = .ok bit
            ∧ (word.testBit bit = false
              ↔ ∃ literal ∈ buckets.getD bucket [], Allows scheme literal position key))
          ∧ (buckets.getD bucket [] = [] → ∀ scanner : Scanner, scanner.table.scheme = scheme →
              ∀ state back place groups, scanner.bucketMatches (scanner.shift state word) back place
                groups bucket = .ok []) := by
  have hlength : key < (words scheme buckets).length := by
    rw [length_words]
    exact hkey
  have hclear {bucket position : Nat} (hbucket : bucket < scheme.buckets)
      (hposition : position < scheme.bucketWidth) :=
    testBit_words_eq_false_iff hscheme hbuckets hlength hbucket hposition
  refine ⟨_, List.getElem?_eq_getElem hlength, fun bit hge => ?_, fun bit hlt => ?_,
    fun bucket hbucket => ⟨fun position hposition => ?_, fun hempty scanner heq => ?_⟩⟩
  · rw [← Bool.not_eq_true, testBit_words hlength]
    exact fun h => Nat.not_lt.2 hge h.1
  · obtain ⟨bucket, hbucket, position, hposition, rfl⟩ := hscheme.exists_bitAt hlt
    exact ⟨bucket, hbucket, position, hposition, if_pos ⟨hbucket, hposition⟩⟩
  · exact ⟨_, if_pos ⟨hbucket, hposition⟩, hclear hbucket hposition⟩
  · subst heq
    refine Scanner.bucketMatches_shift hscheme hbucket fun position hposition => ?_
    rw [← Bool.not_eq_false, hclear hbucket hposition, hempty]
    rintro ⟨_, hnone, _⟩
    cases hnone

/-- With a stride of two, the first position looks at the `a` of `ab`, which any byte may come
before, and the third one past its end. -/
theorem words_exact_stride_two :
    let scheme : Scheme := ⟨1, 32, 8, 2, .none, 1, 0, 9⟩
    let buckets : List (List Literal) := [[{ id := .wrap 7, bytes := [97, 98] }], []]
    scheme.IsKnown ∧ buckets.length ≤ scheme.buckets ∧ 353 < 1 <<< scheme.bits
      ∧ ∃ word, (words scheme buckets)[353]? = some word ∧ word.testBit 0 = false
        ∧ word.testBit 16 = false ∧ word.testBit 1 = true := by
  intro scheme buckets
  have hscheme : scheme.IsKnown :=
    ⟨⟨{ scheme with bits := defaultDomain }, by decide, rfl⟩, by decide⟩
  have hbuckets : buckets.length ≤ scheme.buckets := by decide
  have hkey : 353 < 1 <<< scheme.bits := by decide
  obtain ⟨word, hword, -, -, hbits⟩ := words_exact hscheme hbuckets hkey
  have hfirst : scheme.bitAt? 0 0 = .ok 0 := if_pos (by decide)
  have hthird : scheme.bitAt? 0 2 = .ok 16 := if_pos (by decide)
  have hother : scheme.bitAt? 1 0 = .ok 1 := if_pos (by decide)
  refine ⟨hscheme, hbuckets, hkey, word, hword, ?_, ?_, ?_⟩
  · obtain ⟨bit, hbit, hclear⟩ := (hbits 0 (by decide)).1 0 (by decide)
    cases hfirst.symm.trans hbit
    exact hclear.2 ⟨_, List.mem_cons_self,
      .inr ⟨0, by decide, 97, List.mem_cons_self, 1, fun hne => absurd rfl hne, by decide⟩⟩
  · obtain ⟨bit, hbit, hclear⟩ := (hbits 0 (by decide)).1 2 (by decide)
    cases hthird.symm.trans hbit
    exact hclear.2 ⟨_, List.mem_cons_self, .inl (.inr (by decide))⟩
  · obtain ⟨bit, hbit, hclear⟩ := (hbits 1 (by decide)).1 0 (by decide)
    cases hother.symm.trans hbit
    rw [← Bool.not_eq_false, hclear]
    rintro ⟨_, hnone, _⟩
    cases hnone

end Primary

end Multimatch
