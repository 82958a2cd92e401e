import Multimatch.Table.Primary

/-!
# The bits of the primary table

A word of the primary table starts full and loses bits: `Primary.Clearing.Hits` says that a clearing
concerns a bit and a key, and a bit of a word is clear exactly if some clearing hits it
(`Primary.testBit_words`). What the positions of a literal do is `Primary.mem_clearings`.
-/

namespace Multimatch.Primary

theorem testBit_without (word mask i : Nat) :
    (without word mask).testBit i = (word.testBit i && !mask.testBit i) := by
  rw [without, Nat.testBit_xor, Nat.testBit_and]
  cases word.testBit i <;> cases mask.testBit i <;> rfl

theorem testBit_one_shiftLeft (bit i : Nat) : (1 <<< bit).testBit i = (bit == i) := by
  rw [Nat.one_shiftLeft, Nat.testBit_two_pow]
  rfl

namespace Clearing

/-- The clearing clears the bit in the word under the key. -/
def Hits (clearing : Clearing) (bit key : Nat) : Prop :=
  clearing.bit = bit ∧ ∀ keys, clearing.keys? = some keys → key ∈ keys

end Clearing

/-! ## Keyed clearings -/

theorem size_clearKeys (bit : Nat) (keys : List Nat) (words : Array Nat) :
    (clearKeys bit words keys).size = words.size := by
  induction keys generalizing words with
  | nil => rfl
  | cons k keys ih => rw [clearKeys, List.foldl_cons, ← clearKeys, ih, Array.size_modify]

theorem testBit_clearKeys (bit : Nat) (keys : List Nat) (words : Array Nat) {key : Nat}
    (hkey : key < (clearKeys bit words keys).size) (hkey' : key < words.size) (i : Nat) :
    (clearKeys bit words keys)[key].testBit i
      = (words[key].testBit i && !(bit == i && keys.contains key)) := by
  induction keys generalizing words with
  | nil => simp [clearKeys]
  | cons k keys ih =>
    have hmod : key < (words.modify k (without · (1 <<< bit))).size := by
      rwa [Array.size_modify]
    have hstep : clearKeys bit words (k :: keys)
        = clearKeys bit (words.modify k (without · (1 <<< bit))) keys := rfl
    simp only [hstep]
    rw [ih _ (by rwa [size_clearKeys]) hmod, Array.getElem_modify, List.contains_cons]
    by_cases hk : k = key
    · subst hk
      rw [if_pos rfl, testBit_without, testBit_one_shiftLeft]
      cases words[k].testBit i <;> cases bit == i <;> simp
    · have hne : (key == k) = false := by simpa using fun h => hk h.symm
      rw [if_neg hk, hne, Bool.false_or]

/-- What the clearings that name their keys do to the words. -/
def clearAll (words : Array Nat) (clearings : List Clearing) : Array Nat :=
  clearings.foldl (fun words clearing =>
    clearKeys clearing.bit words (clearing.keys?.getD [])) words

theorem size_clearAll (clearings : List Clearing) (words : Array Nat) :
    (clearAll words clearings).size = words.size := by
  induction clearings generalizing words with
  | nil => rfl
  | cons c clearings ih => rw [clearAll, List.foldl_cons, ← clearAll, ih, size_clearKeys]

theorem testBit_clearAll (clearings : List Clearing) (words : Array Nat) {key : Nat}
    (hkey : key < (clearAll words clearings).size) (hkey' : key < words.size) (i : Nat) :
    (clearAll words clearings)[key].testBit i = (words[key].testBit i
      && !clearings.any fun c => c.bit == i && (c.keys?.getD []).contains key) := by
  induction clearings generalizing words with
  | nil => simp [clearAll]
  | cons c clearings ih =>
    have hsize := size_clearKeys c.bit (c.keys?.getD []) words
    have hstep : clearAll words (c :: clearings)
        = clearAll (clearKeys c.bit words (c.keys?.getD [])) clearings := rfl
    simp only [hstep]
    rw [ih _ (by rwa [size_clearAll, hsize]) (by rwa [hsize]),
      testBit_clearKeys _ _ _ (by rwa [hsize]) hkey', List.any_cons, Bool.not_or, Bool.and_assoc]

theorem testBit_wildcard (clearings : List Clearing) (i : Nat) :
    (wildcard clearings).testBit i = clearings.any fun c => c.keys?.isNone && c.bit == i := by
  have hfold (mask : Nat) : (clearings.foldl (fun mask c =>
      if c.keys?.isNone then mask ||| (1 <<< c.bit) else mask) mask).testBit i
        = (mask.testBit i || clearings.any fun c => c.keys?.isNone && c.bit == i) := by
    induction clearings generalizing mask with
    | nil => simp
    | cons c clearings ih =>
      rw [List.foldl_cons, ih, List.any_cons]
      cases c.keys?.isNone
      · simp
      · simp only [if_true, Bool.true_and]
        rw [Nat.testBit_or, testBit_one_shiftLeft, Bool.or_assoc]
  rw [wildcard, hfold, Nat.zero_testBit, Bool.false_or]

/-! ## Words -/

theorem words_eq (scheme : Scheme) (buckets : List (List Literal)) :
    words scheme buckets
      = (clearAll (Array.replicate scheme.entries scheme.fullWord)
          (clearings scheme buckets)).toList.map
            (without · (wildcard (clearings scheme buckets))) :=
  rfl

theorem length_words (scheme : Scheme) (buckets : List (List Literal)) :
    (words scheme buckets).length = scheme.entries := by
  rw [words_eq, List.length_map, Array.length_toList, size_clearAll, Array.size_replicate]

theorem testBit_fullWord (scheme : Scheme) (i : Nat) :
    scheme.fullWord.testBit i = decide (i < scheme.width) := by
  rw [Scheme.fullWord, Nat.one_shiftLeft, Nat.testBit_two_pow_sub_one]

/-- A bit of a word is set exactly if it is a bit of the scheme and no clearing hits it. -/
theorem testBit_words {scheme : Scheme} {buckets : List (List Literal)} {key : Nat}
    (hkey : key < (words scheme buckets).length) (i : Nat) :
    (words scheme buckets)[key].testBit i = true ↔
      i < scheme.width ∧ ∀ c ∈ clearings scheme buckets, ¬ c.Hits i key := by
  have hentries : key < scheme.entries := by rwa [length_words] at hkey
  simp only [words_eq, List.getElem_map, Array.getElem_toList, testBit_without, testBit_wildcard]
  rw [testBit_clearAll _ _ _ (by rwa [Array.size_replicate]), Array.getElem_replicate,
    testBit_fullWord]
  simp only [Bool.and_eq_true, decide_eq_true_eq, Bool.not_eq_true', List.any_eq_false, and_assoc]
  refine and_congr_right fun _ => ⟨fun ⟨hkeyed, hwild⟩ c hc ⟨hbit, hkeys⟩ => ?_, fun h => ⟨?_, ?_⟩⟩
  · cases hcase : c.keys? with
    | none => exact hwild c hc (by simp [hcase, hbit])
    | some keys => exact hkeyed c hc (by simp [hcase, hbit, hkeys keys hcase])
  · intro c hc hhit
    simp only [beq_iff_eq, List.contains_iff_mem] at hhit
    refine h c hc ⟨hhit.1, fun keys hkeys => ?_⟩
    simpa [hkeys] using hhit.2
  · intro c hc hhit
    simp only [beq_iff_eq, Option.isNone_iff_eq_none] at hhit
    exact h c hc ⟨hhit.2, fun keys hkeys => by rw [hhit.1] at hkeys; cases hkeys⟩

theorem words_lt {scheme : Scheme} {buckets : List (List Literal)} {word : Nat}
    (hword : word ∈ words scheme buckets) : word < 1 <<< scheme.width := by
  obtain ⟨key, hkey, rfl⟩ := List.getElem_of_mem hword
  rw [Nat.one_shiftLeft]
  apply Nat.lt_pow_two_of_testBit
  intro i hi
  rw [Bool.eq_false_iff]
  exact fun h => Nat.not_lt.2 hi ((testBit_words hkey i).1 h).1

/-! ## Clearings -/

theorem mem_clearings {scheme : Scheme} {buckets : List (List Literal)} {c : Clearing} :
    c ∈ clearings scheme buckets ↔ ∃ bucket, ∃ h : bucket < buckets.length,
      ∃ literal ∈ buckets[bucket], ∃ position < scheme.bucketWidth,
        c = ⟨scheme.bitAt bucket position,
          (indexAt? scheme literal.length position).map (keysAt scheme literal)⟩ := by
  simp only [clearings, List.mem_flatMap, List.mem_zipIdx_iff_getElem?, clearingsOf, List.mem_map,
    List.mem_range, Prod.exists]
  constructor
  · rintro ⟨literals, bucket, hbucket, literal, hliteral, position, hposition, rfl⟩
    obtain ⟨hlt, rfl⟩ := List.getElem?_eq_some_iff.1 hbucket
    exact ⟨bucket, hlt, literal, hliteral, position, hposition, rfl⟩
  · rintro ⟨bucket, hlt, literal, hliteral, position, hposition, rfl⟩
    exact ⟨_, bucket, List.getElem?_eq_getElem hlt, literal, hliteral, position, hposition, rfl⟩

end Multimatch.Primary
