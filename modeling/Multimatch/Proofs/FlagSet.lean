import Mathlib.Data.List.Sort
import Multimatch.FlagSet

/-!
# Members of flag sets

A walk over a flag set comes to the flags that are on, to all of them and in ascending order
(`FlagSet.eq_toList_of_members`), and it does come there if the set has its words
(`FlagSet.IsSized.members_eq`). Two sets of one shape accept and refuse the same changes and keep
one shape (`FlagSet.SameShape`); once they are cleared they are equal.
-/

namespace Multimatch

namespace FlagSet

variable {set next other : FlagSet} {flag : Nat}

/-! ## What a walk comes to -/

theorem lt_of_lowestBit? {word : BitVec 64} {bit : Nat} (h : lowestBit? word = some bit) :
    bit < 64 := List.mem_range.1 (List.mem_of_find?_eq_some h)

theorem getLsbD_of_lowestBit? {word : BitVec 64} {bit : Nat} (h : lowestBit? word = some bit) :
    word.getLsbD bit = true := List.find?_some h

/-- The lowest flag in a row of words is a bit that is set in one of them. -/
theorem exists_word_of_lowestFlag? {words : List (BitVec 64)} {index : Nat}
    (h : lowestFlag? index words = some flag) :
    ∃ place word bit, words[place]? = some word ∧ bit < 64 ∧ word.getLsbD bit = true
      ∧ flag = (index + place) * 64 + bit := by
  induction words generalizing index with
  | nil => cases h
  | cons word words ih =>
    unfold lowestFlag? at h
    cases hbit : lowestBit? word with
    | some bit =>
      rw [hbit] at h
      cases h
      exact ⟨0, word, bit, rfl, lt_of_lowestBit? hbit, getLsbD_of_lowestBit? hbit, rfl⟩
    | none =>
      rw [hbit] at h
      obtain ⟨place, other, bit, hplace, hlt, hon, hflag⟩ := ih h
      refine ⟨place + 1, other, bit, hplace, hlt, hon, ?_⟩
      rw [hflag]
      omega

/-- The words from that of a flag on have the bits of the flags from there on. -/
theorem bit_of_wordsFrom {start : Nat} {words : List (BitVec 64)}
    (run : set.wordsFrom start = .ok words) {place bit : Nat} (hlt : bit < 64) :
    (∃ word, words[place]? = some word ∧ word.getLsbD bit = true)
      ↔ set.bit ((start / 64 + place) * 64 + bit) = true
        ∧ start ≤ (start / 64 + place) * 64 + bit := by
  obtain ⟨leading, hleading, hwords⟩ := Except.bind_eq_ok_iff.1 run
  have hleading := elementAt_eq_ok_iff.1 hleading
  cases hwords
  have hdiv : ((start / 64 + place) * 64 + bit) / 64 = start / 64 + place := by omega
  have hmod : ((start / 64 + place) * 64 + bit) % 64 = bit := by omega
  rw [FlagSet.bit, hdiv, hmod]
  cases place with
  | zero =>
    have hmask : (leading &&& (BitVec.allOnes 64 <<< (start % 64))).getLsbD bit = true
        ↔ leading.getLsbD bit = true ∧ start ≤ (start / 64 + 0) * 64 + bit := by
      simp only [BitVec.getLsbD_and, BitVec.getLsbD_shiftLeft, BitVec.getLsbD_allOnes,
        Bool.and_eq_true, Bool.not_eq_true', decide_eq_true_eq, decide_eq_false_iff_not]
      exact and_congr_right fun _ => by omega
    simp only [List.getElem?_cons_zero, Option.some.injEq, exists_eq_left', hmask, Nat.add_zero,
      hleading, Option.any_some]
  | succ place =>
    have hle : start ≤ (start / 64 + (place + 1)) * 64 + bit := by omega
    have hplace : start / 64 + (place + 1) = start / 64 + 1 + place := by omega
    rw [and_iff_left hle, List.getElem?_cons_succ, List.getElem?_drop, hplace]
    cases set.words[start / 64 + 1 + place]? <;> simp

/-- An answer to what is next is that the start is past all flags, or the lowest flag in the words
from there on, if it is below the capacity. -/
theorem nextFrom?_eq_ok_iff {start : Nat} {next? : Option Nat} :
    set.nextFrom? start = .ok next? ↔ (set.capacity ≤ start ∧ next? = none)
      ∨ (start < set.capacity ∧ ∃ words, set.wordsFrom start = .ok words
        ∧ next? = (lowestFlag? (start / 64) words).filter (· < set.capacity)) := by
  unfold nextFrom?
  by_cases hover : set.capacity ≤ start
  · simp [hover, Nat.not_lt.2 hover, eq_comm]
  · rw [if_neg hover]
    refine Except.bind_eq_ok_iff.trans ?_
    simp [hover, Nat.lt_of_not_le hover, pure, Except.pure, eq_comm]

theorem of_nextFrom? {start : Nat} (run : set.nextFrom? start = .ok (some flag)) :
    set.isOn flag = true ∧ start ≤ flag := by
  rcases nextFrom?_eq_ok_iff.1 run with ⟨-, hnone⟩ | ⟨-, words, hwords, hnext⟩
  · cases hnone
  · obtain ⟨hlowest, hbelow⟩ := Option.filter_eq_some_iff.1 hnext.symm
    obtain ⟨place, word, bit, hplace, hlt, hon, rfl⟩ := exists_word_of_lowestFlag? hlowest
    obtain ⟨hbit, hle⟩ := (bit_of_wordsFrom hwords hlt).1 ⟨word, hplace, hon⟩
    exact ⟨isOn_iff.2 ⟨of_decide_eq_true hbelow, hbit⟩, hle⟩

theorem isOn_of_next? {after? : Option Nat} (run : set.next? after? = .ok (some flag)) :
    set.isOn flag = true := by
  cases after? with
  | none => exact (of_nextFrom? run).1
  | some after => exact (of_nextFrom? run).1

theorem lt_of_next? {after : Nat} (run : set.next? (some after) = .ok (some flag)) : after < flag :=
  (of_nextFrom? run).2

theorem lt_capacity_of_isOn (hon : set.isOn flag = true) : flag < set.capacity := (isOn_iff.1 hon).1

/-- In a row of words a flag is found that is not past any bit that is set. -/
theorem exists_lowestFlag?_le {words : List (BitVec 64)} {index place bit : Nat} {word : BitVec 64}
    (hword : words[place]? = some word) (hlt : bit < 64) (hon : word.getLsbD bit = true) :
    ∃ first, lowestFlag? index words = some first ∧ first ≤ (index + place) * 64 + bit := by
  induction words generalizing index place with
  | nil => cases hword
  | cons first words ih =>
    unfold lowestFlag?
    cases hlowest : lowestBit? first with
    | some lowest =>
      refine ⟨_, rfl, ?_⟩
      have hbelow := lt_of_lowestBit? hlowest
      cases place with
      | zero =>
        cases hword
        have hle : lowest ≤ bit := by
          refine Nat.le_of_not_lt fun hbit => ?_
          have hoff := (List.find?_range_eq_some.1 hlowest).2.2 bit hbit
          rw [hon] at hoff
          cases hoff
        omega
      | succ place => omega
    | none =>
      cases place with
      | zero =>
        cases hword
        have hnone := List.find?_eq_none.1 hlowest bit (List.mem_range.2 hlt)
        exact absurd hon hnone
      | succ place =>
        obtain ⟨found, hfound, hle⟩ := @ih (index + 1) place hword
        exact ⟨found, hfound, by omega⟩

/-- From a start on, a flag is found that is not past any flag there that is on. -/
theorem exists_le_of_nextFrom? {start : Nat} {next? : Option Nat}
    (run : set.nextFrom? start = .ok next?) (hon : set.isOn flag = true) (hstart : start ≤ flag) :
    ∃ first, next? = some first ∧ first ≤ flag := by
  obtain ⟨hbelow, hbit⟩ := isOn_iff.1 hon
  rcases nextFrom?_eq_ok_iff.1 run with ⟨hover, -⟩ | ⟨-, words, hwords, rfl⟩
  · omega
  · have hlow : flag % 64 < 64 := Nat.mod_lt _ (by decide)
    have hflag : (start / 64 + (flag / 64 - start / 64)) * 64 + flag % 64 = flag := by omega
    have hplace := @bit_of_wordsFrom set start words hwords (flag / 64 - start / 64) _ hlow
    rw [hflag] at hplace
    obtain ⟨word, hword, hset⟩ := hplace.2 ⟨hbit, hstart⟩
    obtain ⟨first, hfirst, hle⟩ := @exists_lowestFlag?_le words (start / 64) _ _ word hword hlow hset
    rw [hflag] at hle
    refine ⟨first, ?_, hle⟩
    rw [hfirst, Option.filter_some, if_pos (decide_eq_true (Nat.lt_of_le_of_lt hle hbelow))]

theorem exists_le_of_next? {after? next? : Option Nat} (run : set.next? after? = .ok next?)
    (hon : set.isOn flag = true) (hafter : ∀ after, after? = some after → after < flag) :
    ∃ first, next? = some first ∧ first ≤ flag := by
  cases after? with
  | none => exact exists_le_of_nextFrom? run hon (Nat.zero_le flag)
  | some after => exact exists_le_of_nextFrom? run hon (hafter after rfl)

/-- A step of a walk ends it, at once or because no flag is left, or comes to the next flag. -/
theorem Cursor.next_eq_ok_iff {walk after : Cursor} {found : Option Nat} :
    walk.next = .ok (found, after) ↔
      (walk.done = true ∧ found = none ∧ after = walk)
      ∨ (walk.done = false ∧ walk.set.next? walk.last = .ok found
        ∧ after = match found with
          | none => { walk with done := true }
          | some flag => { walk with last := some flag }) := by
  unfold Cursor.next
  cases hdone : walk.done with
  | true => simp [eq_comm]
  | false =>
    rw [if_neg Bool.false_ne_true]
    refine Except.bind_eq_ok_iff.trans ?_
    constructor
    · rintro ⟨found', hnext, hmatch⟩
      cases found' <;> cases hmatch <;> exact .inr ⟨rfl, hnext, rfl⟩
    · rintro (⟨hfalse, -⟩ | ⟨-, hnext, rfl⟩)
      · cases hfalse
      · cases found <;> exact ⟨_, hnext, rfl⟩

/-- What a walk takes are flags that are on, in ascending order and past the last one, and with
enough calls left all of them. -/
theorem Cursor.of_take {walk last : Cursor} {count : Nat} {flags : List Nat}
    (run : walk.take count = .ok (flags, last)) (hdone : walk.done = false) :
    flags.Pairwise (· < ·)
      ∧ (∀ flag ∈ flags, walk.set.isOn flag = true
        ∧ ∀ before, walk.last = some before → before < flag)
      ∧ ∀ flag, walk.set.isOn flag = true → (∀ before, walk.last = some before → before < flag) →
        flag < count + walk.last.elim 0 (· + 1) → flag ∈ flags := by
  induction count generalizing walk flags with
  | zero =>
    obtain rfl : flags = [] := by cases run; rfl
    refine ⟨.nil, nofun, fun flag hon hahead hcount => ?_⟩
    cases hlast : walk.last with
    | none => simp [hlast] at hcount
    | some before =>
      have hbefore := hahead before hlast
      simp only [hlast, Option.elim_some, Nat.zero_add] at hcount
      omega
  | succ count ih =>
    obtain ⟨⟨found, after⟩, hstep, hrest⟩ := Except.bind_eq_ok_iff.1 run
    rcases Cursor.next_eq_ok_iff.1 hstep with ⟨hdone', -, -⟩ | ⟨-, hnext, hafter⟩
    · exact absurd hdone' (by simp [hdone])
    cases found with
    | none =>
      cases hrest
      refine ⟨.nil, nofun, fun flag hon hahead _ => ?_⟩
      obtain ⟨first, hfirst, -⟩ := exists_le_of_next? hnext hon hahead
      cases hfirst
    | some first =>
      obtain ⟨⟨rest, last'⟩, htake, hflags⟩ := Except.bind_eq_ok_iff.1 hrest
      cases hflags
      subst hafter
      obtain ⟨hsorted, hmem, hall⟩ := ih htake hdone
      have hfirst : ∀ before, walk.last = some before → before < first := by
        intro before hbefore
        rw [hbefore] at hnext
        exact lt_of_next? hnext
      refine ⟨List.pairwise_cons.2 ⟨fun flag hflag => (hmem flag hflag).2 first rfl, hsorted⟩,
        List.forall_mem_cons.2 ⟨⟨isOn_of_next? hnext, hfirst⟩, fun flag hflag =>
          ⟨(hmem flag hflag).1, fun before hbefore => ?_⟩⟩, fun flag hon hahead hcount => ?_⟩
      · exact Nat.lt_trans (hfirst before hbefore) ((hmem flag hflag).2 first rfl)
      · obtain ⟨first', hfirst', hle⟩ := exists_le_of_next? hnext hon hahead
        cases hfirst'
        rcases Nat.eq_or_lt_of_le hle with rfl | hlt
        · exact List.mem_cons_self
        · refine List.mem_cons_of_mem _ (hall flag hon (fun before hbefore => ?_) ?_)
          · cases hbefore
            exact hlt
          · simp only [Option.elim_some]
            cases hlast : walk.last with
            | none =>
              simp only [hlast, Option.elim_none] at hcount
              omega
            | some before =>
              have hbefore := hfirst before hlast
              simp only [hlast, Option.elim_some] at hcount
              omega

/-- The flags that are on, in ascending order. -/
def toList (set : FlagSet) : List Nat := (List.range set.capacity).filter set.isOn

theorem mem_toList_iff : flag ∈ set.toList ↔ set.isOn flag = true := by
  rw [toList, List.mem_filter, List.mem_range]
  exact and_iff_right_of_imp lt_capacity_of_isOn

theorem pairwise_toList (set : FlagSet) : set.toList.Pairwise (· < ·) :=
  List.pairwise_lt_range.filter _

/-- The members are the flags that are on. -/
theorem eq_toList_of_members {flags : List Nat} (run : set.members = .ok flags) :
    flags = set.toList := by
  obtain ⟨⟨taken, last⟩, htake, hflags⟩ := Except.bind_eq_ok_iff.1 run
  cases hflags
  obtain ⟨hsorted, hmem, hall⟩ := Cursor.of_take htake rfl
  refine hsorted.eq_of_mem_iff set.pairwise_toList fun flag => ?_
  rw [mem_toList_iff]
  refine ⟨fun hflag => (hmem flag hflag).1, fun hon => hall flag hon nofun ?_⟩
  exact Nat.lt_of_lt_of_le (lt_capacity_of_isOn hon) (Nat.le_add_right ..)

namespace IsSized

variable (sized : set.IsSized)
include sized

theorem exists_next? (after? : Option Nat) : ∃ next?, set.next? after? = .ok next? := by
  have hfrom (start : Nat) : ∃ next?, set.nextFrom? start = .ok next? := by
    by_cases hover : set.capacity ≤ start
    · exact ⟨none, nextFrom?_eq_ok_iff.2 (.inl ⟨hover, rfl⟩)⟩
    · have hbelow := Nat.lt_of_not_le hover
      obtain ⟨word, hword⟩ := sized.exists_word hbelow
      have hwords : set.wordsFrom start = .ok _ :=
        Except.bind_eq_ok_iff.2 ⟨word, elementAt_eq_ok_iff.2 hword, rfl⟩
      exact ⟨_, nextFrom?_eq_ok_iff.2 (.inr ⟨hbelow, _, hwords, rfl⟩)⟩
  cases after? with
  | none => exact hfrom 0
  | some after => exact hfrom (after + 1)

theorem exists_take {walk : Cursor} (hset : walk.set = set) (count : Nat) :
    ∃ taken, walk.take count = .ok taken := by
  induction count generalizing walk with
  | zero => exact ⟨_, rfl⟩
  | succ count ih =>
    cases hdone : walk.done with
    | true =>
      have hstep := Cursor.next_eq_ok_iff.2 (.inl ⟨hdone, rfl, rfl⟩)
      exact ⟨_, Except.bind_eq_ok_iff.2 ⟨_, hstep, rfl⟩⟩
    | false =>
      obtain ⟨found, hnext⟩ := sized.exists_next? walk.last
      have hstep := Cursor.next_eq_ok_iff.2 (.inr ⟨hdone, hset ▸ hnext, rfl⟩)
      cases found with
      | none => exact ⟨_, Except.bind_eq_ok_iff.2 ⟨_, hstep, rfl⟩⟩
      | some flag =>
        obtain ⟨taken, htake⟩ := @ih { walk with last := some flag } hset
        exact ⟨_, Except.bind_eq_ok_iff.2 ⟨_, hstep, Except.bind_eq_ok_iff.2 ⟨taken, htake, rfl⟩⟩⟩

/-- A set that has its words names its members. -/
theorem members_eq : set.members = .ok set.toList := by
  obtain ⟨taken, htake⟩ := @exists_take set sized set.cursor rfl (set.capacity + 1)
  have run : set.members = .ok taken.1 := Except.bind_eq_ok_iff.2 ⟨taken, htake, rfl⟩
  rw [run, eq_toList_of_members run]

end IsSized

/-- A set in which no flag is on has no members. -/
theorem toList_eq_nil (h : ∀ flag, set.isOn flag = false) : set.toList = [] := by
  refine List.eq_nil_iff_forall_not_mem.2 fun flag hflag => ?_
  exact Bool.false_ne_true ((h flag).symm.trans (mem_toList_iff.1 hflag))

/-! ## Sets of one shape -/

/-- Two sets have one capacity and as many words. -/
structure SameShape (set other : FlagSet) : Prop where
  capacity : set.capacity = other.capacity
  words : set.words.length = other.words.length

theorem SameShape.refl (set : FlagSet) : set.SameShape set := ⟨rfl, rfl⟩

theorem SameShape.symm (h : set.SameShape other) : other.SameShape set :=
  ⟨h.capacity.symm, h.words.symm⟩

theorem SameShape.trans (h : set.SameShape next) (h' : next.SameShape other) :
    set.SameShape other := ⟨h.capacity.trans h'.capacity, h.words.trans h'.words⟩

theorem IsSized.sameShape (h : set.IsSized) (h' : other.IsSized)
    (hcapacity : set.capacity = other.capacity) : set.SameShape other :=
  ⟨hcapacity, by rw [h, h', hcapacity]⟩

theorem SameShape.clear_eq (h : set.SameShape other) : set.clear = other.clear := by
  rw [clear, clear, List.map_const', List.map_const', h.words, h.capacity]

theorem SameShape.isSized (h : set.SameShape other) (hsized : other.IsSized) : set.IsSized := by
  rw [IsSized, h.words, hsized, h.capacity]

theorem SameShape.eq_of_bit (h : set.SameShape other)
    (hbit : ∀ flag, set.bit flag = other.bit flag) : set = other := by
  have hwords : set.words = other.words := by
    refine List.ext_getElem h.words fun index hindex hindex' => ?_
    refine BitVec.eq_of_getLsbD_eq fun place hplace => ?_
    have hsame := hbit (index * 64 + place)
    have hdiv : (index * 64 + place) / 64 = index := by omega
    have hmod : (index * 64 + place) % 64 = place := by omega
    simpa [bit, hdiv, hmod, hindex, hindex'] using hsame
  cases set
  cases other
  exact congr (congrArg FlagSet.mk h.capacity) hwords

/-! ## Changes -/

section Change

variable {given : Nat} {change : BitVec 64 → BitVec 64}

theorem sameShape_of_changeWord (run : set.changeWord given change = .ok next) :
    next.SameShape set := by
  obtain ⟨-, word, -, rfl⟩ := changeWord_eq_ok_iff.1 run
  exact ⟨rfl, List.length_set⟩

/-- Only the bits of one word change. -/
theorem bit_of_changeWord (run : set.changeWord given change = .ok next) :
    ∃ word, set.words[given / 64]? = some word ∧ ∀ flag, next.bit flag =
      if given / 64 = flag / 64 then (change word).getLsbD (flag % 64) else set.bit flag := by
  obtain ⟨-, word, hword, rfl⟩ := changeWord_eq_ok_iff.1 run
  obtain ⟨hinside, -⟩ := List.getElem?_eq_some_iff.1 hword
  refine ⟨word, hword, fun flag => ?_⟩
  rw [bit, List.getElem?_set]
  simp only [if_pos hinside]
  split <;> rfl

theorem IsSized.exists_changeWord (sized : set.IsSized) (below : given < set.capacity) :
    ∃ next, set.changeWord given change = .ok next ∧ next.SameShape set := by
  obtain ⟨word, hword⟩ := sized.exists_word below
  have run : set.changeWord given change = .ok _ :=
    changeWord_eq_ok_iff.2 ⟨below, word, hword, rfl⟩
  exact ⟨_, run, sameShape_of_changeWord run⟩

/-- A flag below the capacity can be switched on. -/
theorem IsSized.exists_insert (sized : set.IsSized) (below : given < set.capacity) :
    ∃ next, set.insert given = .ok next ∧ next.SameShape set := sized.exists_changeWord below

/-- A flag below the capacity can be switched off. -/
theorem IsSized.exists_erase (sized : set.IsSized) (below : given < set.capacity) :
    ∃ next, set.erase given = .ok next ∧ next.SameShape set := sized.exists_changeWord below

end Change

section Insert

variable {given : Nat} (run : set.insert given = .ok next)
include run

/-- Only a flag below the capacity is switched on. -/
theorem lt_capacity_of_insert : given < set.capacity := (changeWord_eq_ok_iff.1 run).1

theorem sameShape_of_insert : next.SameShape set := sameShape_of_changeWord run

/-- Switching a flag on sets its bit and no other. -/
theorem bit_of_insert : next.bit flag = true ↔ set.bit flag = true ∨ flag = given := by
  obtain ⟨word, hword, hbit⟩ := bit_of_changeWord run
  rw [hbit]
  split
  · next hplace =>
    have hflag : given % 64 = flag % 64 ↔ flag = given := by omega
    rw [bit, ← hplace, hword, Option.any_some, BitVec.getLsbD_or, BitVec.getLsbD_twoPow,
      Bool.or_eq_true, Bool.and_eq_true, decide_eq_true_eq, decide_eq_true_eq, hflag]
    exact or_congr_right (and_iff_right (Nat.mod_lt _ (by decide)))
  · next hplace =>
    have hne : flag ≠ given := fun heq => hplace (by rw [heq])
    simp [hne]

/-- Switching a flag on changes what the set says of this flag only. -/
theorem isOn_of_insert (flag : Nat) :
    next.isOn flag = (decide (flag = given) || set.isOn flag) := by
  have hbelow := lt_capacity_of_insert run
  rw [Bool.eq_iff_iff, isOn_iff, (sameShape_of_insert run).capacity, bit_of_insert run,
    Bool.or_eq_true, decide_eq_true_eq, isOn_iff]
  constructor
  · rintro ⟨hlt, hbit | heq⟩
    · exact .inr ⟨hlt, hbit⟩
    · exact .inl heq
  · rintro (rfl | ⟨hlt, hbit⟩)
    · exact ⟨hbelow, .inr rfl⟩
    · exact ⟨hlt, .inl hbit⟩

/-- What is on after a flag was switched on is this flag, or was on before. -/
theorem eq_or_isOn_of_insert (h : next.isOn flag = true) : flag = given ∨ set.isOn flag = true := by
  rwa [isOn_of_insert run, Bool.or_eq_true, decide_eq_true_eq] at h

/-- What was on before a flag was switched on still is. -/
theorem isOn_of_isOn_insert (h : set.isOn flag = true) : next.isOn flag = true := by
  rw [isOn_of_insert run, h, Bool.or_true]

/-- Switching a flag on is not seen in any other. -/
theorem isOn_of_insert_of_ne (hne : flag ≠ given) : next.isOn flag = set.isOn flag := by
  rw [isOn_of_insert run, decide_eq_false hne, Bool.false_or]

end Insert

section Erase

variable {given : Nat} (run : set.erase given = .ok next)
include run

theorem sameShape_of_erase : next.SameShape set := sameShape_of_changeWord run

/-- Switching a flag off clears its bit and no other. -/
theorem bit_of_erase : next.bit flag = true ↔ flag ≠ given ∧ set.bit flag = true := by
  obtain ⟨word, hword, hbit⟩ := bit_of_changeWord run
  rw [hbit]
  split
  · next hplace =>
    have hlow : flag % 64 < 64 := Nat.mod_lt _ (by decide)
    have hflag : flag % 64 = given % 64 ↔ flag = given := by omega
    rw [bit, ← hplace, hword, Option.any_some]
    simp [hlow, hflag, and_comm]
  · next hplace =>
    have hne : flag ≠ given := fun heq => hplace (by rw [heq])
    simp [hne]

/-- What is on after a flag was switched off was on before. -/
theorem isOn_of_isOn_erase (h : next.isOn flag = true) : set.isOn flag = true := by
  rw [isOn_iff, (sameShape_of_erase run).capacity, bit_of_erase run] at h
  exact isOn_iff.2 ⟨h.1, h.2.2⟩

/-- What was switched off is off. -/
theorem isOn_eq_false_of_erase : next.isOn given = false := by
  rw [← Bool.not_eq_true, isOn_iff, bit_of_erase run]
  exact fun h => h.2.1 rfl

end Erase

/-- Of two sets of one shape the change refuses both, or it leaves them with one shape. -/
def KeepsShape (change : FlagSet → Except Fault FlagSet) : Prop :=
  ∀ ⦃set other⦄, set.SameShape other →
    (∃ next next', change set = .ok next ∧ change other = .ok next' ∧ next.SameShape next')
      ∨ ∃ fault, change set = .error fault ∧ change other = .error fault

theorem keepsShape_changeWord (flag : Nat) (change : BitVec 64 → BitVec 64) :
    KeepsShape (·.changeWord flag change) := by
  intro set other h
  have hcapacity := h.capacity
  have hwords := h.words
  by_cases hbelow : flag < set.capacity
  · have hbelow' : flag < other.capacity := hcapacity ▸ hbelow
    simp only [changeWord, if_pos hbelow, if_pos hbelow']
    by_cases hinside : flag / 64 < set.words.length
    · rw [elementAt_eq_ok hinside, elementAt_eq_ok (hwords ▸ hinside)]
      refine .inl ⟨_, _, rfl, rfl, hcapacity, ?_⟩
      simpa using hwords
    · have hinside' : ¬flag / 64 < other.words.length := hwords ▸ hinside
      refine .inr ⟨.outOfBounds (flag / 64) set.words.length, ?_, ?_⟩
      · simp [elementAt, hinside, bind, Except.bind]
      · simp [elementAt, hinside', hwords, bind, Except.bind]
  · have hbelow' : ¬flag < other.capacity := hcapacity ▸ hbelow
    simp only [changeWord, if_neg hbelow', hcapacity]
    exact .inr ⟨_, rfl, rfl⟩

theorem keepsShape_insert (flag : Nat) : KeepsShape (·.insert flag) := keepsShape_changeWord ..

theorem keepsShape_erase (flag : Nat) : KeepsShape (·.erase flag) := keepsShape_changeWord ..

/-! ## Flags that are switched on -/

/-- The second set has the flags of the first one and the given ones, and differs in nothing else.
-/
structure Gains (set : FlagSet) (given : Nat → Prop) (next : FlagSet) : Prop where
  shape : next.SameShape set
  bit : ∀ flag, next.bit flag = true ↔ set.bit flag = true ∨ given flag

namespace Gains

variable {given more : Nat → Prop}

theorem of_none (hnone : ∀ flag, ¬given flag) : set.Gains given set where
  shape := .refl set
  bit flag := by simp [hnone flag]

theorem trans (h : set.Gains given next) (h' : next.Gains more other) :
    set.Gains (fun flag => given flag ∨ more flag) other where
  shape := h'.shape.trans h.shape
  bit flag := by rw [h'.bit, h.bit, or_assoc]

theorem congr (h : set.Gains given next) (hsame : ∀ flag, given flag ↔ more flag) :
    set.Gains more next where
  shape := h.shape
  bit flag := by rw [h.bit, hsame]

/-- There is only one such set. -/
theorem unique (h : set.Gains given next) (h' : set.Gains given other) : next = other :=
  (h.shape.trans h'.shape.symm).eq_of_bit fun flag => by
    rw [Bool.eq_iff_iff, h.bit, h'.bit]

theorem isOn_iff (h : set.Gains given next) (hbelow : ∀ flag, given flag → flag < set.capacity)
    (flag : Nat) : next.isOn flag = true ↔ set.isOn flag = true ∨ given flag := by
  rw [FlagSet.isOn_iff, FlagSet.isOn_iff, h.bit, h.shape.capacity, and_or_left,
    and_iff_right_of_imp (hbelow flag)]

end Gains

theorem gains_insert {given : Nat} (run : set.insert given = .ok next) :
    set.Gains (· = given) next where
  shape := sameShape_of_insert run
  bit _ := bit_of_insert run

end FlagSet

end Multimatch
