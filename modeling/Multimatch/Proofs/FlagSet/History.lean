import Mathlib.Data.Finset.Sort
import Multimatch.Proofs.FlagSet

/-!
# Flag sets after any changes

A flag set is a finite set of numbers. Whatever flags below the capacity are switched on and off,
its bits are those of the members and no others (`FlagSet.Holds`), and everything that it answers
follows from that: which flags are on, whether there is one, which is the next one, what a walk
comes to, and whether two sets are equal (`FlagSet.applyAll_exact`). This is so up to `maxCapacity`.
A set of more flags has no words (`FlagSet.exists_set_without_words`).
-/

namespace Multimatch

namespace FlagSet

variable {set other : FlagSet} {members others : Finset Nat} {flag : Nat} {after? : Option Nat}

/-! ## Changes -/

/-- A change of a flag set. -/
inductive Change where
  | insert (flag : Nat)
  | erase (flag : Nat)
  | clear
deriving DecidableEq, Repr

namespace Change

def apply (set : FlagSet) : Change → Except Fault FlagSet
  | .insert flag => set.insert flag
  | .erase flag => set.erase flag
  | .clear => .ok set.clear

/-- What a change makes of a set of numbers. -/
def onMembers (members : Finset Nat) : Change → Finset Nat
  | .insert flag => members ∪ {flag}
  | .erase flag => members.erase flag
  | .clear => ∅

/-- The change does not name a flag that a set of the given capacity cannot hold. -/
def IsWithin (capacity : Nat) : Change → Prop
  | .insert flag | .erase flag => flag < capacity
  | .clear => True

instance (capacity : Nat) (change : Change) : Decidable (change.IsWithin capacity) :=
  match change with
  | .insert _ | .erase _ => inferInstanceAs (Decidable (_ < _))
  | .clear => .isTrue trivial

end Change

/-- One change after the other. -/
def applyAll (set : FlagSet) (changes : List Change) : Except Fault FlagSet :=
  changes.foldlM Change.apply set

/-- The numbers that are left of none after some changes. -/
def membersAfter (changes : List Change) : Finset Nat := changes.foldl Change.onMembers ∅

/-! ## What is next -/

/-- The next flag is the least one that is on and comes after. -/
theorem isLeast_of_next? (run : set.next? after? = .ok (some flag)) :
    IsLeast {m | set.isOn m = true ∧ ∀ after ∈ after?, after < m} flag := by
  refine ⟨⟨isOn_of_next? run, ?_⟩, fun m ⟨hon, hafter⟩ => ?_⟩
  · rintro after rfl
    exact lt_of_next? run
  · obtain ⟨first, hfirst, hle⟩ := exists_le_of_next? run hon hafter
    cases hfirst
    exact hle

/-- There is no next flag only if all those that are on have been passed. -/
theorem le_of_next?_none (run : set.next? after? = .ok none) (m : Nat) (hon : set.isOn m = true) :
    ∃ after ∈ after?, m ≤ after := by
  by_contra hpassed
  have hafter (after : Nat) (hmem : after ∈ after?) : after < m :=
    Nat.lt_of_not_le fun hle => hpassed ⟨after, hmem, hle⟩
  obtain ⟨first, hfirst, -⟩ := exists_le_of_next? run hon hafter
  cases hfirst

/-! ## Walks -/

/-- The answer of a walk to the call that comes after so many others. -/
def Cursor.answer (walk : Cursor) : Nat → Except Fault (Option Nat)
  | 0 => return (← walk.next).1
  | calls + 1 => do
    let (_, walk) ← walk.next
    walk.answer calls

/-- A walk stays at its end. -/
theorem Cursor.answer_of_done {walk : Cursor} (hdone : walk.done = true) (calls : Nat) :
    walk.answer calls = .ok none := by
  have hnext : walk.next = .ok (none, walk) := if_pos hdone
  induction calls with
  | zero => rw [answer, hnext]; rfl
  | succ calls ih =>
    rw [answer, hnext]
    exact ih

/-- The flags that a walk has ahead of it. -/
def ahead (set : FlagSet) (last : Option Nat) : List Nat :=
  set.toList.filter fun flag => last.all (· < flag)

theorem mem_ahead_iff {last : Option Nat} : flag ∈ set.ahead last
    ↔ set.isOn flag = true ∧ ∀ after ∈ last, after < flag := by
  rw [ahead, List.mem_filter, mem_toList_iff, Option.all_eq_true]
  simp only [decide_eq_true_eq, Option.mem_def]

theorem ahead_eq_nil {last : Option Nat} (run : set.next? last = .ok none) :
    set.ahead last = [] := by
  refine List.eq_nil_iff_forall_not_mem.2 fun flag hflag => ?_
  obtain ⟨hon, hahead⟩ := mem_ahead_iff.1 hflag
  obtain ⟨after, hafter, hle⟩ := le_of_next?_none run flag hon
  exact Nat.not_lt.2 hle (hahead after hafter)

/-- The next flag is the first of those ahead. -/
theorem ahead_eq_cons {last : Option Nat} (run : set.next? last = .ok (some flag)) :
    set.ahead last = flag :: set.ahead (some flag) := by
  obtain ⟨⟨hon, hahead⟩, hleast⟩ := isLeast_of_next? run
  have hsorted (last : Option Nat) : (set.ahead last).Pairwise (· < ·) :=
    set.pairwise_toList.filter _
  refine (hsorted last).eq_of_mem_iff (List.pairwise_cons.2 ⟨fun m hm => ?_, hsorted _⟩) fun m => ?_
  · exact (mem_ahead_iff.1 hm).2 flag rfl
  · rw [List.mem_cons, mem_ahead_iff, mem_ahead_iff]
    constructor
    · rintro ⟨hon, hahead⟩
      rcases Nat.eq_or_lt_of_le (hleast ⟨hon, hahead⟩) with rfl | hlt
      · exact .inl rfl
      · exact .inr ⟨hon, by rintro _ ⟨⟩; exact hlt⟩
    · rintro (rfl | ⟨hon', hpast⟩)
      · exact ⟨hon, hahead⟩
      · exact ⟨hon', fun after hafter => Nat.lt_trans (hahead after hafter) (hpast flag rfl)⟩

/-- By induction on the calls, while the flags ahead get fewer. -/
theorem Cursor.answer_eq {walk : Cursor} (hsized : walk.set.IsSized) (hdone : walk.done = false)
    (calls : Nat) : walk.answer calls = .ok (walk.set.ahead walk.last)[calls]? := by
  induction calls generalizing walk with
  | zero =>
    obtain ⟨found, hnext⟩ := hsized.exists_next? walk.last
    rw [answer, Cursor.next_eq_ok_iff.2 (.inr ⟨hdone, hnext, rfl⟩)]
    cases found with
    | none => rw [ahead_eq_nil hnext]; rfl
    | some flag => rw [ahead_eq_cons hnext]; rfl
  | succ calls ih =>
    obtain ⟨found, hnext⟩ := hsized.exists_next? walk.last
    rw [answer, Cursor.next_eq_ok_iff.2 (.inr ⟨hdone, hnext, rfl⟩)]
    cases found with
    | none =>
      rw [ahead_eq_nil hnext]
      exact answer_of_done rfl calls
    | some flag =>
      rw [ahead_eq_cons hnext]
      exact @ih { walk with last := some flag } hsized hdone

/-- A walk names the flags that are on one after the other, and then nothing for ever. -/
theorem answer_cursor (hsized : set.IsSized) (calls : Nat) :
    set.cursor.answer calls = .ok set.toList[calls]? := by
  rw [Cursor.answer_eq hsized rfl]
  simp [ahead, cursor]

/-! ## Members and bits -/

/-- The bits of the set are those of the members, which are below its capacity. -/
structure Holds (set : FlagSet) (members : Finset Nat) : Prop where
  sized : set.IsSized
  lt_capacity : ∀ flag ∈ members, flag < set.capacity
  bit_iff : ∀ flag, set.bit flag = true ↔ flag ∈ members

theorem bit_of_isEmpty (h : set.isEmpty = true) (flag : Nat) : set.bit flag = false := by
  rw [bit]
  cases hword : set.words[flag / 64]? with
  | none => rfl
  | some word =>
    have hzero : word = 0#64 :=
      eq_of_beq (List.all_eq_true.1 h word (List.mem_of_getElem? hword))
    rw [hzero]
    exact BitVec.getLsbD_zero

theorem isEmpty_empty (capacity : Nat) : (empty capacity).isEmpty = true := by
  simp [isEmpty, empty]

theorem isEmpty_clear (set : FlagSet) : set.clear.isEmpty = true := by
  simp [isEmpty, clear]

/-- A set without bits is as if it had been cleared. -/
theorem isEmpty_iff : set.isEmpty = true ↔ ∀ flag, set.bit flag = false := by
  refine ⟨bit_of_isEmpty, fun h => ?_⟩
  have hshape : set.SameShape set.clear := ⟨rfl, (List.length_map ..).symm⟩
  have hclear : set = set.clear := hshape.eq_of_bit fun flag =>
    (h flag).trans (bit_of_isEmpty (isEmpty_clear set) flag).symm
  rw [hclear]
  exact isEmpty_clear set

theorem holds_of_isEmpty (hsized : set.IsSized) (hempty : set.isEmpty = true) : set.Holds ∅ where
  sized := hsized
  lt_capacity flag h := absurd h (Finset.notMem_empty flag)
  bit_iff flag := by simp [bit_of_isEmpty hempty]

theorem holds_empty {capacity : Nat} (h : capacity ≤ maxCapacity) : (empty capacity).Holds ∅ :=
  holds_of_isEmpty (isSized_empty h) (isEmpty_empty capacity)

namespace Holds

theorem clear (h : set.Holds members) : set.clear.Holds ∅ :=
  holds_of_isEmpty (isSized_clear h.sized) (isEmpty_clear set)

/-- A change within the capacity is made, and does to the bits what it does to the members. -/
theorem apply (h : set.Holds members) {change : Change} (hwithin : change.IsWithin set.capacity) :
    ∃ next, change.apply set = .ok next ∧ next.capacity = set.capacity
      ∧ next.Holds (change.onMembers members) := by
  cases change with
  | insert flag =>
    obtain ⟨next, run, hshape⟩ := h.sized.exists_insert hwithin
    refine ⟨next, run, hshape.capacity, isSized_of_insert h.sized run, fun m hm => ?_, fun m => ?_⟩
    · rw [hshape.capacity]
      rcases Finset.mem_union.1 hm with hm | hm
      · exact h.lt_capacity m hm
      · exact Finset.mem_singleton.1 hm ▸ hwithin
    · rw [bit_of_insert run, h.bit_iff, Change.onMembers, Finset.mem_union, Finset.mem_singleton]
  | erase flag =>
    obtain ⟨next, run, hshape⟩ := h.sized.exists_erase hwithin
    refine ⟨next, run, hshape.capacity, isSized_of_erase h.sized run, fun m hm => ?_, fun m => ?_⟩
    · rw [hshape.capacity]
      exact h.lt_capacity m (Finset.mem_of_mem_erase hm)
    · rw [bit_of_erase run, h.bit_iff, Change.onMembers, Finset.mem_erase]
  | clear => exact ⟨_, rfl, rfl, h.clear⟩

/-- By induction on the changes, each of which finds a set that holds what the ones before left. -/
theorem applyAll (h : set.Holds members) {changes : List Change}
    (hwithin : ∀ change ∈ changes, change.IsWithin set.capacity) :
    ∃ next, set.applyAll changes = .ok next ∧ next.capacity = set.capacity
      ∧ next.Holds (changes.foldl Change.onMembers members) := by
  induction changes generalizing set members with
  | nil => exact ⟨set, rfl, rfl, h⟩
  | cons change changes ih =>
    obtain ⟨next, run, hcapacity, hnext⟩ := h.apply (hwithin change List.mem_cons_self)
    have hrest (later : Change) (hmem : later ∈ changes) : later.IsWithin next.capacity :=
      hcapacity.symm ▸ hwithin later (List.mem_cons_of_mem _ hmem)
    obtain ⟨last, runs, hcapacity', hlast⟩ := ih hnext hrest
    refine ⟨last, ?_, hcapacity'.trans hcapacity, hlast⟩
    rw [FlagSet.applyAll, List.foldlM_cons, run]
    exact runs

theorem isOn_iff (h : set.Holds members) : set.isOn flag = true ↔ flag ∈ members := by
  rw [FlagSet.isOn_iff, h.bit_iff]
  exact and_iff_right_of_imp (h.lt_capacity flag)

theorem contains_eq (h : set.Holds members) (flag : Nat) :
    set.contains flag = .ok (decide (flag ∈ members)) := by
  rw [h.sized.contains_eq, Bool.eq_iff_iff.2 (h.isOn_iff.trans decide_eq_true_iff.symm)]

/-- No bit is set for what the set cannot hold. -/
theorem bit_eq_false (h : set.Holds members) (hover : set.capacity ≤ flag) :
    set.bit flag = false := by
  rw [← Bool.not_eq_true, h.bit_iff]
  exact fun hmem => Nat.not_lt.2 hover (h.lt_capacity flag hmem)

theorem isEmpty_iff (h : set.Holds members) : set.isEmpty = true ↔ members = ∅ := by
  rw [FlagSet.isEmpty_iff, Finset.eq_empty_iff_forall_notMem]
  exact forall_congr' fun flag => by rw [← Bool.not_eq_true, h.bit_iff]

/-- The next flag is the least member that comes after. -/
theorem next?_eq_some_iff (h : set.Holds members) : set.next? after? = .ok (some flag)
    ↔ IsLeast {m | m ∈ members ∧ ∀ after ∈ after?, after < m} flag := by
  have hleast {flag : Nat} (run : set.next? after? = .ok (some flag)) :
      IsLeast {m | m ∈ members ∧ ∀ after ∈ after?, after < m} flag := by
    simpa only [h.isOn_iff] using isLeast_of_next? run
  refine ⟨hleast, fun hflag => ?_⟩
  obtain ⟨found, run⟩ := h.sized.exists_next? after?
  cases found with
  | none =>
    obtain ⟨after, hafter, hle⟩ := le_of_next?_none run flag (h.isOn_iff.2 hflag.1.1)
    exact absurd (hflag.1.2 after hafter) (Nat.not_lt.2 hle)
  | some first => rw [run, (hleast run).unique hflag]

/-- There is no next flag if all members have been passed. -/
theorem next?_eq_none_iff (h : set.Holds members) : set.next? after? = .ok none
    ↔ ∀ m ∈ members, ∃ after ∈ after?, m ≤ after := by
  refine ⟨fun run m hm => le_of_next?_none run m (h.isOn_iff.2 hm), fun hpassed => ?_⟩
  obtain ⟨found, run⟩ := h.sized.exists_next? after?
  cases found with
  | none => exact run
  | some first =>
    obtain ⟨hmem, hahead⟩ := (h.next?_eq_some_iff.1 run).1
    obtain ⟨after, hafter, hle⟩ := hpassed first hmem
    exact absurd (hahead after hafter) (Nat.not_lt.2 hle)

theorem toList_eq_sort (h : set.Holds members) : set.toList = members.sort := by
  refine set.pairwise_toList.eq_of_mem_iff members.sortedLT_sort.pairwise fun flag => ?_
  rw [mem_toList_iff, h.isOn_iff, Finset.mem_sort]

/-- Sets of one capacity differ only in their members. -/
theorem eq_iff (h : set.Holds members) (h' : other.Holds others) :
    set = other ↔ set.capacity = other.capacity ∧ members = others := by
  constructor
  · rintro rfl
    refine ⟨rfl, Finset.ext fun flag => ?_⟩
    rw [← h.bit_iff, h'.bit_iff]
  · rintro ⟨hcapacity, rfl⟩
    refine (h.sized.sameShape h'.sized hcapacity).eq_of_bit fun flag => ?_
    rw [Bool.eq_iff_iff, h.bit_iff, h'.bit_iff]

end Holds

/-- Changes keep the capacity. -/
theorem capacity_of_applyAll {changes : List Change} (runs : set.applyAll changes = .ok other) :
    other.capacity = set.capacity := by
  induction changes generalizing set with
  | nil =>
    cases runs
    rfl
  | cons change changes ih =>
    rw [applyAll, List.foldlM_cons] at runs
    obtain ⟨next, run, rest⟩ := Except.bind_eq_ok_iff.1 runs
    rw [ih rest]
    cases change with
    | insert flag => exact (sameShape_of_insert run).capacity
    | erase flag => exact (sameShape_of_erase run).capacity
    | clear =>
      cases run
      rfl

/-! ## All that a set answers -/

/-- If a set has its words, then changes within the capacity are all made, and what the set says
afterwards is what the numbers say that they leave. It says nothing else: no bit is set for what is
not a number below the capacity, and two sets are equal if they have one capacity and the same
numbers. -/
theorem applyAll_exact {capacity : Nat} {changes : List Change} (hcapacity : capacity ≤ maxCapacity)
    (hwithin : ∀ change ∈ changes, change.IsWithin capacity) :
    ∃ set, (empty capacity).applyAll changes = .ok set ∧ set.capacity = capacity
      ∧ (∀ flag, set.contains flag = .ok (decide (flag ∈ membersAfter changes)))
      ∧ (∀ flag, capacity ≤ flag → set.contains flag = .ok false ∧ set.bit flag = false)
      ∧ (set.isEmpty = true ↔ membersAfter changes = ∅)
      ∧ (∀ after? flag, set.next? after? = .ok (some flag)
          ↔ IsLeast {m | m ∈ membersAfter changes ∧ ∀ after ∈ after?, after < m} flag)
      ∧ (∀ after?, set.next? after? = .ok none
          ↔ ∀ m ∈ membersAfter changes, ∃ after ∈ after?, m ≤ after)
      ∧ (∀ calls, set.cursor.answer calls = .ok (membersAfter changes).sort[calls]?)
      ∧ ∀ (capacity' : Nat) (changes' : List Change) (other : FlagSet),
          (∀ change ∈ changes', change.IsWithin capacity') →
          (empty capacity').applyAll changes' = .ok other →
          (set = other ↔ capacity = capacity' ∧ membersAfter changes = membersAfter changes') := by
  obtain ⟨set, run, hsame, h⟩ := (holds_empty hcapacity).applyAll hwithin
  have hsame : set.capacity = capacity := hsame
  refine ⟨set, run, hsame, h.contains_eq, fun flag hover => ?_, h.isEmpty_iff,
    fun after? flag => h.next?_eq_some_iff, fun after? => h.next?_eq_none_iff, fun calls => ?_,
    fun capacity' changes' other hwithin' run' => ?_⟩
  · refine ⟨if_neg (Nat.not_lt.2 (hsame ▸ hover)), h.bit_eq_false (hsame ▸ hover)⟩
  · rw [answer_cursor h.sized, h.toList_eq_sort, membersAfter]
  · have hsame' : other.capacity = capacity' := capacity_of_applyAll run'
    by_cases hone : capacity = capacity'
    · obtain ⟨next, run'', -, h'⟩ := (holds_empty (hone ▸ hcapacity)).applyAll hwithin'
      cases run'.symm.trans run''
      rw [h.eq_iff h', hsame, hsame']
      rfl
    · refine iff_of_false (fun heq => hone ?_) fun hboth => hone hboth.1
      rw [← hsame, heq, hsame']

/-- The last flag of a set of 130 comes after 64 and is the last one that a walk names, and the
greatest number of 64 bits has nothing after it. -/
theorem applyAll_exact_last :
    let changes : List Change := [.insert 129, .insert 64, .insert 3, .erase 3, .insert 64]
    130 ≤ maxCapacity ∧ (∀ change ∈ changes, change.IsWithin 130)
      ∧ ∃ set, (empty 130).applyAll changes = .ok set ∧ set.next? (some 64) = .ok (some 129)
        ∧ set.next? (some 18446744073709551615) = .ok none ∧ set.cursor.answer 1 = .ok (some 129)
        ∧ set.cursor.answer 2 = .ok none ∧ set.contains 3 = .ok false := by
  intro changes
  have hcapacity : 130 ≤ maxCapacity := by decide
  have hwithin : ∀ change ∈ changes, change.IsWithin 130 := by decide
  have hmembers : membersAfter changes = {64, 129} := by decide
  obtain ⟨set, run, -, hcontains, -, -, hsome, hnone, hanswer, -⟩ :=
    applyAll_exact hcapacity hwithin
  rw [hmembers] at hcontains hsome hnone hanswer
  have hsort : Finset.sort ({64, 129} : Finset Nat) = [64, 129] := by
    rw [Finset.sort_insert _ (by decide) (by decide), Finset.sort_singleton]
  rw [hsort] at hanswer
  refine ⟨hcapacity, hwithin, set, run, (hsome _ _).2 ⟨?_, fun m hm => ?_⟩,
    (hnone _).2 fun m hm => ?_, hanswer 1, hanswer 2, hcontains 3⟩
  · exact ⟨by decide, by rintro _ ⟨⟩; decide⟩
  · have hpast := hm.2 64 rfl
    have hin : m = 64 ∨ m = 129 := by simpa using hm.1
    omega
  · have hin : m = 64 ∨ m = 129 := by simpa using hm
    exact ⟨_, rfl, by omega⟩

/-! ## Sets without words -/

/-- A set of more than that, up to what a number of 64 bits can say, has no words: whatever is
looked up in it or changed is out of bounds. -/
theorem wordless_of_lt {capacity flag : Nat} (hover : maxCapacity < capacity)
    (hcapacity : capacity < 1 <<< 64) (hflag : flag < capacity) :
    (empty capacity).contains flag = .error (.outOfBounds (flag / 64) 0)
      ∧ (empty capacity).insert flag = .error (.outOfBounds (flag / 64) 0)
      ∧ (empty capacity).erase flag = .error (.outOfBounds (flag / 64) 0)
      ∧ (empty capacity).nextFrom? flag = .error (.outOfBounds (flag / 64) 0) := by
  have hcount : wordCount capacity = 0 := by
    simp only [maxCapacity, Nat.reduceShiftLeft, Nat.reduceSub] at hover hcapacity
    simp only [wordCount, Nat.reduceShiftLeft]
    omega
  have hwords : (empty capacity).words = [] := by rw [empty, hcount, List.replicate_zero]
  have hbelow : flag < (empty capacity).capacity := hflag
  simp [contains, insert, erase, changeWord, nextFrom?, wordsFrom, elementAt, hwords, hbelow,
    Nat.not_le.2 hbelow, bind, Except.bind]

/-- The set for every number below the greatest of 64 bits does not know whether 0 is in it, and a
walk over it does not come to its end. -/
theorem exists_set_without_words :
    (empty 18446744073709551615).applyAll [] = .ok (empty 18446744073709551615)
      ∧ (empty 18446744073709551615).contains 0 = .error (.outOfBounds 0 0)
      ∧ (empty 18446744073709551615).next? none = .error (.outOfBounds 0 0)
      ∧ (empty 18446744073709551615).cursor.answer 0 = .error (.outOfBounds 0 0) :=
  ⟨rfl, rfl, rfl, rfl⟩

end FlagSet

end Multimatch
