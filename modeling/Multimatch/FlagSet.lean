import Multimatch.Fault

/-!
# Flag sets

A flag set holds some of the numbers below its capacity, one bit for each, in words of 64 bits. The
bits at and above the capacity are clear, so that two sets of one capacity are equal exactly when
they have the same members. Members come out in ascending order: `next?` finds the first one after a
given number, and a `Cursor` asks it again and again.

How many words there are is computed in 64 bits. So a set of more than `maxCapacity` has none, and
faults wherever it looks for the word of a flag.
-/

namespace Multimatch

/-- A set of flags below `capacity`. -/
structure FlagSet where
  capacity : Nat
  words : List (BitVec 64)
deriving DecidableEq, Repr

namespace FlagSet

/-- The largest capacity that has its words: rounding up has to stay within 64 bits. -/
def maxCapacity : Nat := (1 <<< 64) - 64

/-- The number of words for a capacity. -/
def wordCount (capacity : Nat) : Nat := (capacity + 63) % (1 <<< 64) / 64

def empty (capacity : Nat) : FlagSet :=
  ⟨capacity, List.replicate (wordCount capacity) 0#64⟩

/-- Whether a flag is on. What is not below the capacity never is. -/
def contains (set : FlagSet) (flag : Nat) : Except Fault Bool :=
  if flag < set.capacity then do
    let word ← elementAt set.words (flag / 64)
    return word.getLsbD (flag % 64)
  else .ok false

/-- The set with the word of a flag changed. -/
def changeWord (set : FlagSet) (flag : Nat) (change : BitVec 64 → BitVec 64) :
    Except Fault FlagSet :=
  if flag < set.capacity then do
    let word ← elementAt set.words (flag / 64)
    return { set with words := set.words.set (flag / 64) (change word) }
  else .error (.flagOutside flag set.capacity)

def insert (set : FlagSet) (flag : Nat) : Except Fault FlagSet :=
  set.changeWord flag (· ||| BitVec.twoPow 64 (flag % 64))

def erase (set : FlagSet) (flag : Nat) : Except Fault FlagSet :=
  set.changeWord flag (· &&& ~~~BitVec.twoPow 64 (flag % 64))

def clear (set : FlagSet) : FlagSet :=
  { set with words := set.words.map fun _ => 0#64 }

def isEmpty (set : FlagSet) : Bool := set.words.all (· == 0#64)

def lowestBit? (word : BitVec 64) : Option Nat := (List.range 64).find? word.getLsbD

/-- The lowest bit that is set in a row of words of which the first is number `index`. -/
def lowestFlag? (index : Nat) : List (BitVec 64) → Option Nat
  | [] => none
  | word :: words =>
    match lowestBit? word with
    | some bit => some (index * 64 + bit)
    | none => lowestFlag? (index + 1) words

/-- The words from that of a flag on, without the bits before the flag. -/
def wordsFrom (set : FlagSet) (start : Nat) : Except Fault (List (BitVec 64)) := do
  let word ← elementAt set.words (start / 64)
  return (word &&& (BitVec.allOnes 64 <<< (start % 64))) :: set.words.drop (start / 64 + 1)

def nextFrom? (set : FlagSet) (start : Nat) : Except Fault (Option Nat) :=
  if set.capacity ≤ start then .ok none
  else do
    let words ← set.wordsFrom start
    return (lowestFlag? (start / 64) words).filter (· < set.capacity)

/-- The least member above `after`, or the least of all. -/
def next? (set : FlagSet) : Option Nat → Except Fault (Option Nat)
  | none => set.nextFrom? 0
  | some after => set.nextFrom? (after + 1)

/-- A walk over the members, in ascending order. It stays at its end once it got there. -/
structure Cursor where
  set : FlagSet
  last : Option Nat
  done : Bool
deriving Repr

def cursor (set : FlagSet) : Cursor := ⟨set, none, false⟩

/-- The next member of a walk, and the walk after it. -/
def Cursor.next (walk : Cursor) : Except Fault (Option Nat × Cursor) :=
  if walk.done then .ok (none, walk)
  else do
    match ← walk.set.next? walk.last with
    | none => return (none, { walk with done := true })
    | some flag => return (some flag, { walk with last := some flag })

/-- The members that a walk still has, at most `count` of them, and the walk after them. -/
def Cursor.take : Nat → Cursor → Except Fault (List Nat × Cursor)
  | 0, walk => return ([], walk)
  | count + 1, walk => do
    match ← walk.next with
    | (none, walk) => return ([], walk)
    | (some flag, walk) =>
      let (flags, walk) ← Cursor.take count walk
      return (flag :: flags, walk)

/-- Every member, in ascending order. One call more than there can be members ends the walk. -/
def members (set : FlagSet) : Except Fault (List Nat) := do
  let (flags, _) ← set.cursor.take (set.capacity + 1)
  return flags

def text (set : FlagSet) : Except Fault String := do
  let flags ← set.members
  return "\x7b" ++ ", ".intercalate (flags.map toString) ++ "\x7d"

/-! ## Which flags are on -/

/-- The bit of a flag is set, in a word that is there, be the flag below the capacity or not. -/
def bit (set : FlagSet) (flag : Nat) : Bool :=
  (set.words[flag / 64]?).any (·.getLsbD (flag % 64))

/-- The flag is below the capacity and its bit is set. -/
def isOn (set : FlagSet) (flag : Nat) : Bool := decide (flag < set.capacity) && set.bit flag

theorem isOn_iff {set : FlagSet} {flag : Nat} :
    set.isOn flag = true ↔ flag < set.capacity ∧ set.bit flag = true := by
  rw [isOn, Bool.and_eq_true, decide_eq_true_eq]

theorem isOn_clear (set : FlagSet) (flag : Nat) : set.clear.isOn flag = false := by
  rw [isOn, bit, clear, List.getElem?_map]
  cases set.words[flag / 64]? <;> simp

theorem isOn_empty (capacity flag : Nat) : (empty capacity).isOn flag = false := by
  by_cases inside : flag / 64 < wordCount capacity <;> simp [isOn, bit, empty, inside]

/-- An answer to whether a flag is on is right. -/
theorem isOn_of_contains {set : FlagSet} {flag : Nat} {on : Bool}
    (run : set.contains flag = .ok on) : set.isOn flag = on := by
  unfold contains at run
  by_cases below : flag < set.capacity
  · rw [if_pos below] at run
    obtain ⟨word, hword, hon⟩ := Except.bind_eq_ok_iff.1 run
    cases hon
    simp [isOn, bit, below, elementAt_eq_ok_iff.1 hword]
  · rw [if_neg below] at run
    cases run
    simp [isOn, below]

/-- Only the word of a flag below the capacity can be changed, if it is there. -/
theorem changeWord_eq_ok_iff {set next : FlagSet} {flag : Nat} {change : BitVec 64 → BitVec 64} :
    set.changeWord flag change = .ok next ↔ flag < set.capacity
      ∧ ∃ word, set.words[flag / 64]? = some word
        ∧ next = { set with words := set.words.set (flag / 64) (change word) } := by
  unfold changeWord
  by_cases below : flag < set.capacity
  · rw [if_pos below, and_iff_right below]
    refine Except.bind_eq_ok_iff.trans (exists_congr fun word => ?_)
    rw [elementAt_eq_ok_iff]
    simp only [pure, Except.pure, Except.ok.injEq, eq_comm]
  · simp [below]

/-! ## Sets that have their words -/

/-- There is a word for every flag below the capacity, and none to spare. -/
def IsSized (set : FlagSet) : Prop := set.words.length = (set.capacity + 63) / 64

theorem isSized_empty_iff {capacity : Nat} : (empty capacity).IsSized ↔ capacity ≤ maxCapacity := by
  simp only [IsSized, empty, List.length_replicate, wordCount, maxCapacity, Nat.reduceShiftLeft,
    Nat.reduceSub]
  omega

theorem isSized_empty {capacity : Nat} (h : capacity ≤ maxCapacity) : (empty capacity).IsSized :=
  isSized_empty_iff.2 h

theorem isSized_clear {set : FlagSet} (sized : set.IsSized) : set.clear.IsSized := by
  simpa [IsSized, clear] using sized

theorem isSized_of_changeWord {set next : FlagSet} {flag : Nat} {change : BitVec 64 → BitVec 64}
    (sized : set.IsSized) (run : set.changeWord flag change = .ok next) : next.IsSized := by
  obtain ⟨-, word, -, rfl⟩ := changeWord_eq_ok_iff.1 run
  simpa [IsSized] using sized

theorem isSized_of_insert {set next : FlagSet} {flag : Nat} (sized : set.IsSized)
    (run : set.insert flag = .ok next) : next.IsSized := isSized_of_changeWord sized run

theorem isSized_of_erase {set next : FlagSet} {flag : Nat} (sized : set.IsSized)
    (run : set.erase flag = .ok next) : next.IsSized := isSized_of_changeWord sized run

namespace IsSized

variable {set : FlagSet} {flag : Nat} (sized : set.IsSized)
include sized

theorem exists_word (below : flag < set.capacity) : ∃ word, set.words[flag / 64]? = some word := by
  unfold IsSized at sized
  exact ⟨_, List.getElem?_eq_getElem (by omega)⟩

theorem contains_eq (flag : Nat) : set.contains flag = .ok (set.isOn flag) := by
  unfold contains
  by_cases below : flag < set.capacity
  · obtain ⟨word, hword⟩ := sized.exists_word below
    rw [if_pos below, isOn, bit, hword, decide_eq_true below, Bool.true_and, Option.any_some]
    exact Except.bind_eq_ok_iff.2 ⟨word, elementAt_eq_ok_iff.2 hword, rfl⟩
  · rw [if_neg below, isOn, decide_eq_false below, Bool.false_and]

end IsSized

end FlagSet

end Multimatch
