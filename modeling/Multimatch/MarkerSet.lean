import Multimatch.Fault

/-!
# Marker sets

A marker set holds numbers below its capacity and forgets them all in one step: `clear` only resets
the count. `dense` lists the members in the order of their insertion, in its first `count` places,
and `sparse` says for each number where in `dense` it would be. Both keep what earlier members left
behind, so an entry of `sparse` counts only if `dense` points back at it.
-/

namespace Multimatch

/-- A set of numbers with constant time clearing. -/
structure MarkerSet where
  count : Nat
  dense : Array Nat
  sparse : Array Nat
  count_le : count ≤ dense.size
deriving DecidableEq

namespace MarkerSet

/-- The largest capacity: an entry has 32 bits. -/
def maxCapacity : Nat := 4294967295

/-- An array of the given size that begins like the given one and goes on with zeros. -/
def fit (entries : Array Nat) (size : Nat) : Array Nat :=
  entries.extract 0 size ++ Array.replicate (size - entries.size) 0

def clear (set : MarkerSet) : MarkerSet :=
  { set with count := 0, count_le := Nat.zero_le _ }

/-- The set without members, for another capacity. Entries that fit stay in memory. -/
def resize (set : MarkerSet) (capacity : Nat) : Except Fault MarkerSet :=
  if capacity ≤ maxCapacity then
    .ok ⟨0, fit set.dense capacity, fit set.sparse capacity, Nat.zero_le _⟩
  else .error (.capacityTooBig capacity)

def empty (capacity : Nat) : Except Fault MarkerSet :=
  resize ⟨0, #[], #[], Nat.zero_le _⟩ capacity

/-- Members are less than this. -/
def capacity (set : MarkerSet) : Nat := set.dense.size

def contains (set : MarkerSet) (value : Nat) : Bool :=
  match set.sparse[value]? with
  | none => false
  | some place =>
    if inside : place < set.count then
      have bound : place < set.dense.size := Nat.lt_of_lt_of_le inside set.count_le
      set.dense[place] == value
    else false

/-- Adds a number; the answer says whether it was new. -/
def insert (set : MarkerSet) (value : Nat) : Except Fault (Bool × MarkerSet) :=
  if set.contains value then .ok (false, set)
  else if set.capacity ≤ value then .error (.valueOverCapacity value set.capacity)
  else if room : set.count < set.dense.size then
    if value < set.sparse.size then
      .ok (true,
        { count := set.count + 1
          dense := set.dense.set set.count value
          sparse := set.sparse.setIfInBounds value set.count
          count_le := Nat.le_trans room (Nat.le_of_eq (Array.size_set room).symm) })
    else .error (.outOfBounds value set.sparse.size)
  else .error (.outOfBounds set.count set.dense.size)

/-- The members in the order of their insertion. -/
def members (set : MarkerSet) : List Nat := (set.dense.extract 0 set.count).toList

/-- The bytes of both arrays, at four to an entry. -/
def memory (set : MarkerSet) : Nat := 2 * set.dense.size * 4

/-- The members in the order of their insertion, in brackets. -/
def text (set : MarkerSet) : String :=
  "SparseSet([" ++ ", ".intercalate (set.members.map toString) ++ "])"

theorem contains_clear (set : MarkerSet) (value : Nat) : set.clear.contains value = false := by
  unfold contains clear
  split <;> simp

theorem members_clear (set : MarkerSet) : set.clear.members = [] := by
  simp [members, clear]

theorem size_fit (entries : Array Nat) (size : Nat) : (fit entries size).size = size := by
  simp only [fit, Array.size_append, Array.size_extract, Array.size_replicate]
  omega

theorem capacity_of_resize {set next : MarkerSet} {capacity : Nat}
    (run : set.resize capacity = .ok next) : next.capacity = capacity := by
  unfold resize at run
  split at run
  · cases run
    exact size_fit _ _
  · cases run

theorem members_of_resize {set next : MarkerSet} {capacity : Nat}
    (run : set.resize capacity = .ok next) : next.members = [] := by
  unfold resize at run
  split at run
  · cases run
    simp [members]
  · cases run

theorem length_members (set : MarkerSet) : set.members.length = set.count := by
  have := set.count_le
  simp only [members, Array.length_toList, Array.size_extract]
  omega

end MarkerSet

end Multimatch
