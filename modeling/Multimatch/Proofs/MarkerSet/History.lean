import Mathlib.Data.List.DropRight
import Multimatch.Proofs.MarkerSet

/-!
# Marker sets after any calls

A marker set is a list without repetition, in the order of insertion, whatever earlier members have
left in its arrays (`MarkerSet.replay_exact`). Calls are followed as they go in memory, where an
entry has 32 bits and what was written before a fault stays (`MarkerSet.insertInPlace`): an
insertion writes nothing before it has been found possible, so that a refused one leaves the set as
it was (`MarkerSet.IsSound.insertInPlace_eq`).
-/

namespace Multimatch

namespace MarkerSet

variable {set next : MarkerSet} {value : Nat}

/-! ## Insertion in memory -/

/-- A number as an entry keeps it, in 32 bits. -/
def entryOf (value : Nat) : Nat := value % 4294967296

def writeDense (place value : Nat) : EStateM Fault MarkerSet Unit := fun set =>
  if place < set.dense.size then
    .ok () { set with
      dense := set.dense.setIfInBounds place (entryOf value)
      count_le := Nat.le_trans set.count_le (Nat.le_of_eq Array.size_setIfInBounds.symm) }
  else .error (.outOfBounds place set.dense.size) set

def writeSparse (place value : Nat) : EStateM Fault MarkerSet Unit := fun set =>
  if place < set.sparse.size then
    .ok () { set with sparse := set.sparse.setIfInBounds place (entryOf value) }
  else .error (.outOfBounds place set.sparse.size) set

/-- Makes the next place of `dense`, which has to exist, count. -/
def grow : EStateM Fault MarkerSet Unit := fun set =>
  if room : set.count < set.dense.size then
    .ok () { set with count := set.count + 1, count_le := room }
  else .error (.outOfBounds set.count set.dense.size) set

/-- Insertion write by write. -/
def insertInPlace (value : Nat) : EStateM Fault MarkerSet Bool := do
  let set ← get
  if set.contains value then
    return false
  if set.capacity ≤ value then
    throw (.valueOverCapacity value set.capacity)
  writeDense set.count value
  writeSparse value set.count
  grow
  return true

theorem entryOf_eq (h : value ≤ maxCapacity) : entryOf value = value :=
  Nat.mod_eq_of_lt (Nat.lt_succ_of_le h)

theorem insertInPlace_apply (value : Nat) (set : MarkerSet) : insertInPlace value set
    = (if set.contains value then
        pure false
      else if set.capacity ≤ value then
        throw (.valueOverCapacity value set.capacity)
      else do
        writeDense set.count value
        writeSparse value set.count
        grow
        return true : EStateM Fault MarkerSet Bool) set := rfl

theorem insertInPlace_of_contains (h : set.contains value = true) :
    insertInPlace value set = .ok false set := by
  rw [insertInPlace_apply, if_pos h]
  rfl

theorem insertInPlace_of_over (hnew : ¬set.contains value = true) (hover : set.capacity ≤ value) :
    insertInPlace value set = .error (.valueOverCapacity value set.capacity) set := by
  rw [insertInPlace_apply, if_neg hnew, if_pos hover]
  rfl

namespace IsSound

/-- In a set of entries that 32 bits can address an insertion writes what it says that it does. One
that is refused has not written anything. -/
theorem insertInPlace_eq (h : set.IsSound) (haddressable : set.capacity ≤ maxCapacity) :
    insertInPlace value set = match set.insert value with
      | .ok (fresh, next) => .ok fresh next
      | .error fault => .error fault set := by
  by_cases hin : set.contains value = true
  · rw [insertInPlace_of_contains hin, insert, if_pos hin]
  by_cases hover : set.capacity ≤ value
  · rw [insertInPlace_of_over hin hover, insert, if_neg hin, if_pos hover]
  have hvalue : value < set.capacity := Nat.lt_of_not_le hover
  have hroom : set.count < set.dense.size := h.count_lt hvalue (Bool.eq_false_iff.2 hin)
  have hsparse : value < set.sparse.size := h.sparse_size.symm ▸ hvalue
  have hentry : entryOf value = value := entryOf_eq (by omega)
  have hplace : entryOf set.count = set.count :=
    entryOf_eq (Nat.le_trans (Nat.le_of_lt hroom) haddressable)
  rw [insertInPlace_apply, if_neg hin, if_neg hover, insert, if_neg hin, if_neg hover,
    dif_pos hroom, if_pos hsparse]
  simp [bind, EStateM.bind, pure, EStateM.pure, writeDense, writeSparse, grow, hroom, hsparse,
    hentry, hplace, Array.setIfInBounds]

end IsSound

/-! ## Listings -/

/-- What a marker set stands for: the numbers below a capacity that are listed, in their order. -/
structure Listing where
  capacity : Nat
  members : List Nat
deriving DecidableEq, Repr

namespace Listing

variable {listing : Listing} {given : Nat}

/-- A number below the capacity is listed once, after those before it. -/
def insert (listing : Listing) (value : Nat) : Listing :=
  if value ∈ listing.members ∨ listing.capacity ≤ value then listing
  else { listing with members := listing.members ++ [value] }

theorem capacity_insert (listing : Listing) (value : Nat) :
    (listing.insert value).capacity = listing.capacity := by
  unfold insert
  split <;> rfl

theorem mem_insert_iff : value ∈ (listing.insert given).members
    ↔ value ∈ listing.members ∨ value = given ∧ value < listing.capacity := by
  unfold insert
  split
  · next hkept =>
    refine ⟨.inl, ?_⟩
    rintro (hmem | ⟨rfl, hlt⟩)
    · exact hmem
    · exact hkept.resolve_right (Nat.not_le.2 hlt)
  · next hlisted =>
    have hlt : given < listing.capacity := Nat.lt_of_not_le fun hle => hlisted (.inr hle)
    rw [List.mem_append, List.mem_singleton]
    refine or_congr_right ⟨?_, And.left⟩
    rintro rfl
    exact ⟨rfl, hlt⟩

end Listing

/-- A call that changes a marker set. -/
inductive Call where
  | insert (value : Nat)
  | clear
  | resize (capacity : Nat)
deriving DecidableEq, Repr

namespace Call

def isInsertion : Call → Bool
  | .insert _ => true
  | .clear | .resize _ => false

/-- Entries can address what the call makes of the set. -/
def IsAddressable : Call → Prop
  | .resize capacity => capacity ≤ maxCapacity
  | .insert _ | .clear => True

instance (call : Call) : Decidable call.IsAddressable :=
  match call with
  | .resize _ => inferInstanceAs (Decidable (_ ≤ _))
  | .insert _ | .clear => .isTrue trivial

/-- The set that a call leaves behind, be it refused or not. -/
def apply (set : MarkerSet) : Call → MarkerSet
  | .insert value =>
    match insertInPlace value set with
    | .ok _ next | .error _ next => next
  | .clear => set.clear
  | .resize capacity =>
    match set.resize capacity with
    | .ok next => next
    | .error _ => set

/-- What a call makes of a listing. -/
def onListing (listing : Listing) : Call → Listing
  | .insert value => listing.insert value
  | .clear => { listing with members := [] }
  | .resize capacity => ⟨capacity, []⟩

end Call

/-- One call after the other. -/
def replay (set : MarkerSet) (calls : List Call) : MarkerSet := calls.foldl Call.apply set

/-- What is listed after some calls on a set that had no members. -/
def listingAfter (capacity : Nat) (calls : List Call) : Listing :=
  calls.foldl Call.onListing ⟨capacity, []⟩

theorem listingAfter_concat (capacity : Nat) (calls : List Call) (call : Call) :
    listingAfter capacity (calls ++ [call]) = call.onListing (listingAfter capacity calls) :=
  List.foldl_concat ..

/-- What is listed are the numbers below the capacity of the insertions after the last call of
another kind. By induction on the calls, the last one first. -/
theorem mem_listingAfter_iff {capacity : Nat} {calls : List Call} :
    value ∈ (listingAfter capacity calls).members
      ↔ value < (listingAfter capacity calls).capacity
        ∧ Call.insert value ∈ calls.rtakeWhile Call.isInsertion := by
  induction calls using List.reverseRecOn with
  | nil => simp [listingAfter]
  | append_singleton calls call ih =>
    rw [listingAfter_concat, List.rtakeWhile_concat]
    generalize listingAfter capacity calls = listing at ih
    cases call with
    | insert given =>
      rw [Call.onListing, Listing.capacity_insert, Listing.mem_insert_iff, ih, Call.isInsertion,
        if_pos rfl, List.mem_append, List.mem_singleton, Call.insert.injEq, and_or_left,
        and_comm (a := value = given)]
    | clear => simp [Call.onListing, Call.isInsertion]
    | resize capacity => simp [Call.onListing, Call.isInsertion]

/-- The set has the capacity of the listing and its members, in their order. -/
structure Holds (set : MarkerSet) (listing : Listing) : Prop where
  sound : set.IsSound
  addressable : set.capacity ≤ maxCapacity
  capacity : set.capacity = listing.capacity
  members : set.members = listing.members

theorem holds_of_resize {capacity : Nat} (run : set.resize capacity = .ok next)
    (haddressable : capacity ≤ maxCapacity) : next.Holds ⟨capacity, []⟩ where
  sound := isSound_of_resize run
  addressable := capacity_of_resize run ▸ haddressable
  capacity := capacity_of_resize run
  members := members_of_resize run

namespace Holds

variable {listing : Listing}

/-- A call does to the set what it does to the listing. -/
theorem apply (h : set.Holds listing) {call : Call} (haddressable : call.IsAddressable) :
    (call.apply set).Holds (call.onListing listing) := by
  cases call with
  | insert value =>
    have hmem : value ∈ listing.members ↔ set.contains value = true := by
      rw [h.sound.contains_iff_mem, h.members]
    rw [Call.apply, Call.onListing, Listing.insert, ← h.capacity]
    by_cases hin : set.contains value = true
    · rw [insertInPlace_of_contains hin, if_pos (.inl (hmem.2 hin))]
      exact h
    by_cases hover : set.capacity ≤ value
    · rw [insertInPlace_of_over hin hover, if_pos (.inr hover)]
      exact h
    obtain ⟨fresh, next, run, hsound, hcapacity⟩ :=
      h.sound.insert_eq_ok (Nat.lt_of_not_le hover)
    have hfresh : fresh = true := by
      rw [fresh_of_insert run, Bool.eq_false_iff.2 hin, Bool.not_false]
    subst hfresh
    rw [h.sound.insertInPlace_eq h.addressable, run,
      if_neg (not_or.2 ⟨fun hlisted => hin (hmem.1 hlisted), hover⟩)]
    exact ⟨hsound, hcapacity ▸ h.addressable, hcapacity,
      by rw [IsSound.members_of_insert run, h.members]⟩
  | clear => exact ⟨h.sound.clear, h.addressable, h.capacity, members_clear set⟩
  | resize capacity =>
    have run : set.resize capacity = .ok _ := if_pos haddressable
    rw [Call.apply, run]
    exact holds_of_resize run haddressable

/-- By induction on the calls. -/
theorem replay (h : set.Holds listing) {calls : List Call}
    (haddressable : ∀ call ∈ calls, call.IsAddressable) :
    (set.replay calls).Holds (calls.foldl Call.onListing listing) := by
  induction calls generalizing set listing with
  | nil => exact h
  | cons call calls ih =>
    exact ih (h.apply (haddressable call List.mem_cons_self))
      fun later hlater => haddressable later (List.mem_cons_of_mem _ hlater)

end Holds

/-! ## All that a set answers -/

/-- Whatever is inserted, cleared and resized, the set answers as the listing says: it has the
numbers that were inserted since it was last cleared or resized, in this order and each of them
once. A number below the capacity can be inserted at any time. Any other one is refused, and the set
is as it was. -/
theorem replay_exact {capacity : Nat} (hcapacity : capacity ≤ maxCapacity) {calls : List Call}
    (haddressable : ∀ call ∈ calls, call.IsAddressable) :
    ∃ first set, empty capacity = .ok first ∧ set = first.replay calls
      ∧ set.capacity = (listingAfter capacity calls).capacity
      ∧ (∀ value, set.contains value = true ↔ value < set.capacity
          ∧ Call.insert value ∈ calls.rtakeWhile Call.isInsertion)
      ∧ (∀ value < set.capacity, ∃ next,
          set.insert value = .ok (!set.contains value, next)
            ∧ insertInPlace value set = .ok (!set.contains value) next)
      ∧ (∀ value, set.capacity ≤ value → set.contains value = false
          ∧ set.insert value = .error (.valueOverCapacity value set.capacity)
          ∧ insertInPlace value set = .error (.valueOverCapacity value set.capacity) set)
      ∧ set.count = (listingAfter capacity calls).members.length
      ∧ set.members = (listingAfter capacity calls).members ∧ set.members.Nodup := by
  have run : empty capacity = .ok _ := if_pos hcapacity
  have h := (holds_of_resize run hcapacity).replay haddressable
  refine ⟨_, _, run, rfl, h.capacity, fun value => ?_, fun value hvalue => ?_,
    fun value hover => ?_, ?_, h.members, h.sound.nodup_members⟩
  · rw [h.sound.contains_iff_mem, h.members, h.capacity]
    exact mem_listingAfter_iff
  · obtain ⟨fresh, next, run, -⟩ := h.sound.insert_eq_ok hvalue
    rw [fresh_of_insert run] at run
    exact ⟨next, run, by rw [h.sound.insertInPlace_eq h.addressable, run]⟩
  · have hnew : ¬(replay _ calls).contains value = true := fun hin =>
      Nat.not_lt.2 hover (h.sound.lt_capacity_of_contains hin)
    refine ⟨Bool.eq_false_iff.2 hnew, ?_, insertInPlace_of_over hnew hover⟩
    rw [insert, if_neg hnew, if_pos hover]
  · rw [← length_members, h.members]
    rfl

/-- What the set had before it was cleared and then made smaller and larger again is still in its
arrays, and it has none of it. -/
theorem replay_exact_stale :
    let calls : List Call := [.insert 3, .insert 0, .clear, .insert 2, .resize 1, .insert 3,
      .resize 4, .insert 2, .insert 0, .insert 7, .insert 2]
    4 ≤ maxCapacity ∧ (∀ call ∈ calls, call.IsAddressable)
      ∧ ∃ first set, empty 4 = .ok first ∧ set = first.replay calls ∧ set.members = [2, 0]
        ∧ set.contains 3 = false ∧ (∃ next, insertInPlace 3 set = .ok true next)
        ∧ insertInPlace 7 set = .error (.valueOverCapacity 7 4) set := by
  intro calls
  have hcapacity : 4 ≤ maxCapacity := by decide
  have haddressable : ∀ call ∈ calls, call.IsAddressable := by decide
  have hlisting : listingAfter 4 calls = ⟨4, [2, 0]⟩ := by decide
  obtain ⟨first, set, run, hset, hsize, hcontains, hinsert, hrefused, -, hmembers, -⟩ :=
    replay_exact hcapacity haddressable
  rw [hlisting] at hsize hmembers
  have hsize : set.capacity = 4 := hsize
  have hnew : set.contains 3 = false := by
    rw [← Bool.not_eq_true, hcontains, hsize]
    decide
  obtain ⟨next, -, hnext⟩ := hinsert 3 (hsize.symm ▸ by decide)
  rw [hnew] at hnext
  have hseven := (hrefused 7 (hsize.symm ▸ by decide)).2.2
  rw [hsize] at hseven
  exact ⟨hcapacity, haddressable, first, set, run, hset, hmembers, hnew, ⟨next, hnext⟩, hseven⟩

end MarkerSet

end Multimatch
