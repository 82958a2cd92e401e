import Mathlib.Data.List.Perm.Subperm
import Multimatch.MarkerSet

/-!
# Marker sets have room

The entries that count point at each other (`MarkerSet.IsSound`), so that no number is in `dense`
twice. A set that does not hold a number below its capacity is therefore not full, and inserting
the number always succeeds (`MarkerSet.IsSound.insert_eq_ok`). What an insertion can do is said once
(`MarkerSet.insert_cases`).
-/

namespace Multimatch

namespace MarkerSet

/-- Every place that counts holds a number below the capacity, and `sparse` points back at it. -/
structure IsSound (set : MarkerSet) : Prop where
  sparse_size : set.sparse.size = set.capacity
  lt_capacity : ∀ {place value}, place < set.count → set.dense[place]? = some value →
    value < set.capacity
  sparse_eq : ∀ {place value}, place < set.count → set.dense[place]? = some value →
    set.sparse[value]? = some place

theorem isSound_of_count_eq_zero {set : MarkerSet} (hsize : set.sparse.size = set.capacity)
    (hcount : set.count = 0) : set.IsSound :=
  ⟨hsize, fun h => absurd h (by omega), fun h => absurd h (by omega)⟩

theorem isSound_of_resize {set next : MarkerSet} {capacity : Nat}
    (run : set.resize capacity = .ok next) : next.IsSound := by
  unfold resize at run
  split at run
  · cases run
    refine isSound_of_count_eq_zero ?_ rfl
    rw [MarkerSet.capacity, size_fit, size_fit]
  · cases run

/-- What an insertion can do: the number is there already, or it is below the capacity, and there is
a place for it. -/
theorem insert_cases {set next : MarkerSet} {value : Nat} {fresh : Bool}
    (run : set.insert value = .ok (fresh, next)) :
    (set.contains value = true ∧ fresh = false ∧ next = set)
      ∨ (set.contains value = false ∧ fresh = true ∧ value < set.capacity
        ∧ set.count < set.dense.size ∧ value < set.sparse.size
        ∧ next.count = set.count + 1 ∧ next.dense = set.dense.setIfInBounds set.count value
        ∧ next.sparse = set.sparse.setIfInBounds value set.count) := by
  unfold insert at run
  split at run
  · next hin =>
    cases run
    exact .inl ⟨hin, rfl, rfl⟩
  split at run
  · cases run
  split at run
  · next hnew hover hroom =>
    split at run
    · next hsparse =>
      cases run
      exact .inr ⟨Bool.eq_false_iff.2 hnew, rfl, Nat.lt_of_not_le hover, hroom, hsparse, rfl,
        (Array.setIfInBounds_def ..).trans (dif_pos hroom) |>.symm, rfl⟩
    · cases run
  · cases run

/-- An insertion says whether the number was new. -/
theorem fresh_of_insert {set next : MarkerSet} {value : Nat} {fresh : Bool}
    (run : set.insert value = .ok (fresh, next)) : fresh = !set.contains value := by
  rcases insert_cases run with ⟨hin, rfl, -⟩ | ⟨hnew, rfl, -⟩
  · rw [hin, Bool.not_true]
  · rw [hnew, Bool.not_false]

namespace IsSound

variable {set : MarkerSet} (h : set.IsSound)
include h

theorem clear : set.clear.IsSound :=
  isSound_of_count_eq_zero h.sparse_size rfl

theorem contains_iff {value : Nat} :
    set.contains value = true ↔ ∃ place < set.count, set.dense[place]? = some value := by
  have hle := set.count_le
  unfold contains
  constructor
  · intro hin
    split at hin
    · cases hin
    · next place _ =>
      split at hin
      · next hlt => exact ⟨place, hlt, by simpa [Nat.lt_of_lt_of_le hlt hle] using hin⟩
      · cases hin
  · rintro ⟨place, hlt, hdense⟩
    have hsize : place < set.dense.size := Nat.lt_of_lt_of_le hlt hle
    have hget : set.dense[place] = value := (Array.getElem?_eq_some_iff.1 hdense).2
    simp [h.sparse_eq hlt hdense, hlt, hget]

omit h in
theorem getElem?_members {place : Nat} :
    set.members[place]? = if place < set.count then set.dense[place]? else none := by
  have hle := set.count_le
  simp only [members, Array.getElem?_toList, Array.getElem?_extract, Nat.zero_add, Nat.sub_zero,
    Nat.min_eq_left hle]

omit h in
theorem mem_members_iff {value : Nat} :
    value ∈ set.members ↔ ∃ place < set.count, set.dense[place]? = some value := by
  rw [List.mem_iff_getElem?]
  constructor
  · rintro ⟨place, hplace⟩
    rw [getElem?_members] at hplace
    split at hplace
    · next hlt => exact ⟨place, hlt, hplace⟩
    · cases hplace
  · rintro ⟨place, hlt, hdense⟩
    exact ⟨place, by rw [getElem?_members, if_pos hlt, hdense]⟩

theorem contains_iff_mem {value : Nat} : set.contains value = true ↔ value ∈ set.members := by
  rw [h.contains_iff, mem_members_iff]

theorem lt_capacity_of_contains {value : Nat} (hin : set.contains value = true) :
    value < set.capacity := by
  obtain ⟨place, hplace, hdense⟩ := h.contains_iff.1 hin
  exact h.lt_capacity hplace hdense

theorem nodup_members : set.members.Nodup := by
  refine List.pairwise_iff_getElem.2 fun i j hi hj hij heq => ?_
  have hfirst := List.getElem?_eq_getElem hi
  have hsecond := List.getElem?_eq_getElem hj
  rw [length_members] at hi hj
  rw [getElem?_members, if_pos hi] at hfirst
  rw [getElem?_members, if_pos hj, ← heq] at hsecond
  -- Both places hold one number, and `sparse` points back at only one of them.
  have hplace := (h.sparse_eq hi hfirst).symm.trans (h.sparse_eq hj hsecond)
  exact Nat.ne_of_lt hij (Option.some.inj hplace)

/-- A set that lacks a number below its capacity is not full. -/
theorem count_lt {value : Nat} (hvalue : value < set.capacity)
    (hnew : set.contains value = false) : set.count < set.capacity := by
  have hnotin : value ∉ set.members := by
    intro hmem
    rw [(h.contains_iff).2 (mem_members_iff.1 hmem)] at hnew
    cases hnew
  have hnodup : (value :: set.members).Nodup := List.nodup_cons.2 ⟨hnotin, h.nodup_members⟩
  have hsubset : value :: set.members ⊆ List.range set.capacity := by
    intro other hother
    rcases List.mem_cons.1 hother with rfl | hother
    · exact List.mem_range.2 hvalue
    · obtain ⟨place, hlt, hdense⟩ := mem_members_iff.1 hother
      exact List.mem_range.2 (h.lt_capacity hlt hdense)
  have hlength := (hnodup.subperm hsubset).length_le
  rw [List.length_cons, length_members, List.length_range] at hlength
  exact hlength

theorem isSound_of_insert {value : Nat} {fresh : Bool} {next : MarkerSet}
    (run : set.insert value = .ok (fresh, next)) :
    next.IsSound ∧ next.capacity = set.capacity := by
  obtain ⟨-, -, rfl⟩ | ⟨hnew, -, hvalue, hroom, hin, hcount, hdense, hsparse⟩ := insert_cases run
  · exact ⟨h, rfl⟩
  have hcapacity : next.capacity = set.capacity := by
    rw [capacity, hdense, Array.size_setIfInBounds, capacity]
  refine ⟨⟨?_, fun {place other} hplace hother => ?_, fun {place other} hplace hother => ?_⟩,
    hcapacity⟩
  · rw [hcapacity, hsparse, Array.size_setIfInBounds, h.sparse_size]
  · rw [hcount] at hplace
    rw [hdense, Array.getElem?_setIfInBounds] at hother
    rw [hcapacity]
    split at hother
    · cases hother
      exact hvalue
    · exact h.lt_capacity (by omega) hother
  · rw [hcount] at hplace
    rw [hdense, Array.getElem?_setIfInBounds] at hother
    rw [hsparse, Array.getElem?_setIfInBounds]
    split at hother
    · next heq =>
      cases hother
      rw [if_pos rfl, if_pos hin, heq]
    · next hne =>
      have hlt : place < set.count := by omega
      have hdiffer : value ≠ other := by
        rintro rfl
        rw [h.contains_iff.2 ⟨place, hlt, hother⟩] at hnew
        cases hnew
      rw [if_neg hdiffer]
      exact h.sparse_eq hlt hother

/-- A number below the capacity can be inserted, be it new or not. -/
theorem insert_eq_ok {value : Nat} (hvalue : value < set.capacity) :
    ∃ fresh next, set.insert value = .ok (fresh, next) ∧ next.IsSound
      ∧ next.capacity = set.capacity := by
  have hexists : ∃ fresh next, set.insert value = .ok (fresh, next) := by
    unfold insert
    by_cases hin : set.contains value = true
    · exact ⟨_, _, if_pos hin⟩
    · have hroom : set.count < set.dense.size := h.count_lt hvalue (Bool.eq_false_iff.2 hin)
      have hsparse : value < set.sparse.size := h.sparse_size.symm ▸ hvalue
      rw [if_neg hin, if_neg (Nat.not_le.2 hvalue), dif_pos hroom, if_pos hsparse]
      exact ⟨_, _, rfl⟩
  obtain ⟨fresh, next, run⟩ := hexists
  exact ⟨fresh, next, run, h.isSound_of_insert run⟩

omit h in
/-- A number that is new comes last. -/
theorem members_of_insert {value : Nat} {next : MarkerSet}
    (run : set.insert value = .ok (true, next)) : next.members = set.members ++ [value] := by
  obtain ⟨-, hfalse, -⟩ | ⟨-, -, -, hroom, -, hcount, hdense, -⟩ := insert_cases run
  · cases hfalse
  refine List.ext_getElem? fun place => ?_
  rw [List.getElem?_append, length_members, getElem?_members, getElem?_members, hcount, hdense,
    Array.getElem?_setIfInBounds]
  rcases Nat.lt_trichotomy place set.count with hlt | rfl | hgt
  · rw [if_pos (Nat.lt_succ_of_lt hlt), if_neg (Nat.ne_of_gt hlt), if_pos hlt, if_pos hlt]
  · simp [hroom]
  · rw [if_neg (Nat.not_lt.2 hgt), if_neg (Nat.not_lt.2 (Nat.le_of_lt hgt))]
    refine (List.getElem?_eq_none ?_).symm
    rw [List.length_singleton]
    omega

/-- After an insertion the set has the number and what it had before. -/
theorem contains_of_insert {value other : Nat} {fresh : Bool} {next : MarkerSet}
    (run : set.insert value = .ok (fresh, next)) :
    next.contains other = (decide (other = value) || set.contains other) := by
  obtain ⟨hin, -, rfl⟩ | ⟨-, rfl, -⟩ := insert_cases run
  · by_cases heq : other = value
    · simp [heq, hin]
    · simp [heq]
  · rw [Bool.eq_iff_iff, (h.isSound_of_insert run).1.contains_iff_mem, members_of_insert run,
      List.mem_append, List.mem_singleton, ← h.contains_iff_mem, Bool.or_eq_true,
      decide_eq_true_eq, or_comm]

end IsSound

end MarkerSet

end Multimatch
