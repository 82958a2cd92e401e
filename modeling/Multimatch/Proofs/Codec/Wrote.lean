import Multimatch.Codec.Writer
import Multimatch.Proofs.Codec.Placed

/-!
# Writing towards a target

A writer is judged by the bytes that it should leave behind, its target. Each single write puts
bytes of the target where the target has them, so that nothing that is in place is lost by a later
write, wherever that goes (`Bytes.Wrote`). That several writers have filled a part then only asks
that their places cover it (`Bytes.Wrote.eq`): it is of no account in which order they went or
whether they interleave. A writer that reaches any target does nothing else than set the bytes of
its part (`Bytes.eq_setFrom_of_wrote`).
-/

namespace Multimatch.Bytes

variable {target bytes : Bytes}

theorem Holds.getElem? {place : Nat} {part : List UInt8} (h : bytes.Holds place part) {i : Nat}
    (hi : i < part.length) : bytes[place + i]? = part[i]? := by
  obtain ⟨front, back, heq, rfl⟩ := h
  rw [← Array.getElem?_toList, heq, List.append_assoc,
    List.getElem?_append_right (Nat.le_add_right ..), Nat.add_sub_cancel_left,
    List.getElem?_append_left hi]

/-- A slice that starts where a part is held starts with it. -/
theorem Holds.extract {start stop : Nat} {part : List UInt8} (h : bytes.Holds start part)
    (hstop : start + part.length ≤ stop) : Holds (Array.extract bytes start stop) 0 part := by
  obtain ⟨front, back, heq, rfl⟩ := h
  refine ⟨[], back.take (stop - front.length - part.length), ?_, rfl⟩
  rw [Array.toList_extract, List.extract_eq_take_drop, heq, List.append_assoc, List.drop_left,
    List.take_append, List.take_of_length_le (by omega), List.nil_append]

/-! ## Setting bytes one by one -/

theorem size_setFrom (bytes : Bytes) (place : Nat) (patch : List UInt8) :
    (bytes.setFrom place patch).size = bytes.size := by
  induction patch generalizing bytes place with
  | nil => rfl
  | cons byte patch ih => rw [setFrom, ih, Array.size_setIfInBounds]

theorem getElem?_setFrom {patch : List UInt8} {place : Nat}
    (hroom : place + patch.length ≤ bytes.size) (i : Nat) :
    (bytes.setFrom place patch)[i]?
      = if place ≤ i ∧ i < place + patch.length then patch[i - place]? else bytes[i]? := by
  induction patch generalizing bytes place with
  | nil => rw [setFrom, if_neg fun h => Nat.not_lt.2 h.1 h.2]
  | cons byte patch ih =>
    rw [List.length_cons] at hroom
    rw [setFrom, ih (by rw [Array.size_setIfInBounds]; omega), List.length_cons,
      Array.getElem?_setIfInBounds]
    rcases Nat.lt_trichotomy i place with hlt | rfl | hlt
    · rw [if_neg (by omega), if_neg (by omega), if_neg (by omega)]
    · rw [if_neg (by omega), if_pos rfl, if_pos (by omega), if_pos (by omega), Nat.sub_self]
      rfl
    · rw [if_neg (Nat.ne_of_lt hlt), show i - place = i - (place + 1) + 1 by omega,
        List.getElem?_cons_succ]
      congr 1
      rw [eq_iff_iff]
      omega

theorem setFrom_append (bytes : Bytes) (place : Nat) (first second : List UInt8) :
    bytes.setFrom place (first ++ second)
      = (bytes.setFrom place first).setFrom (place + first.length) second := by
  induction first generalizing bytes place with
  | nil => rfl
  | cons byte first ih =>
    rw [List.cons_append, setFrom, ih, setFrom, List.length_cons, Nat.add_assoc, Nat.add_comm 1]

/-- To set bytes of the rest of an array and put the rest back is to set them in the array. -/
theorem setFrom_extract {start : Nat} {patch : List UInt8}
    (hroom : start + patch.length ≤ bytes.size) :
    bytes.setFrom start (setFrom (Array.extract bytes start bytes.size) 0 patch).toList
      = bytes.setFrom start patch := by
  have hrest : (Array.extract bytes start bytes.size).size = bytes.size - start := by
    rw [Array.size_extract, Nat.min_self]
  have hlength : (setFrom (Array.extract bytes start bytes.size) 0 patch).toList.length
      = bytes.size - start := by
    rw [Array.length_toList, size_setFrom, hrest]
  apply Array.ext_getElem?
  intro i
  rw [getElem?_setFrom (by omega), getElem?_setFrom hroom, Array.getElem?_toList,
    getElem?_setFrom (by omega), Array.getElem?_extract]
  rcases Nat.lt_or_ge i start with hlt | hge
  · rw [if_neg (by omega), if_neg (by omega)]
  · rcases Nat.lt_or_ge i bytes.size with hin | hout
    · rw [if_pos (by omega), Nat.add_sub_cancel' hge, Nat.sub_zero]
      by_cases hpatch : i < start + patch.length
      · have hinside : 0 ≤ i - start ∧ i - start < 0 + patch.length := by omega
        rw [if_pos hinside, if_pos ⟨hge, hpatch⟩]
      · have houtside : ¬ (0 ≤ i - start ∧ i - start < 0 + patch.length) := by omega
        have hrest : i - start < min bytes.size bytes.size - start := by omega
        rw [if_neg houtside, if_pos hrest, if_neg fun h => hpatch h.2]
    · rw [if_neg (by omega), if_neg (by omega)]

theorem holds_setFrom {place : Nat} {part : List UInt8} (hroom : place + part.length ≤ bytes.size) :
    (bytes.setFrom place part).Holds place part := by
  have hplace : (bytes.toList.take place).length = place := by
    rw [List.length_take, Array.length_toList]
    omega
  refine ⟨bytes.toList.take place, bytes.toList.drop (place + part.length), ?_, hplace⟩
  apply List.ext_getElem?
  intro i
  rw [Array.getElem?_toList, getElem?_setFrom hroom]
  split
  · next hin =>
    rw [List.getElem?_append_left (by rw [List.length_append]; omega),
      List.getElem?_append_right (by omega), hplace]
  · next hout =>
    rcases Nat.lt_or_ge i place with hlt | hge
    · rw [List.append_assoc, List.getElem?_append_left (by omega), List.getElem?_take_of_lt hlt,
        Array.getElem?_toList]
    · rw [List.getElem?_append_right (by rw [List.length_append]; omega), List.getElem?_drop,
        List.length_append, hplace, Array.getElem?_toList, Nat.add_sub_cancel' (by omega)]

/-! ## One writer after the other -/

/-- What a writer has done on its way to the target: whatever was as in the target is so still, and
from `start` to `stop` everything is. -/
structure Wrote (target before after : Bytes) (start stop : Nat) : Prop where
  size : after.size = before.size
  kept : ∀ place : Nat, before[place]? = target[place]? → after[place]? = target[place]?
  done : ∀ place : Nat, start ≤ place → place < stop → after[place]? = target[place]?

namespace Wrote

variable {before after : Bytes} {start stop : Nat}

theorem refl (target bytes : Bytes) (place : Nat) : Wrote target bytes bytes place place :=
  ⟨rfl, fun _ h => h, fun _ hle hlt => absurd hlt (Nat.not_lt.2 hle)⟩

variable (h : Wrote target before after start stop)
include h

/-- Two parts of what one writer has done. -/
theorem join {stop' : Nat} (h' : Wrote target before after stop stop') :
    Wrote target before after start stop' where
  size := h.size
  kept := h.kept
  done place hle hlt := by
    rcases Nat.lt_or_ge place stop with hstop | hstop
    · exact h.done place hle hstop
    · exact h'.done place hstop hlt

/-- What was done stays so when another writer follows. -/
theorem followed {last : Bytes} {start' stop' : Nat} (h' : Wrote target after last start' stop') :
    Wrote target before last start stop where
  size := h'.size.trans h.size
  kept place hplace := h'.kept place (h.kept place hplace)
  done place hle hlt := h'.kept place (h.done place hle hlt)

/-- What was there before a writer does not matter to what it has done. -/
theorem preceded {first : Bytes} {start' stop' : Nat}
    (h' : Wrote target first before start' stop') : Wrote target first after start stop where
  size := h.size.trans h'.size
  kept place hplace := h.kept place (h'.kept place hplace)
  done := h.done

/-- Two writers, the second of which goes on where the first one stopped. -/
theorem trans {last : Bytes} {stop' : Nat} (h' : Wrote target after last stop stop') :
    Wrote target before last start stop' :=
  (h.followed h').join (h'.preceded h)

omit h

/-- A writer leaves the target if the bytes that it did not write were those of the target before.
-/
theorem eq (h : Wrote target before after start stop)
    (hrest : ∀ place, ¬(start ≤ place ∧ place < stop) → before[place]? = target[place]?) :
    after = target := by
  apply Array.ext_getElem?
  intro i
  by_cases hin : start ≤ i ∧ i < stop
  · exact h.done i hin.1 hin.2
  · exact h.kept i (hrest i hin)

end Wrote

/-- A writer that leaves a part where every target has it puts it there, and writes nothing else. -/
theorem eq_setFrom_of_wrote {place : Nat} {part : List UInt8} {result : Write Bytes}
    (hroom : place + part.length ≤ bytes.size)
    (h : ∀ {target : Bytes}, bytes.size = target.size → target.Holds place part →
      ∃ next, result = .ok next ∧ Wrote target bytes next place (place + part.length)) :
    result = .ok (bytes.setFrom place part) := by
  obtain ⟨next, hresult, hwrote⟩ := h (size_setFrom ..).symm (holds_setFrom hroom)
  rw [hresult, hwrote.eq fun i hout => by rw [getElem?_setFrom hroom, if_neg hout]]

/-! ## Writers -/

variable (hsize : bytes.size = target.size)
include hsize

theorem write_wrote {place : Nat} {patch : List UInt8} (h : target.Holds place patch) :
    ∃ next, bytes.write place patch = .ok next
      ∧ Wrote target bytes next place (place + patch.length) := by
  have hroom : place + patch.length ≤ bytes.size := hsize ▸ h.size_le
  have hin {i : Nat} (hle : place ≤ i) (hlt : i < place + patch.length) :
      patch[i - place]? = target[i]? := by
    rw [← h.getElem? (Nat.sub_lt_left_of_lt_add hle hlt), Nat.add_sub_cancel' hle]
  refine ⟨_, if_pos hroom, size_setFrom .., fun i hi => ?_, fun i hle hlt => ?_⟩
  · rw [getElem?_setFrom hroom]
    split
    · next hat => exact hin hat.1 hat.2
    · exact hi
  · rw [getElem?_setFrom hroom, if_pos ⟨hle, hlt⟩, hin hle hlt]

theorem writeEach_wrote {stride place : Nat} {parts : List (List UInt8)}
    (h : target.Holds place parts.flatten) (hlength : ∀ part ∈ parts, part.length = stride) :
    ∃ next, bytes.writeEach stride place parts = .ok next
      ∧ Wrote target bytes next place (place + parts.flatten.length) := by
  induction parts generalizing bytes place with
  | nil => exact ⟨bytes, rfl, Wrote.refl ..⟩
  | cons part parts ih =>
    obtain rfl := hlength part List.mem_cons_self
    rw [List.flatten_cons] at h
    obtain ⟨middle, hfirst, hpart⟩ := write_wrote hsize h.left
    obtain ⟨next, hrest, hparts⟩ := ih (hpart.size.trans hsize) h.right
      fun other hother => hlength other (List.mem_cons_of_mem _ hother)
    refine ⟨next, ?_, ?_⟩
    · simp only [writeEach, hfirst, bind, Except.bind, hrest]
    · rw [List.flatten_cons, List.length_append, ← Nat.add_assoc]
      exact hpart.trans hparts

/-- A writer that puts a part at the start of any bytes puts it at the start of a slice. -/
theorem within_wrote {start stop : Nat} {part : List UInt8} {writer : Bytes → Write Bytes}
    (h : target.Holds start part) (hpart : start + part.length ≤ stop) (hstop : stop ≤ target.size)
    (hwriter : ∀ {target bytes : Bytes}, bytes.size = target.size → target.size = stop - start →
      target.Holds 0 part → ∃ next, writer bytes = .ok next
        ∧ Wrote target bytes next 0 part.length) :
    ∃ next, bytes.within start stop writer = .ok next
      ∧ Wrote target bytes next start (start + part.length) := by
  have hinside : stop ≤ bytes.size := hsize ▸ hstop
  have hslice := slice_eq_ok (Nat.le_trans (Nat.le_add_right ..) hpart) hinside
  have hbefore : (Array.extract bytes start stop).size = stop - start := by
    rw [Array.size_extract, Nat.min_eq_left hinside]
  have htarget : (Array.extract target start stop).size = stop - start := by
    rw [Array.size_extract, Nat.min_eq_left hstop]
  obtain ⟨written, hrun, hwrote⟩ :=
    hwriter (hbefore.trans htarget.symm) htarget (h.extract hpart)
  have hwritten : written.toList.length = stop - start := by
    rw [Array.length_toList, hwrote.size, hbefore]
  have hroom : start + written.toList.length ≤ bytes.size := by omega
  have hat {i : Nat} (hle : start ≤ i) (hlt : i < stop) :
      (target.extract start stop)[i - start]? = target[i]? := by
    rw [Array.getElem?_extract, Nat.min_eq_left hstop, if_pos (by omega), Nat.add_sub_cancel' hle]
  refine ⟨bytes.setFrom start written.toList, ?_, size_setFrom .., fun i hi => ?_,
    fun i hle hlt => ?_⟩
  · simp only [within, hslice, Failure.liftM_ok, hrun, write, hroom, if_true, bind, Except.bind]
  · -- Outside of the slice nothing changes, and inside the writer has kept what was in place.
    rw [getElem?_setFrom hroom]
    split
    · next hin =>
      have hlt : i < stop := by omega
      rw [Array.getElem?_toList, ← hat hin.1 hlt]
      apply hwrote.kept
      rw [hat hin.1 hlt, Array.getElem?_extract, Nat.min_eq_left hinside, if_pos (by omega),
        Nat.add_sub_cancel' hin.1, hi]
    · exact hi
  · rw [getElem?_setFrom hroom, if_pos (by omega), Array.getElem?_toList, ← hat hle (by omega)]
    exact hwrote.done _ (Nat.zero_le _) (by omega)

omit hsize

/-- A writer that is run on the bytes from `start` on replaces them. -/
theorem within_eq_ok {start : Nat} {writer : Bytes → Write Bytes} {written : Bytes}
    (hstart : start ≤ bytes.size)
    (hrun : writer (Array.extract bytes start bytes.size) = .ok written)
    (hwritten : written.size = bytes.size - start) :
    bytes.within start bytes.size writer = .ok (bytes.setFrom start written.toList) := by
  have hroom : start + written.toList.length ≤ bytes.size := by
    rw [Array.length_toList]
    omega
  simp only [within, slice_eq_ok hstart (Nat.le_refl _), Failure.liftM_ok, hrun, write, hroom,
    if_true, bind, Except.bind]

theorem requireRoom_eq_ok {length : Nat} (what : String) (hroom : length ≤ bytes.size) :
    bytes.requireRoom length what = .ok () :=
  if_neg (Nat.not_lt.2 hroom)

end Multimatch.Bytes
