import Mathlib.Data.Finset.Card
import Mathlib.Data.List.FinRange
import Multimatch.EndOfData.Watch

/-!
# What watching finds

However many triggers there are, and whichever of them are enabled: as long as they watch no more
than three different bytes there is room for all of these, and a search that ends early misses none
(`Engine.pulled_eq`). If there is an answer at all, it is this one (`Engine.eq_of_pulled`).
-/

namespace Multimatch

namespace TriggerWatch

variable {watch : TriggerWatch} {byte : UInt8} {place : Fin 3}

/-- What is looked for are the given bytes, each at a place of its own. -/
structure Watches (watch : TriggerWatch) (bytes : List UInt8) : Prop where
  count : watch.count = bytes.toFinset.card
  place : ∀ byte, (watch.place? byte).isSome = true ↔ byte ∈ bytes

theorem watches_empty : Watches {} [] where
  count := rfl
  place byte := by simp [place?_isSome_iff]

/-- One byte more is looked for, unless it would be the fourth. -/
theorem Watches.add {bytes : List UInt8} (h : watch.Watches bytes) (byte : UInt8) :
    (∃ next, watch.add byte = .ok next ∧ next.Watches (bytes ++ [byte]))
      ∨ (3 < (bytes ++ [byte]).toFinset.card ∧ ∃ fault, watch.add byte = .error fault) := by
  have hinsert : (bytes ++ [byte]).toFinset = insert byte bytes.toFinset := by
    rw [List.toFinset_append, Finset.union_comm]
    rfl
  by_cases hmem : byte ∈ bytes
  · have hsame : (bytes ++ [byte]).toFinset = bytes.toFinset := by
      rw [hinsert, Finset.insert_eq_of_mem (List.mem_toFinset.2 hmem)]
    refine .inl ⟨watch, if_pos ((h.place byte).2 hmem), hsame ▸ h.count, fun other => ?_⟩
    rw [h.place, ← List.mem_toFinset, ← hsame, List.mem_toFinset]
  · have hcard : (bytes ++ [byte]).toFinset.card = watch.count + 1 := by
      rw [hinsert, Finset.card_insert_of_notMem fun hin => hmem (List.mem_toFinset.1 hin), h.count]
    have hnew : ¬(watch.place? byte).isSome = true := fun hplace => hmem ((h.place byte).1 hplace)
    rw [TriggerWatch.add, if_neg hnew]
    by_cases hroom : watch.count < 3
    · rw [dif_pos hroom]
      refine .inl ⟨_, rfl, hcard.symm, fun other => ?_⟩
      rw [List.mem_append, List.mem_singleton, ← h.place, place?_isSome_iff, place?_isSome_iff]
      constructor
      · rintro ⟨place, hplace, hbyte⟩
        rw [Fin.getElem_fin, Vector.getElem_set] at hbyte
        split at hbyte
        · exact .inr hbyte.symm
        · next hne =>
          exact .inl ⟨place, Nat.lt_of_le_of_ne (Nat.le_of_lt_succ hplace) (Ne.symm hne), hbyte⟩
      · rintro (⟨place, hplace, hbyte⟩ | rfl)
        · refine ⟨place, Nat.lt_succ_of_lt hplace, ?_⟩
          rwa [Fin.getElem_fin, Vector.getElem_set_ne _ _ (Nat.ne_of_gt hplace)]
        · exact ⟨⟨watch.count, hroom⟩, Nat.lt_succ_self _, by simp⟩
    · rw [dif_neg hroom, hcard]
      exact .inr ⟨Nat.lt_succ_of_le (Nat.le_of_not_lt hroom), _, rfl⟩

/-- All bytes are looked for, unless there are more than three different ones. -/
theorem Watches.addAll {before : List UInt8} (h : watch.Watches before) (bytes : List UInt8) :
    (∃ next, watch.addAll bytes = .ok next ∧ next.Watches (before ++ bytes))
      ∨ (3 < (before ++ bytes).toFinset.card ∧ ∃ fault, watch.addAll bytes = .error fault) := by
  induction bytes generalizing watch before with
  | nil => exact .inl ⟨watch, rfl, by rwa [List.append_nil]⟩
  | cons byte bytes ih =>
    rw [TriggerWatch.addAll, List.append_cons]
    rcases h.add byte with ⟨next, hadd, hnext⟩ | ⟨hmany, fault, hadd⟩
    · rw [hadd]
      exact ih hnext
    · refine .inr ⟨Nat.lt_of_lt_of_le hmany (Finset.card_le_card fun other hother => ?_), fault, ?_⟩
      · exact List.mem_toFinset.2 (List.mem_append_left _ (List.mem_toFinset.1 hother))
      · rw [hadd]
        rfl

/-! ## Searches -/

/-- A search goes by every byte that is looked for. -/
theorem mem_needles (h : watch.place? byte = some place) : byte ∈ watch.needles := by
  obtain ⟨hlt, rfl⟩ := of_place? h
  unfold needles
  split
  · next hone =>
    have : place = 0 := by omega
    simp [this]
  · next htwo =>
    have : place = 0 ∨ place = 1 := by omega
    rcases this with rfl | rfl <;> simp
  · have : place = 0 ∨ place = 1 ∨ place = 2 := by omega
    rcases this with rfl | rfl | rfl <;> simp

/-- A byte that is looked for is seen if and only if it is in the window. -/
theorem exists_seenIn (watch : TriggerWatch) (search : ByteSearch) (window : Bytes) :
    ∃ seen, watch.seenIn search window = .ok seen
      ∧ ∀ byte, (watch.place? byte).isSome = true → watch.saw seen byte = window.contains byte := by
  have hinside : ∀ place ∈ search.places watch.needles window, place < window.size := by
    intro place hplace
    obtain ⟨byte, -, hbyte⟩ := search.mem_places_iff.1 hplace
    exact (Array.getElem?_eq_some_iff.1 hbyte).1
  obtain ⟨seen, hlook, hseen⟩ := exists_look hinside (.replicate 3 false)
  refine ⟨seen, hlook, fun byte hsome => ?_⟩
  obtain ⟨index, hindex⟩ := Option.isSome_iff_exists.1 hsome
  have hneedle := mem_needles hindex
  rw [Bool.eq_iff_iff, saw, hindex]
  refine (hseen hindex).trans ?_
  rw [Array.contains_iff_mem, Array.mem_iff_getElem?]
  constructor
  · rintro (hnone | ⟨place, -, hbyte⟩)
    · simp at hnone
    · exact ⟨place, hbyte⟩
  · rintro ⟨place, hbyte⟩
    exact .inr ⟨place, search.mem_places_iff.2 ⟨byte, hneedle, hbyte⟩, hbyte⟩

end TriggerWatch

/-! ## Triggers -/

namespace Engine

variable (engine : Engine) (search : ByteSearch) (enabled : List Bool) (window : Bytes)

/-- The roles of the enabled triggers whose byte is in a window, read off the triggers. -/
def pulledBy : List RoleId :=
  ((engine.triggers.zip enabled).filter fun (trigger, enabled) =>
    enabled && window.contains trigger.byte).map fun (trigger, _) => trigger.role

theorem pulled_cases :
    engine.pulled search enabled window = .ok (engine.pulledBy enabled window)
    ∨ (3 < (engine.triggers.map (·.byte)).toFinset.card
      ∧ ∃ fault, engine.pulled search enabled window = .error fault) := by
  have hpulled : engine.pulledBy enabled window
      = ((((engine.triggers.zip enabled).filter (·.2)).map (·.1)).filter fun trigger =>
        window.contains trigger.byte).map (·.role) := by
    simp [pulledBy, List.filter_map, List.filter_filter, Function.comp_def, Bool.and_comm]
  have hsub : ∀ trigger ∈ ((engine.triggers.zip enabled).filter (·.2)).map (·.1),
      trigger ∈ engine.triggers := by
    intro trigger htrigger
    obtain ⟨pair, hpair, rfl⟩ := List.mem_map.1 htrigger
    exact (List.of_mem_zip (List.mem_filter.1 hpair).1).1
  rw [pulled, hpulled]
  generalize ((engine.triggers.zip enabled).filter (·.2)).map (·.1) = triggers at hsub ⊢
  rcases TriggerWatch.watches_empty.addAll (triggers.map (·.byte)) with
    ⟨watch, hadd, hwatch⟩ | ⟨hmany, fault, hadd⟩
  · left
    obtain ⟨seen, hseen, hsaw⟩ := watch.exists_seenIn search window
    have hsaw : ∀ trigger ∈ triggers, watch.saw seen trigger.byte
        = window.contains trigger.byte := fun trigger htrigger =>
      hsaw _ ((hwatch.place _).2 (List.mem_map_of_mem htrigger))
    rw [hadd]
    simp only [bind, Except.bind]
    split
    · next hnone =>
      have hnil : triggers = [] := by simpa [hnone] using hwatch.count.symm
      rw [hnil]
      rfl
    · rw [hseen, ← List.filter_congr hsaw]
      rfl
  · right
    refine ⟨Nat.lt_of_lt_of_le hmany (Finset.card_le_card fun byte hbyte => ?_), fault, ?_⟩
    · obtain ⟨trigger, htrigger, rfl⟩ := List.mem_map.1 (List.mem_toFinset.1 hbyte)
      exact List.mem_toFinset.2 (List.mem_map_of_mem (hsub trigger htrigger))
    · rw [hadd]
      rfl

variable {engine search enabled window}

/-- With no more than three different bytes to watch there is no fault, and no trigger is missed. -/
theorem pulled_eq (h : (engine.triggers.map (·.byte)).toFinset.card ≤ 3) :
    engine.pulled search enabled window = .ok (engine.pulledBy enabled window) :=
  (engine.pulled_cases search enabled window).resolve_right fun hmany => Nat.not_lt.2 h hmany.1

theorem eq_of_pulled {pulled : List RoleId} (h : engine.pulled search enabled window = .ok pulled) :
    pulled = engine.pulledBy enabled window := by
  rcases engine.pulled_cases search enabled window with hpulled | ⟨-, fault, hfault⟩
  · exact Except.ok.inj (h.symm.trans hpulled)
  · cases h.symm.trans hfault

/-- A role is pulled by a trigger that is enabled and has its byte in the window. -/
theorem mem_pulledBy {id : RoleId} : id ∈ engine.pulledBy enabled window
    ↔ ∃ trigger, (trigger, true) ∈ engine.triggers.zip enabled ∧ trigger.byte ∈ window
      ∧ trigger.role = id := by
  simp [pulledBy, and_assoc]

end Engine

end Multimatch
