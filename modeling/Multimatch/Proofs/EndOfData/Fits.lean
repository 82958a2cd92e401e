import Multimatch.Proofs.MarkerSet
import Multimatch.Proofs.Rules.Accepted
import Multimatch.EndOfData.State

/-!
# States that fit an engine

Stream states and working space do not know their engine. One that was made for it has the right
size in all of its parts (`StreamState.Fits`, `Scratch.Fits`), whatever its flags and bytes are, so
that the parts that belong to a queue can be read and replaced. Of the automata it is asked that
they work with states of their own lengths (`Automaton.IsSafe`).
-/

namespace Multimatch

/-! ## What automata promise -/

namespace Dialogue

/-- However the reports are answered, no fault comes of it. -/
def NeverFaults : Dialogue → Prop
  | .done _ => True
  | .fault _ => False
  | .ask _ _ next => ∀ control, (next control).NeverFaults

/-- However the reports are answered, they are at the given places. -/
def ReportsAt (places : Nat → Prop) : Dialogue → Prop
  | .done _ | .fault _ => True
  | .ask offset _ next => places offset ∧ ∀ control, (next control).ReportsAt places

/-- While every report is answered with `proceed`, there is no halt at the end. -/
def HaltsOnlyIfTold : Dialogue → Prop
  | .done control => control = .proceed
  | .fault _ => True
  | .ask _ _ next => (next .proceed).HaltsOnlyIfTold

theorem reportsAt_anywhere (dialogue : Dialogue) : dialogue.ReportsAt fun _ => True := by
  induction dialogue with
  | done control => trivial
  | fault fault => trivial
  | ask offset id next ih => exact ⟨trivial, ih⟩

end Dialogue

namespace Automaton

/-- Given states of its lengths, the automaton never faults. -/
structure IsSafe (automaton : Automaton) : Prop where
  expand : ∀ {full short : Bytes} (offset : Nat) (key : UInt8),
    full.size = automaton.fullLength → short.size = automaton.streamLength →
    ∃ next, automaton.expand full short offset key = .ok next
  prepare : ∀ {full : Bytes}, full.size = automaton.fullLength →
    ∃ next, automaton.prepare full = .ok next
  run : ∀ (events : List QueueEvent) {full : Bytes}, full.size = automaton.fullLength →
    ∃ next alive, automaton.run events full = .ok (next, alive)
  finalReports : ∀ {full short : Bytes} (offset : Nat),
    full.size = automaton.fullLength → short.size = automaton.streamLength →
    (automaton.finalReports full short offset).NeverFaults

/-- The automaton ends in a halt only if some report of it was answered with one. -/
def IsHonest (automaton : Automaton) : Prop :=
  ∀ full short offset, (automaton.finalReports full short offset).HaltsOnlyIfTold

/-- The automaton reports at the offset that it is given. -/
def KeepsOffset (automaton : Automaton) : Prop :=
  ∀ full short offset, (automaton.finalReports full short offset).ReportsAt (· = offset)

/-- An automaton that remembers whether it was switched on, and reports that at the end. -/
def latch (report : ReportId) : Automaton where
  acceptsEnd := true
  streamLength := 1
  fullLength := 1
  expand _ short _ _ := .ok short
  prepare := prepareZeros
  finalReports full _ offset := if full = #[1] then .ask offset report .done else .done .proceed
  run events full := .ok (if events.any (·.kind = .top) then #[1] else full, true)

section Latch

variable (report : ReportId)

theorem isSafe_latch : (latch report).IsSafe where
  expand _ _ _ _ := ⟨_, rfl⟩
  prepare _ := ⟨_, rfl⟩
  run _ _ _ := ⟨_, _, rfl⟩
  finalReports {full short} offset _ _ := by
    unfold latch
    dsimp only
    split
    · intro control
      trivial
    · trivial

theorem isHonest_latch : (latch report).IsHonest := by
  intro full short offset
  unfold latch
  dsimp only
  split
  · rfl
  · rfl

theorem keepsOffset_latch : (latch report).KeepsOffset := by
  intro full short offset
  unfold latch
  dsimp only
  split
  · exact ⟨rfl, fun _ => trivial⟩
  · trivial

end Latch

end Automaton

/-! ## Sizes -/

theorem replaceAt_eq_ok {α : Type} {elements : List α} {index : Nat} {element : α}
    (inside : index < elements.length) :
    replaceAt elements index element = .ok (elements.set index element) := if_pos inside

theorem Bytes.size_refill (bytes : Bytes) (start stop : Nat) (new : Bytes) :
    (bytes.refill start stop new).size = bytes.size := Array.size_mapIdx

/-- There are words for the flags of all queues. -/
theorem Engine.IsSound.slots_le_maxCapacity {engine : Engine} (h : engine.IsSound) :
    engine.slots.length ≤ FlagSet.maxCapacity := Nat.le_trans h.slots_le (by decide)

namespace StreamState

/-- The flags and bytes of the state are as many as the engine needs, and the flags have their
words. -/
structure Fits (engine : Engine) (state : StreamState) : Prop where
  roles : state.roles.capacity = engine.roleStates
  roles_sized : state.roles.IsSized
  leaves : state.leaves.capacity = engine.slots.length
  leaves_sized : state.leaves.IsSized
  stored : state.stored.size = engine.streamLength

/-- The state of a stream before its first byte fits exactly if there are words for the roles. -/
theorem fits_initial_iff {engine : Engine} (hsound : engine.IsSound) :
    (initial engine).Fits engine ↔ engine.roleStates ≤ FlagSet.maxCapacity :=
  ⟨fun h => FlagSet.isSized_empty_iff.1 h.roles_sized, fun h =>
    ⟨rfl, FlagSet.isSized_empty h, rfl, FlagSet.isSized_empty hsound.slots_le_maxCapacity,
      Array.size_replicate⟩⟩

end StreamState

namespace Scratch

/-- The working space has the sizes that the engine needs, and its flags have their words. -/
structure Fits (engine : Engine) (scratch : Scratch) : Prop where
  full : scratch.full.size = engine.fullLength
  queues : scratch.queues.length = engine.slots.length
  handled : scratch.handled.IsSound
  handled_capacity : scratch.handled.capacity = engine.roles.length
  triggered : scratch.triggered.capacity = engine.slots.length
  triggered_sized : scratch.triggered.IsSized

section Made

variable {engine : Engine} {next : Scratch}

/-- Working space that was made for an engine has its sizes and sound markers. -/
theorem exists_markers_of_fresh (run : fresh engine = .ok next) : ∃ handled : MarkerSet,
    handled.IsSound ∧ handled.capacity = engine.roles.length ∧ next = withMarkers engine handled := by
  obtain ⟨handled, hresize, hnext⟩ := Except.bind_eq_ok_iff.1 run
  cases hnext
  exact ⟨handled, MarkerSet.isSound_of_resize hresize, MarkerSet.capacity_of_resize hresize, rfl⟩

theorem exists_markers_of_reset {old : Scratch} (run : old.reset engine = .ok next) :
    ∃ handled : MarkerSet, handled.IsSound ∧ handled.capacity = engine.roles.length
      ∧ next = withMarkers engine handled := by
  obtain ⟨handled, hresize, hnext⟩ := Except.bind_eq_ok_iff.1 run
  cases hnext
  exact ⟨handled, MarkerSet.isSound_of_resize hresize, MarkerSet.capacity_of_resize hresize, rfl⟩

section Room

variable (hroles : engine.roles.length ≤ MarkerSet.maxCapacity)
include hroles

theorem exists_fresh_eq_ok : ∃ scratch, fresh engine = .ok scratch := by
  simp only [fresh, MarkerSet.empty, MarkerSet.resize, if_pos hroles]
  exact ⟨_, rfl⟩

theorem exists_reset_eq_ok (old : Scratch) : ∃ scratch, old.reset engine = .ok scratch := by
  simp only [reset, MarkerSet.resize, if_pos hroles]
  exact ⟨_, rfl⟩

end Room

variable (hsound : engine.IsSound)
include hsound

theorem fits_withMarkers {handled : MarkerSet} (hhandled : handled.IsSound)
    (hcapacity : handled.capacity = engine.roles.length) :
    (withMarkers engine handled).Fits engine where
  full := Array.size_replicate
  queues := List.length_replicate
  handled := hhandled
  handled_capacity := hcapacity
  triggered := rfl
  triggered_sized := FlagSet.isSized_empty hsound.slots_le_maxCapacity

theorem fits_of_fresh (run : fresh engine = .ok next) : next.Fits engine := by
  obtain ⟨handled, hhandled, hcapacity, rfl⟩ := exists_markers_of_fresh run
  exact fits_withMarkers hsound hhandled hcapacity

theorem fits_of_reset {old : Scratch} (run : old.reset engine = .ok next) : next.Fits engine := by
  obtain ⟨handled, hhandled, hcapacity, rfl⟩ := exists_markers_of_reset run
  exact fits_withMarkers hsound hhandled hcapacity

end Made

end Scratch

/-- The states that are made for the engine fit it, unless it has more flags of roles than there can
be words for. -/
structure Engine.MakesFitting (engine : Engine) : Prop where
  initial : (StreamState.initial engine).Fits engine ↔ engine.roleStates ≤ FlagSet.maxCapacity
  fresh : ∃ scratch, Scratch.fresh engine = .ok scratch ∧ scratch.Fits engine
  reset : ∀ old : Scratch, ∃ scratch, old.reset engine = .ok scratch ∧ scratch.Fits engine

theorem Engine.IsSound.makesFitting {engine : Engine} (hsound : engine.IsSound)
    (hroles : engine.roles.length ≤ MarkerSet.maxCapacity) : engine.MakesFitting := by
  refine ⟨StreamState.fits_initial_iff hsound, ?_, fun old => ?_⟩
  · obtain ⟨scratch, hfresh⟩ := Scratch.exists_fresh_eq_ok hroles
    exact ⟨scratch, hfresh, Scratch.fits_of_fresh hsound hfresh⟩
  · obtain ⟨scratch, hreset⟩ := Scratch.exists_reset_eq_ok hroles old
    exact ⟨scratch, hreset, Scratch.fits_of_reset hsound hreset⟩

/-! ## The states of a queue -/

section Queue

variable {engine : Engine} (hsound : engine.IsSound) {queue : Nat} {slot : Slot}
  (hslot : engine.slots[queue]? = some slot)
include hslot

theorem Engine.slot_eq_ok : engine.slot queue = .ok slot := elementAt_eq_ok_iff.2 hslot

theorem Engine.lt_length_of_slot : queue < engine.slots.length :=
  (List.getElem?_eq_some_iff.1 hslot).1

include hsound

/-- The short state of a queue has the length that the automaton expects. -/
theorem StreamState.Fits.storedOf_eq_ok {state : StreamState} (h : state.Fits engine) :
    ∃ short, state.storedOf engine queue = .ok short
      ∧ short.size = slot.automaton.streamLength := by
  have hstop := (hsound.slot slot (List.mem_of_getElem? hslot)).1
  have hle : slot.streamStart ≤ slot.streamStop := Nat.le_add_right ..
  have hsize : slot.streamStop ≤ state.stored.size := h.stored ▸ hstop
  refine ⟨state.stored.extract slot.streamStart slot.streamStop, ?_, ?_⟩
  · rw [storedOf, Engine.slot_eq_ok hslot]
    exact Bytes.slice_eq_ok hle hsize
  · rw [Array.size_extract, Nat.min_eq_left hsize, Slot.streamStop, Nat.add_sub_cancel_left]

namespace Scratch.Fits

variable {scratch : Scratch} (h : scratch.Fits engine)
include h

theorem slice_eq_ok : scratch.full.slice slot.fullStart slot.fullStop
      = .ok (scratch.full.extract slot.fullStart slot.fullStop)
    ∧ (scratch.full.extract slot.fullStart slot.fullStop).size = slot.automaton.fullLength := by
  have hstop := (hsound.slot slot (List.mem_of_getElem? hslot)).2
  have hsize : slot.fullStop ≤ scratch.full.size := h.full ▸ hstop
  refine ⟨Bytes.slice_eq_ok (Nat.le_add_right ..) hsize, ?_⟩
  rw [Array.size_extract, Nat.min_eq_left hsize, Slot.fullStop, Nat.add_sub_cancel_left]

/-- The full state of a queue has the length that the automaton expects. -/
theorem fullOf_eq_ok : ∃ full, scratch.fullOf engine queue = .ok full
    ∧ full.size = slot.automaton.fullLength := by
  obtain ⟨hslice, hsize⟩ := h.slice_eq_ok hsound hslot
  refine ⟨_, ?_, hsize⟩
  rw [fullOf, Engine.slot_eq_ok hslot]
  exact hslice

theorem setFull_eq_ok (full : Bytes) : ∃ next, scratch.setFull engine queue full = .ok next
    ∧ next.Fits engine ∧ next.delayed = scratch.delayed := by
  obtain ⟨hslice, -⟩ := h.slice_eq_ok hsound hslot
  refine ⟨{ scratch with full := scratch.full.refill slot.fullStart slot.fullStop full }, ?_,
    { h with full := (Bytes.size_refill ..).trans h.full }, rfl⟩
  rw [setFull, Engine.slot_eq_ok hslot]
  show (scratch.full.slice slot.fullStart slot.fullStop >>= fun _ => _) = _
  rw [hslice]
  rfl

omit hsound

theorem lt_length_queues : queue < scratch.queues.length :=
  h.queues ▸ Engine.lt_length_of_slot hslot

theorem queue_eq_ok : ∃ events, scratch.queue queue = .ok events := by
  rw [Scratch.queue, elementAt_eq_ok (h.lt_length_queues hslot)]
  exact ⟨_, rfl⟩

theorem clearQueue_eq_ok : ∃ next, scratch.clearQueue queue = .ok next
    ∧ next.Fits engine ∧ next.delayed = scratch.delayed := by
  refine ⟨{ scratch with queues := scratch.queues.set queue [] }, ?_,
    { h with queues := List.length_set.trans h.queues }, rfl⟩
  rw [clearQueue, replaceAt_eq_ok (h.lt_length_queues hslot)]
  rfl

theorem pushEvent_eq_ok (event : QueueEvent) : ∃ next, scratch.pushEvent queue event = .ok next
    ∧ next.Fits engine ∧ next.delayed = scratch.delayed := by
  have hlt := h.lt_length_queues hslot
  refine ⟨{ scratch with queues := scratch.queues.set queue (event :: scratch.queues[queue]) }, ?_,
    { h with queues := List.length_set.trans h.queues }, rfl⟩
  rw [pushEvent, elementAt_eq_ok hlt]
  show (replaceAt scratch.queues queue (event :: scratch.queues[queue]) >>= fun _ => _) = _
  rw [replaceAt_eq_ok hlt]
  rfl

end Scratch.Fits

end Queue

end Multimatch
