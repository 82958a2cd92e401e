import Multimatch.Proofs.EndOfData.Silent
import Multimatch.Proofs.EndOfData.Total
import Multimatch.Proofs.FlagSet

/-!
# Two passes side by side

Two passes that differ in what nobody should notice are twins (`Pass.Twins`): they agree on the
roles, on the automata that were triggered and on the events and full states of these, but the
markers of earlier walks, other events and other full states may differ. If the buffers of two
passes start at different places, so do the places of events, by one distance (`QueueEvent.moved`).
-/

namespace Multimatch

/-! ## Events of another buffer -/

/-- The event, counted from a buffer that starts earlier by the distance. -/
def QueueEvent.moved (distance : Int64) (event : QueueEvent) : QueueEvent :=
  { event with location := event.location + distance }

/-- The entry, counted from a buffer that starts earlier by the distance. -/
def JournalEntry.moved (distance : Int64) : JournalEntry → JournalEntry
  | .executed queue events full alive =>
    .executed queue (events.map (·.moved distance)) full alive
  | .triggered queue location => .triggered queue (location + distance)
  | entry => entry

theorem QueueEvent.moved_zero : QueueEvent.moved 0 = id := by
  funext event
  simp [moved]

theorem JournalEntry.moved_zero : JournalEntry.moved 0 = id := by
  funext entry
  cases entry <;> simp [moved, QueueEvent.moved_zero]

theorem JournalEntry.answer?_moved (distance : Int64) (entry : JournalEntry) :
    (entry.moved distance).answer? = entry.answer? := by
  cases entry <;> rfl

/-! ## What automata do not look at -/

/-- What writing over the bytes leaves, if there is something to write. -/
def Bytes.overwritten (bytes : Bytes) (made : Except Fault Bytes) : Except Fault Bytes :=
  made.map (Bytes.refill bytes 0 bytes.size)

namespace Automaton

/-- What is made of the bytes of a full state does not depend on the bytes that were there. -/
def WritesAnew (automaton : Automaton) (make : Bytes → Except Fault Bytes) : Prop :=
  ∀ ⦃full other : Bytes⦄, full.size = automaton.fullLength → other.size = automaton.fullLength →
    Bytes.overwritten full (make full) = Bytes.overwritten other (make other)

/-- What the automaton prepares does not depend on the bytes that were there before. -/
def PreparesAnew (automaton : Automaton) : Prop := automaton.WritesAnew automaton.prepare

/-- What the automaton expands does not depend on the bytes that were there before. -/
def ExpandsAnew (automaton : Automaton) : Prop :=
  ∀ (short : Bytes) offset key, short.size = automaton.streamLength →
    automaton.WritesAnew (automaton.expand · short offset key)

/-- Running over events does not depend on where the buffer starts. -/
def IgnoresStart (automaton : Automaton) (distance : Int64) : Prop :=
  ∀ events full, automaton.run (events.map (·.moved distance)) full = automaton.run events full

theorem ignoresStart_zero (automaton : Automaton) : automaton.IgnoresStart 0 := by
  intro events full
  rw [QueueEvent.moved_zero, List.map_id]

end Automaton

namespace Bytes

variable {bytes other new newOther : Bytes} {start stop place : Nat}

theorem getElem?_refill :
    (Bytes.refill bytes start stop new)[place]? = bytes[place]?.map fun byte =>
      if start ≤ place ∧ place < stop then new[place - start]?.getD byte else byte :=
  Array.getElem?_mapIdx

/-- As many new bytes take the place of all old ones. -/
theorem refill_eq_new (h : new.size = bytes.size) : Bytes.refill bytes 0 bytes.size new = new := by
  refine Array.ext_getElem? fun place => ?_
  rw [getElem?_refill]
  by_cases hlt : place < bytes.size
  · simp [hlt, h]
  · simp [hlt, h]

/-- A part of some bytes that was written over is what writing over the part leaves. -/
theorem getElem?_refill_inside (hsize : stop ≤ bytes.size) (hstart : start ≤ place)
    (hstop : place < stop) : (Bytes.refill bytes start stop new)[place]?
      = (Bytes.refill (bytes.extract start stop) 0 (stop - start) new)[place - start]? := by
  have hlt : place - start < stop - start := Nat.sub_lt_sub_right hstart hstop
  have hbound : place - start < min stop bytes.size - start := by omega
  rw [getElem?_refill, getElem?_refill, Array.getElem?_extract, if_pos hbound,
    Nat.add_sub_cancel' hstart]
  simp [hstart, hstop, hlt]

/-- Where two byte arrays agree, they still do after a part of both was written over so that the
parts are left equal. There they agree in any case. -/
theorem getElem?_refill_eq (hsize : stop ≤ bytes.size) (hsize' : stop ≤ other.size)
    (hnew : Bytes.refill (bytes.extract start stop) 0 (stop - start) new
      = Bytes.refill (other.extract start stop) 0 (stop - start) newOther)
    (h : (start ≤ place ∧ place < stop) ∨ bytes[place]? = other[place]?) :
    (Bytes.refill bytes start stop new)[place]?
      = (Bytes.refill other start stop newOther)[place]? := by
  by_cases hinside : start ≤ place ∧ place < stop
  · rw [getElem?_refill_inside hsize hinside.1 hinside.2,
      getElem?_refill_inside hsize' hinside.1 hinside.2, hnew]
  · rcases h with h | h
    · exact absurd h hinside
    · rw [getElem?_refill, getElem?_refill, h]
      simp only [if_neg hinside]

end Bytes

/-- Zeros are the same whatever they take the place of. -/
theorem Automaton.preparesAnew_of_zeros {automaton : Automaton}
    (hzeros : automaton.prepare = prepareZeros) : automaton.PreparesAnew := by
  intro full other hfull hother
  have hsize (bytes : Bytes) : (bytes.map fun _ => (0 : UInt8)).size = bytes.size := Array.size_map
  have hequal : (full.map fun _ => (0 : UInt8)) = other.map fun _ => (0 : UInt8) := by
    rw [Array.map_const', Array.map_const', hfull, hother]
  rw [hzeros]
  show Except.ok _ = Except.ok _
  rw [Bytes.refill_eq_new (hsize full), Bytes.refill_eq_new (hsize other), hequal]

section Latch

variable (report : ReportId)

theorem Automaton.preparesAnew_latch : (latch report).PreparesAnew := preparesAnew_of_zeros rfl

theorem Automaton.expandsAnew_latch : (latch report).ExpandsAnew := by
  intro short offset key hshort full other hfull hother
  have hshort : short.size = 1 := hshort
  show Except.ok _ = Except.ok _
  rw [Bytes.refill_eq_new (hshort.trans hfull.symm), Bytes.refill_eq_new (hshort.trans hother.symm)]

end Latch

/-! ## Working space for an engine -/

/-- The working space has the sizes that the engine needs in every part. -/
structure Scratch.Suited (engine : Engine) (scratch : Scratch) : Prop
    extends scratch.Fits engine where
  enabled : scratch.enabled.length = engine.triggers.length

theorem Scratch.suited_withMarkers {engine : Engine} (hsound : engine.IsSound)
    {handled : MarkerSet} (hhandled : handled.IsSound)
    (hcapacity : handled.capacity = engine.roles.length) :
    (withMarkers engine handled).Suited engine where
  toFits := fits_withMarkers hsound hhandled hcapacity
  enabled := List.length_replicate

namespace Scratch

variable {engine : Engine} {scratch a b : Scratch} {queue : Nat} {slot : Slot}

/-- The working space after an automaton was marked, which has no events yet. -/
def marked (scratch : Scratch) (queue : Nat) (triggered : FlagSet) : Scratch :=
  { scratch with queues := scratch.queues.set queue [], triggered }

/-- The working space with a slot written over. -/
def written (scratch : Scratch) (slot : Slot) (made : Bytes) : Scratch :=
  { scratch with full := Bytes.refill scratch.full slot.fullStart slot.fullStop made }

section Queue

variable (hsound : engine.IsSound) (hslot : engine.slots[queue]? = some slot)
include hsound hslot

theorem Fits.fullStop_le (h : scratch.Fits engine) : slot.fullStop ≤ scratch.full.size :=
  h.full ▸ (hsound.slot slot (List.mem_of_getElem? hslot)).2

theorem Fits.fullOf_eq (h : scratch.Fits engine) : scratch.fullOf engine queue
    = .ok (scratch.full.extract slot.fullStart slot.fullStop) := by
  rw [fullOf, Engine.slot_eq_ok hslot]
  exact (h.slice_eq_ok hsound hslot).1

theorem Fits.setFull_eq (h : scratch.Fits engine) (full : Bytes) :
    scratch.setFull engine queue full = .ok (scratch.written slot full) := by
  rw [setFull, Engine.slot_eq_ok hslot]
  show (scratch.full.slice slot.fullStart slot.fullStop >>= fun _ => _) = _
  rw [(h.slice_eq_ok hsound hslot).1]
  rfl

end Queue

theorem Fits.clearQueue_eq (h : scratch.Fits engine) (hslot : engine.slots[queue]? = some slot) :
    scratch.clearQueue queue = .ok { scratch with queues := scratch.queues.set queue [] } := by
  rw [clearQueue, replaceAt_eq_ok (h.lt_length_queues hslot)]
  rfl

theorem Suited.marked (h : scratch.Suited engine) {triggered : FlagSet}
    (hinsert : scratch.triggered.insert queue = .ok triggered) :
    (scratch.marked queue triggered).Suited engine :=
  { h with
    queues := List.length_set.trans h.queues
    triggered := (FlagSet.sameShape_of_insert hinsert).capacity.trans h.triggered
    triggered_sized := FlagSet.isSized_of_insert h.triggered_sized hinsert }

theorem Suited.written (h : scratch.Suited engine) (slot : Slot) (made : Bytes) :
    (scratch.written slot made).Suited engine :=
  { h with full := (Bytes.size_refill ..).trans h.full }

theorem Fits.pushEvent_eq (h : scratch.Fits engine) (hslot : engine.slots[queue]? = some slot)
    (event : QueueEvent) : scratch.pushEvent queue event = .ok { scratch with
      queues := scratch.queues.modify queue (event :: ·) } := by
  have hlt := h.lt_length_queues hslot
  rw [pushEvent, elementAt_eq_ok hlt]
  show (replaceAt scratch.queues queue (event :: scratch.queues[queue]) >>= fun _ => _) = _
  rw [replaceAt_eq_ok hlt, List.modify_eq_set, List.getElem?_eq_getElem hlt]
  rfl

end Scratch

/-- Which triggers are enabled does not depend on which were. -/
theorem Occasion.enabledTriggers_eq {σ : Type} (occasion : Occasion σ) {enabled : List Bool}
    (hlength : enabled.length = occasion.engine.triggers.length) (groups : Groups) :
    occasion.enabledTriggers groups enabled
      = occasion.engine.triggers.map (·.groups.meets groups) := by
  have hrest : enabled.drop occasion.engine.triggers.length = [] :=
    List.drop_eq_nil_of_le (Nat.le_of_eq hlength)
  rw [enabledTriggers, hrest, List.append_nil]
  refine List.ext_getElem ?_ fun index _ _ => ?_
  · rw [List.length_zipWith, List.length_map, hlength, Nat.min_self]
  · rw [List.getElem_zipWith, List.getElem_map]

/-- The short state of a queue is where the short states are. -/
theorem StreamState.storedOf_congr {state other : StreamState} (h : state.stored = other.stored)
    (engine : Engine) (queue : Nat) :
    state.storedOf engine queue = other.storedOf engine queue := by
  rw [storedOf, storedOf, h]

/-! ## Twins -/

/-- The place is in the full state of one of some queues. -/
def Engine.Covers (engine : Engine) (queues : Nat → Prop) (place : Nat) : Prop :=
  ∃ queue slot, queues queue ∧ engine.slots[queue]? = some slot
    ∧ slot.fullStart ≤ place ∧ place < slot.fullStop

/-- What is said of two passes throughout. -/
structure Link where
  /-- The streams and the callers are the same. -/
  same : Prop
  /-- The full states are the same, be it of automata that were not triggered. -/
  whole : Prop
  /-- By how much the buffer of the first pass starts before that of the second. -/
  distance : Int64
  /-- The journal of the first pass before. -/
  first : List JournalEntry
  /-- The journal of the second pass before. -/
  second : List JournalEntry

/-- What is known of two passes at some stage. -/
structure Stage where
  /-- The same roles are on, and the same automata are active. -/
  near : Prop
  /-- Triggers were looked for up to the same place. -/
  caught : Prop
  /-- Every automaton that is active has been triggered. -/
  heard : Prop
  /-- The same roles have been fired by this walk. -/
  marked : Prop
  /-- These queues have been triggered. -/
  triggered : Nat → Prop

/-- Two working spaces agree on what was triggered. -/
structure Scratch.Twins (engine : Engine) (whole : Prop) (distance : Int64) (a b : Scratch) :
    Prop where
  left : a.Suited engine
  right : b.Suited engine
  triggered : a.triggered = b.triggered
  delayed : a.delayed = b.delayed
  enabled : a.enabled = b.enabled
  events : ∀ queue, a.triggered.isOn queue = true →
    a.queues[queue]? = b.queues[queue]?.map (·.map (·.moved distance))
  full : ∀ place, whole ∨ engine.Covers (a.triggered.isOn · = true) place →
    a.full[place]? = b.full[place]?

namespace Scratch.Twins

variable {engine : Engine} {whole : Prop} {distance : Int64} {a b : Scratch} {queue : Nat}
  {slot : Slot} {made made' : Bytes}

/-- Automata whose full states are the same read the same. -/
theorem extract_eq (h : a.Twins engine whole distance b)
    (hslot : engine.slots[queue]? = some slot)
    (hqueue : whole ∨ a.triggered.isOn queue = true) :
    a.full.extract slot.fullStart slot.fullStop = b.full.extract slot.fullStart slot.fullStop := by
  refine Array.ext_getElem? fun index => ?_
  rw [Array.getElem?_extract, Array.getElem?_extract, h.left.full, h.right.full]
  split
  · next hlt =>
    refine h.full _ (hqueue.imp_right fun htriggered => ?_)
    exact ⟨queue, slot, htriggered, hslot, Nat.le_add_right .., by omega⟩
  · rfl

/-- The full states of a queue are made into the same, if that is what the automaton does. -/
theorem made_cases (h : a.Twins engine whole distance b) (hsound : engine.IsSound)
    (hslot : engine.slots[queue]? = some slot) {make : Bytes → Except Fault Bytes}
    (hmake : whole ∨ slot.automaton.WritesAnew make) :
    let full := a.full.extract slot.fullStart slot.fullStop
    let other := b.full.extract slot.fullStart slot.fullStop
    (∃ fault, make full = .error fault ∧ make other = .error fault)
      ∨ ∃ made made', make full = .ok made ∧ make other = .ok made'
        ∧ Bytes.refill full 0 (slot.fullStop - slot.fullStart) made
          = Bytes.refill other 0 (slot.fullStop - slot.fullStart) made' := by
  intro full other
  have hfull : full.size = slot.automaton.fullLength := (h.left.slice_eq_ok hsound hslot).2
  have hother : other.size = slot.automaton.fullLength := (h.right.slice_eq_ok hsound hslot).2
  have hlength : slot.fullStop - slot.fullStart = slot.automaton.fullLength :=
    Nat.add_sub_cancel_left ..
  have hwritten : Bytes.overwritten full (make full) = Bytes.overwritten other (make other) := by
    rcases hmake with hwhole | hanew
    · rw [show full = other from h.extract_eq hslot (.inl hwhole)]
    · exact hanew hfull hother
  unfold Bytes.overwritten at hwritten
  rw [hfull, hother] at hwritten
  rw [hlength]
  cases hmade : make full with
  | error fault =>
    cases hmade' : make other with
    | error fault' =>
      rw [hmade, hmade'] at hwritten
      cases hwritten
      exact .inl ⟨fault, rfl, rfl⟩
    | ok made' =>
      rw [hmade, hmade'] at hwritten
      cases hwritten
  | ok made =>
    cases hmade' : make other with
    | error fault' =>
      rw [hmade, hmade'] at hwritten
      cases hwritten
    | ok made' =>
      rw [hmade, hmade'] at hwritten
      exact .inr ⟨made, made', rfl, rfl, Except.ok.inj hwritten⟩

/-- The full state of an automaton that was triggered is the same. -/
theorem fullOf_eq (h : a.Twins engine whole distance b) (hsound : engine.IsSound)
    (hslot : engine.slots[queue]? = some slot)
    (hqueue : whole ∨ a.triggered.isOn queue = true) :
    a.fullOf engine queue = b.fullOf engine queue := by
  rw [h.left.fullOf_eq hsound hslot, h.right.fullOf_eq hsound hslot, h.extract_eq hslot hqueue]

section Refill

variable (h : a.Twins engine whole distance b) (hsound : engine.IsSound)
  (hslot : engine.slots[queue]? = some slot)
  (hmade : Bytes.refill (a.full.extract slot.fullStart slot.fullStop) 0
      (slot.fullStop - slot.fullStart) made
    = Bytes.refill (b.full.extract slot.fullStart slot.fullStop) 0
      (slot.fullStop - slot.fullStart) made')
include h hsound hslot hmade

/-- The full state of a queue is the same once it was written over so that it is left equal. -/
theorem extract_written_eq :
    (a.written slot made).full.extract slot.fullStart slot.fullStop
      = (b.written slot made').full.extract slot.fullStart slot.fullStop := by
  refine Array.ext_getElem? fun index => ?_
  rw [Scratch.written, Scratch.written, Array.getElem?_extract, Array.getElem?_extract,
    Bytes.size_refill, Bytes.size_refill, h.left.full, h.right.full]
  split
  · next hlt =>
    exact Bytes.getElem?_refill_eq (h.left.fullStop_le hsound hslot)
      (h.right.fullStop_le hsound hslot) hmade (.inl ⟨Nat.le_add_right .., by omega⟩)
  · rfl

/-- Writing over the full state of a queue makes it count, and keeps equal what was. -/
theorem full_refill {triggered : FlagSet}
    (htriggered : ∀ other, triggered.isOn other = true →
      other = queue ∨ a.triggered.isOn other = true) {place : Nat}
    (hplace : whole ∨ engine.Covers (triggered.isOn · = true) place) :
    (Bytes.refill a.full slot.fullStart slot.fullStop made)[place]?
      = (Bytes.refill b.full slot.fullStart slot.fullStop made')[place]? := by
  refine Bytes.getElem?_refill_eq (h.left.fullStop_le hsound hslot)
    (h.right.fullStop_le hsound hslot) hmade ?_
  rcases hplace with hwhole | ⟨other, otherSlot, hother, hotherSlot, hstart, hstop⟩
  · exact .inr (h.full place (.inl hwhole))
  · rcases htriggered other hother with rfl | hother
    · cases hslot.symm.trans hotherSlot
      exact .inl ⟨hstart, hstop⟩
    · exact .inr (h.full place (.inr ⟨other, otherSlot, hother, hotherSlot, hstart, hstop⟩))

theorem written : Scratch.Twins engine whole distance (a.written slot made)
    (b.written slot made') :=
  { h with
    left := h.left.written slot made
    right := h.right.written slot made'
    full := fun _ hplace => h.full_refill hsound hslot hmade (fun _ hother => .inr hother) hplace }

/-- An automaton that is prepared counts from now on, with no events. -/
theorem prepared {triggered : FlagSet} (hinsert : a.triggered.insert queue = .ok triggered) :
    Scratch.Twins engine whole distance ((a.marked queue triggered).written slot made)
      ((b.marked queue triggered).written slot made') := by
  have hcount (other : Nat) (hother : triggered.isOn other = true) :
      other = queue ∨ a.triggered.isOn other = true :=
    FlagSet.eq_or_isOn_of_insert hinsert hother
  refine { h with
    left := (h.left.marked hinsert).written slot made
    right := (h.right.marked (h.triggered ▸ hinsert)).written slot made'
    triggered := rfl
    events := fun other hother => ?_
    full := fun place hplace => h.full_refill hsound hslot hmade hcount hplace }
  show (a.queues.set queue [])[other]? = (b.queues.set queue [])[other]?.map _
  by_cases heq : queue = other
  · subst heq
    rw [List.getElem?_set_self (h.left.lt_length_queues hslot),
      List.getElem?_set_self (h.right.lt_length_queues hslot)]
    rfl
  · rw [List.getElem?_set_ne heq, List.getElem?_set_ne heq]
    exact h.events other ((hcount other hother).resolve_left (Ne.symm heq))

end Refill

theorem pushEvent (h : a.Twins engine whole distance b) (event : QueueEvent) :
    Scratch.Twins engine whole distance
      { a with queues := a.queues.modify queue (event.moved distance :: ·) }
      { b with queues := b.queues.modify queue (event :: ·) } := by
  have hleft : { a with
      queues := a.queues.modify queue (event.moved distance :: ·) : Scratch }.Suited engine :=
    { h.left with queues := (List.length_modify ..).trans h.left.queues }
  have hright : { b with
      queues := b.queues.modify queue (event :: ·) : Scratch }.Suited engine :=
    { h.right with queues := (List.length_modify ..).trans h.right.queues }
  refine { h with left := hleft, right := hright, events := fun other hother => ?_ }
  have hevents := h.events other hother
  rw [List.getElem?_modify, List.getElem?_modify, hevents]
  cases b.queues[other]? with
  | none => rfl
  | some events =>
    by_cases heq : queue = other
    · simp [heq]
    · simp [heq]

/-- The events of an automaton that was triggered are the same, up to their distance. -/
theorem queue_eq (h : a.Twins engine whole distance b)
    (hqueue : a.triggered.isOn queue = true) :
    a.queue queue = (b.queue queue).map (·.map (·.moved distance)) := by
  have hevents := h.events queue hqueue
  have hlength : a.queues.length = b.queues.length := h.left.queues.trans h.right.queues.symm
  unfold Scratch.queue elementAt
  rw [hevents, hlength]
  cases b.queues[queue]? with
  | none => rfl
  | some events => exact congrArg Except.ok (List.map_reverse ..).symm

end Scratch.Twins

/-! ### Where nothing was triggered -/

namespace Occasion

variable {σ : Type} {occasion : Occasion σ} {a b scratch : Scratch}

/-- The working space with nothing triggered, and with triggers of live groups enabled. -/
def cleared (occasion : Occasion σ) (groups : Groups) (scratch : Scratch) : Scratch :=
  { scratch with
    triggered := scratch.triggered.clear
    enabled := occasion.enabledTriggers groups scratch.enabled }

theorem suited_cleared (h : scratch.Suited occasion.engine) (groups : Groups) :
    (occasion.cleared groups scratch).Suited occasion.engine :=
  have henabled := occasion.enabledTriggers_eq h.enabled groups
  { h with
    triggered_sized := FlagSet.isSized_clear h.triggered_sized
    enabled := (congrArg List.length henabled).trans (List.length_map _) }

/-- Where nothing was triggered, working spaces agree if the same actions wait, and the full states
are the same if that is said. -/
theorem twins_cleared {whole : Prop} {distance : Int64} (ha : a.Suited occasion.engine)
    (hb : b.Suited occasion.engine) (hdelayed : a.delayed = b.delayed)
    (hfull : whole → ∀ place : Nat, a.full[place]? = b.full[place]?) (groups : Groups) :
    Scratch.Twins occasion.engine whole distance (occasion.cleared groups a)
      (occasion.cleared groups b) := by
  have hshape : a.triggered.SameShape b.triggered :=
    ha.triggered_sized.sameShape hb.triggered_sized (ha.triggered.trans hb.triggered.symm)
  have hleft := occasion.enabledTriggers_eq ha.enabled groups
  have hright := occasion.enabledTriggers_eq hb.enabled groups
  have hnone {queue : Nat} (hqueue : a.triggered.clear.isOn queue = true) : False :=
    Bool.false_ne_true ((FlagSet.isOn_clear _ queue).symm.trans hqueue)
  refine {
    left := suited_cleared ha groups
    right := suited_cleared hb groups
    triggered := hshape.clear_eq
    delayed := hdelayed
    enabled := hleft.trans hright.symm
    events := fun queue hqueue => (hnone hqueue).elim
    full := fun place hplace => ?_ }
  rcases hplace with hwhole | ⟨queue, slot, hqueue, -⟩
  · exact hfull hwhole place
  · exact (hnone hqueue).elim

end Occasion

namespace Pass

variable {σ : Type}

/-- What the outside sees of two passes is the same, up to where their buffers start. -/
structure Shown (link : Link) (p q : Pass σ) : Prop where
  same : link.same → p.stream = q.stream ∧ p.caller = q.caller
  journal : ∃ entries, p.journal = entries.map (·.moved link.distance) ++ link.first
    ∧ q.journal = entries ++ link.second

theorem Shown.journal_cons {link : Link} {p q : Pass σ} (h : Shown link p q)
    (entry : JournalEntry) : ∃ entries,
      entry.moved link.distance :: p.journal = entries.map (·.moved link.distance) ++ link.first
        ∧ entry :: q.journal = entries ++ link.second := by
  obtain ⟨entries, hfirst, hsecond⟩ := h.journal
  exact ⟨entry :: entries, congrArg (_ :: ·) hfirst, congrArg (_ :: ·) hsecond⟩

/-- If two buffers start at the same place, what was added to the journals is the same. -/
theorem Shown.exists_entries {link : Link} {p q : Pass σ} (h : Shown link p q)
    (hzero : link.distance = 0) :
    ∃ entries, p.journal = entries ++ link.first ∧ q.journal = entries ++ link.second := by
  obtain ⟨entries, hfirst, hsecond⟩ := h.journal
  rw [hzero, JournalEntry.moved_zero, List.map_id] at hfirst
  exact ⟨entries, hfirst, hsecond⟩

/-- Two passes have ended alike, be it at a fault. -/
structure Stopped (engine : Engine) (link : Link) (p q : Pass σ) : Prop
    extends Shown link p q where
  left : p.scratch.Suited engine
  right : q.scratch.Suited engine

/-- Two passes go on alike. -/
structure Twins (engine : Engine) (link : Link) (stage : Stage) (p q : Pass σ) : Prop
    extends Shown link p q where
  roles : p.stream.roles.SameShape q.stream.roles
  leaves : p.stream.leaves.SameShape q.stream.leaves
  near : stage.near → p.stream.roles = q.stream.roles ∧ p.stream.leaves = q.stream.leaves
  stored : p.stream.stored = q.stream.stored
  halted : p.halted = q.halted
  groups : p.groups = q.groups
  lastEnd : p.lastEnd = q.lastEnd
  caughtUpTo : stage.caught → p.caughtUpTo = q.caughtUpTo
  scratch : p.scratch.Twins engine link.whole link.distance q.scratch
  heard : stage.heard → ∀ queue, p.stream.leaves.isOn queue = true →
    p.scratch.triggered.isOn queue = true
  marked : stage.marked → ∀ value,
    p.scratch.handled.contains value = q.scratch.handled.contains value
  triggered : ∀ queue, stage.triggered queue → p.scratch.triggered.isOn queue = true

end Pass

/-- Two passes that will go on alike once they have forgotten what was pending. -/
structure Pass.Apart {σ : Type} (engine : Engine) (link : Link) (caught : Prop) (p q : Pass σ) :
    Prop extends Stopped engine link p q where
  roles : p.stream.roles.SameShape q.stream.roles
  leaves : p.stream.leaves.SameShape q.stream.leaves
  stored : p.stream.stored = q.stream.stored
  halted : p.halted = q.halted
  groups : p.groups = q.groups
  lastEnd : p.lastEnd = q.lastEnd
  caughtUpTo : caught → p.caughtUpTo = q.caughtUpTo
  delayed : p.scratch.delayed = q.scratch.delayed
  full : link.whole → ∀ place : Nat, p.scratch.full[place]? = q.scratch.full[place]?

/-- The stage of passes that have just forgotten what was pending. -/
def Stage.forgotten (caught : Prop) : Stage where
  near := True
  caught := caught
  heard := True
  marked := False
  triggered _ := False

/-- What is known at the one stage is known at the other. -/
structure Stage.Le (less more : Stage) : Prop where
  near : less.near → more.near
  caught : less.caught → more.caught
  heard : less.heard → more.heard
  marked : less.marked → more.marked
  triggered : ∀ queue, less.triggered queue → more.triggered queue

/-- The stage of passes that are over. -/
def Stage.last : Stage where
  near := True
  caught := False
  heard := False
  marked := False
  triggered _ := False

theorem Stage.last_le {stage : Stage} (hnear : stage.near) : Stage.last.Le stage :=
  ⟨fun _ => hnear, False.elim, False.elim, False.elim, fun _ => False.elim⟩

theorem Stage.Le.refl (stage : Stage) : stage.Le stage := ⟨id, id, id, id, fun _ => id⟩

namespace Pass.Twins

variable {σ : Type} {engine : Engine} {link : Link} {less more stage : Stage} {p q : Pass σ}

theorem stopped (h : Twins engine link stage p q) : Stopped engine link p q :=
  { h with left := h.scratch.left, right := h.scratch.right }

theorem apart (h : Twins engine link stage p q) : Apart engine link stage.caught p q where
  toStopped := h.stopped
  roles := h.roles
  leaves := h.leaves
  stored := h.stored
  halted := h.halted
  groups := h.groups
  lastEnd := h.lastEnd
  caughtUpTo := h.caughtUpTo
  delayed := h.scratch.delayed
  full hwhole place := h.scratch.full place (.inl hwhole)

theorem mono (h : Twins engine link more p q) (hle : less.Le more) :
    Twins engine link less p q :=
  { h with
    near := fun hnear => h.near (hle.near hnear)
    caughtUpTo := fun hcaught => h.caughtUpTo (hle.caught hcaught)
    heard := fun hheard => h.heard (hle.heard hheard)
    marked := fun hmarked => h.marked (hle.marked hmarked)
    triggered := fun queue hqueue => h.triggered queue (hle.triggered queue hqueue) }

end Pass.Twins

end Multimatch
