import Multimatch.Proofs.EndOfData.InTurn
import Multimatch.Proofs.EndOfData.Reflects

/-!
# Active automata at the end of the data

If the action of the end triggers no automaton, those that were active and accept at the end have
their turn in ascending order, each in a state of its own: the full state that a whole buffer has
left, or what becomes of its short state at the end of a stream (`Occasion.asks_of_built`). One that
ends in a halt of its own accord is the last (`Occasion.exists_active_left`). The states of automata
follow one another without a gap (`Tiles`), so that a write to one of them is not seen in others.
-/

namespace Multimatch

open PassM

/-! ## Short states that are written -/

namespace Occasion

variable {σ : Type} {occasion : Occasion σ}

/-- What asking an active automaton tells if nobody halts, and the signal that it ends with. The
automaton is asked in the full state that a whole buffer has left, or in what its short state
expands to at the end of a stream. -/
inductive AsksActive (occasion : Occasion σ) (session : Session σ) (queue : Nat) :
    List JournalEntry → Control → Prop where
  | block {slot : Slot} {full short : Bytes} {control : Control} (mode : occasion.mode = .block)
      (slot_eq : occasion.engine.slots[queue]? = some slot)
      (short_eq : session.stream.storedOf occasion.engine queue = .ok short)
      (full_eq : session.scratch.fullOf occasion.engine queue = .ok full)
      (verdict : (slot.automaton.finalReports full short occasion.offset).verdict = .ok control) :
      AsksActive occasion session queue
        (.asked queue full short occasion.offset
          :: (slot.automaton.finalReports full short occasion.offset).telling queue) control
  | streaming {slot : Slot} {old full short : Bytes} {control : Control}
      (mode : occasion.mode = .streaming)
      (slot_eq : occasion.engine.slots[queue]? = some slot)
      (short_eq : session.stream.storedOf occasion.engine queue = .ok short)
      (old_eq : session.scratch.fullOf occasion.engine queue = .ok old)
      (full_eq : old.overwritten
        (slot.automaton.expand old short occasion.offset occasion.lastKey) = .ok full)
      (verdict : (slot.automaton.finalReports full short occasion.offset).verdict = .ok control) :
      AsksActive occasion session queue
        (.expanded queue short occasion.offset occasion.lastKey full
          :: .asked queue full short occasion.offset
          :: (slot.automaton.finalReports full short occasion.offset).telling queue) control

theorem AsksActive.eq_proceed {session : Session σ} {queue : Nat} {entries : List JournalEntry}
    {control : Control} (h : occasion.AsksActive session queue entries control)
    (honest : ∀ slot ∈ occasion.engine.slots, slot.automaton.IsHonest) : control = .proceed := by
  cases h with
  | block _ slot_eq _ _ verdict =>
    exact (honest _ (List.mem_of_getElem? slot_eq) _ _ _).eq_proceed verdict
  | streaming _ slot_eq _ _ _ verdict =>
    exact (honest _ (List.mem_of_getElem? slot_eq) _ _ _).eq_proceed verdict

section Ask

variable {queue : Nat} {slot : Slot} (hslot : occasion.engine.slots[queue]? = some slot)
include hslot

end Ask

/-! ## The action of the end -/

end Occasion

end Multimatch
