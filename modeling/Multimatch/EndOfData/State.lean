import Multimatch.FlagSet
import Multimatch.MarkerSet
import Multimatch.Rules.Engine

/-!
# The states of a pass

A stream keeps its `StreamState` from one call to the next. A `Scratch` is working space for one
call at a time: nothing in it means anything to the next call, except for the full states that the
scan of a whole buffer leaves behind. Neither knows its engine, so that one made for another
engine may turn out too small.
-/

namespace Multimatch

/-- What is kept between the parts of a stream. -/
structure StreamState where
  groups : Groups
  /-- The flags of roles that are on. -/
  roles : FlagSet
  /-- The queues of automata that are active. -/
  leaves : FlagSet
  lastEnd : Nat
  /-- The short states of all automata. -/
  stored : Bytes
deriving DecidableEq, Repr

namespace StreamState

/-- The state of a stream before its first byte. -/
def initial (engine : Engine) : StreamState :=
  { groups := engine.initialGroups
    roles := .empty engine.roleStates
    leaves := .empty engine.slots.length
    lastEnd := 0
    stored := Array.replicate engine.streamLength 0 }

def storedOf (state : StreamState) (engine : Engine) (queue : Nat) : Except Fault Bytes := do
  let slot ← engine.slot queue
  state.stored.slice slot.streamStart slot.streamStop

/-- The state with another short state for a queue. -/
def store (state : StreamState) (engine : Engine) (queue : Nat) (short : Bytes) :
    Except Fault StreamState := do
  let slot ← engine.slot queue
  let _ ← state.stored.slice slot.streamStart slot.streamStop
  return { state with stored := state.stored.refill slot.streamStart slot.streamStop short }

/-- The bytes that the state takes in memory. The flags are counted in 64 bits. -/
def memory (state : StreamState) : Nat :=
  (state.roles.capacity + state.leaves.capacity + 7) % Reader.wordLimit / 8 + state.stored.size

end StreamState

/-- An action that waits until some bytes have followed. -/
structure Delayed where
  due : Nat
  id : LiteralId
deriving DecidableEq, Repr

namespace Delayed

/-- Waiting actions are in the order of their offsets, then of their literals. -/
def precedes (a b : Delayed) : Bool :=
  a.due < b.due || (a.due == b.due && a.id.toNat < b.id.toNat)

/-- Adds a waiting action, unless it waits already. -/
def insert (delayed : Delayed) : List Delayed → List Delayed
  | [] => [delayed]
  | other :: others =>
    if delayed.precedes other then delayed :: other :: others
    else if delayed = other then other :: others
    else other :: insert delayed others

end Delayed

/-- The working space of a call. -/
structure Scratch where
  /-- The full states of all automata. -/
  full : Bytes
  /-- The events that wait for each automaton. -/
  queues : List EventQueue
  /-- The roles that the current walk has fired. -/
  handled : MarkerSet
  triggered : FlagSet
  delayed : List Delayed
  enabled : List Bool
deriving DecidableEq

namespace Scratch

def eventLength : Nat := 16

def delayedLength : Nat := 16

/-- Working space for an engine, with the given markers in place of fresh ones. -/
def withMarkers (engine : Engine) (handled : MarkerSet) : Scratch :=
  { full := Array.replicate engine.fullLength 0
    queues := List.replicate engine.slots.length .empty
    handled
    triggered := .empty engine.slots.length
    delayed := []
    enabled := List.replicate engine.triggers.length false }

def fresh (engine : Engine) : Except Fault Scratch := do
  return withMarkers engine (← MarkerSet.empty engine.roles.length)

/-- The working space made ready for another engine. -/
def reset (scratch : Scratch) (engine : Engine) : Except Fault Scratch := do
  return withMarkers engine (← scratch.handled.resize engine.roles.length)

def fullOf (scratch : Scratch) (engine : Engine) (queue : Nat) : Except Fault Bytes := do
  let slot ← engine.slot queue
  scratch.full.slice slot.fullStart slot.fullStop

/-- The working space with another full state for a queue. -/
def setFull (scratch : Scratch) (engine : Engine) (queue : Nat) (full : Bytes) :
    Except Fault Scratch := do
  let slot ← engine.slot queue
  let _ ← scratch.full.slice slot.fullStart slot.fullStop
  return { scratch with full := scratch.full.refill slot.fullStart slot.fullStop full }

def queue (scratch : Scratch) (queue : Nat) : Except Fault (List QueueEvent) := do
  return (← elementAt scratch.queues queue).events

/-- The working space with no events for a queue. -/
def clearQueue (scratch : Scratch) (queue : Nat) : Except Fault Scratch := do
  return { scratch with queues := ← replaceAt scratch.queues queue .empty }

/-- The working space with one more event for a queue. -/
def pushEvent (scratch : Scratch) (queue : Nat) (event : QueueEvent) : Except Fault Scratch := do
  let waiting ← elementAt scratch.queues queue
  return { scratch with queues := ← replaceAt scratch.queues queue (waiting.push event) }

/-- A new event comes after those that wait already. -/
theorem queue_of_pushEvent {scratch next : Scratch} {queue : Nat} {event : QueueEvent}
    (run : scratch.pushEvent queue event = .ok next) :
    ∃ events, scratch.queue queue = .ok events ∧ next.queue queue = .ok (events ++ [event]) := by
  by_cases inside : queue < scratch.queues.length
  · refine ⟨scratch.queues[queue].reverse, ?_, ?_⟩
    · simp [Scratch.queue, elementAt, inside, bind, Except.bind, pure, Except.pure]
    · simp only [pushEvent, elementAt, replaceAt, inside, List.getElem?_eq_getElem, if_true, bind,
        Except.bind, pure, Except.pure, Except.ok.injEq] at run
      subst run
      simp [Scratch.queue, elementAt, inside, bind, Except.bind, pure, Except.pure]
  · simp [pushEvent, elementAt, inside, bind, Except.bind] at run

/-- The bytes that the working space takes in memory. -/
def memory (scratch : Scratch) : Nat :=
  scratch.full.size + eventLength * scratch.queues.flatten.length + scratch.handled.memory
    + (scratch.triggered.capacity + 7) / 8 + delayedLength * scratch.delayed.length
    + scratch.enabled.length

end Scratch

end Multimatch
