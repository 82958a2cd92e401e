import Multimatch.Codec.Bytes
import Multimatch.Control
import Multimatch.Ident

/-!
# Automata

The end of the data is also the end of the runs of smaller automata. How one of them works is its
own affair. It has a short state that is kept between the parts of a stream and a full state for
running; here it is only asked to get from one to the other, to take in a queue of events, and to
name the reports of its final state.

Reporting is a dialogue, since an automaton may look at the answer to one report before it makes the
next: `Dialogue.ask` makes a report and goes on with the signal that came back.
-/

namespace Multimatch

/-- What happens to an automaton. -/
inductive EventKind where
  /-- It is switched on. -/
  | top
  | finish
deriving DecidableEq, Repr

/-- An event, at a place counted from the start of the current buffer. Places in the history are
negative. -/
structure QueueEvent where
  kind : EventKind
  location : Int64
deriving DecidableEq, Repr

/-- The events that wait for an automaton, the latest first. -/
abbrev EventQueue := List QueueEvent

namespace EventQueue

@[reducible] def empty : EventQueue := []

@[reducible] def push (queue : EventQueue) (event : QueueEvent) : EventQueue := event :: queue

/-- The events in the order in which they came. -/
@[reducible] def events (queue : EventQueue) : List QueueEvent := queue.reverse

end EventQueue

/-- The reports of an automaton, one after the other, and the signal that it ends with. -/
inductive Dialogue where
  | done (control : Control)
  | fault (fault : Fault)
  | ask (offset : Nat) (id : ReportId) (next : Control → Dialogue)

/-- An automaton that runs beside the literal rules. -/
structure Automaton where
  /-- It may report exactly where the data ends. -/
  acceptsEnd : Bool
  /-- The bytes of the short state. -/
  streamLength : Nat
  /-- The bytes of the full state. -/
  fullLength : Nat
  /-- The full state for a short one. Given are the bytes of the full state as they are, the short
  state, the end of the data and the last byte before it, zero if there is none. -/
  expand : Bytes → Bytes → Nat → UInt8 → Except Fault Bytes
  /-- The full state before anything happened. -/
  prepare : Bytes → Except Fault Bytes
  /-- The reports of the full state. Given are the full state, the short state and the offset. -/
  finalReports : Bytes → Bytes → Nat → Dialogue
  /-- The full state after some events, and whether anything can still come of it. -/
  run : List QueueEvent → Bytes → Except Fault (Bytes × Bool)

/-- The full state of an automaton that has nothing of its own to prepare. -/
def Automaton.prepareZeros (full : Bytes) : Except Fault Bytes := .ok (full.map fun _ => 0)

/-- The bytes from `start` up to `stop` replaced by new ones, of which missing ones leave the old
byte and spare ones are dropped. No byte outside changes. -/
def Bytes.refill (bytes : Bytes) (start stop : Nat) (new : Bytes) : Bytes :=
  bytes.mapIdx fun place byte =>
    if start ≤ place ∧ place < stop then new[place - start]?.getD byte else byte

end Multimatch
