import Multimatch.Rules.Action
import Multimatch.Rules.Automaton
import Multimatch.Rules.Role
import Multimatch.Table.Basic

/-!
# Engines

An engine is a set of rules that was found to fit together: everything that a rule refers to exists.
It never changes and may serve any number of streams.
-/

namespace Multimatch

/-- An automaton and where its states are. -/
structure Slot where
  automaton : Automaton
  streamStart : Nat
  fullStart : Nat

namespace Slot

def streamStop (slot : Slot) : Nat := slot.streamStart + slot.automaton.streamLength

def fullStop (slot : Slot) : Nat := slot.fullStart + slot.automaton.fullLength

/-- The automata with their states one after the other, the first ones at the given places. -/
def layOut : (streamStart fullStart : Nat) → List Automaton → List Slot
  | _, _, [] => []
  | streamStart, fullStart, automaton :: automata =>
    let slot : Slot := { automaton, streamStart, fullStart }
    slot :: layOut slot.streamStop slot.fullStop automata

end Slot

/-- The literals that are looked for at the end of the data. -/
structure EndMatcher where
  table : LiteralTable
  minWidth : Nat
  /-- Only matches that end in the last bytes count, as many as this. -/
  region : Nat

/-- Rules that fit together. -/
structure Engine where
  roles : List Role
  predicates : List Predicate
  roleStates : Nat
  walk : List WalkStop
  actions : Actions
  /-- The literal whose action the end of the data runs. -/
  endEvent? : Option LiteralId
  slots : List Slot
  matcher? : Option EndMatcher
  triggers : List Trigger
  /-- The last offset at which the end of the data means anything. -/
  maxWidth? : Option Nat
  initialGroups : Groups
  /-- Triggers are looked for in the whole buffer first. -/
  catchesUpTriggers : Bool

namespace Engine

def streamLength (engine : Engine) : Nat :=
  engine.slots.foldr (fun slot length => slot.automaton.streamLength + length) 0

def fullLength (engine : Engine) : Nat :=
  engine.slots.foldr (fun slot length => slot.automaton.fullLength + length) 0

/-- The flags of the roles that need the last byte. -/
def lastByteStates (engine : Engine) : List Nat :=
  (engine.roles.filter (·.needsLastByte)).filterMap (·.state?)

/-- The end of the data means something to some rule. -/
def needsEndOfData (engine : Engine) : Bool :=
  engine.endEvent?.isSome || !engine.walk.isEmpty || engine.matcher?.isSome
    || engine.slots.any (·.automaton.acceptsEnd)

def role (engine : Engine) (id : RoleId) : Except Fault Role := elementAt engine.roles id.toNat

def predicate (engine : Engine) (id : PredicateId) : Except Fault Predicate :=
  elementAt engine.predicates id.toNat

def slot (engine : Engine) (queue : Nat) : Except Fault Slot := elementAt engine.slots queue

end Engine

end Multimatch
