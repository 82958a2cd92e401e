import Multimatch.Groups
import Multimatch.Ident

/-!
# Roles and predicates

A role is a match that is still incomplete: it was switched on by something found earlier, and it
fires its report once the data has ended, if its predicate holds there. A role with a state has a
flag that says whether it is on.
-/

namespace Multimatch

/-- A match that waits for the end of the data. -/
structure Role where
  report : ReportId
  /-- The flag that says whether the role is on. A role without one cannot be switched on. -/
  state? : Option Nat := none
  /-- The role fires without looking at a predicate. -/
  isSimple : Bool := false
  /-- The role stays on only while the last literal ended at the current offset. -/
  needsLastByte : Bool := false
deriving DecidableEq, Repr

/-- What a predicate asks of the offset. -/
inductive History where
  | anywhere
  /-- The offset lies between two bounds, both included. -/
  | anchored (min max : Nat)
  /-- What came before was switched on by the last byte. Roles of which this is not so are switched
  off before anyone asks, so that it holds. -/
  | lastByte
deriving DecidableEq, Repr

/-- A condition on the offset at which a role fires. -/
structure Predicate where
  history : History
deriving DecidableEq, Repr

def Predicate.holdsAt (predicate : Predicate) (offset : Nat) : Bool :=
  match predicate.history with
  | .anywhere | .lastByte => true
  | .anchored min max => decide (min ≤ offset ∧ offset ≤ max)

/-- A role that may fire when some flag is on, and the predicate for it. -/
structure WalkEntry where
  role : RoleId
  predicate? : Option PredicateId
deriving DecidableEq, Repr

/-- The roles to look at when a flag is on, in the order in which they were added. -/
structure WalkStop where
  state : Nat
  entries : List WalkEntry
deriving DecidableEq, Repr

/-- Adds an entry to the stop of a flag. Stops are in the order of their flags. -/
def WalkStop.addEntry (state : Nat) (entry : WalkEntry) : List WalkStop → List WalkStop
  | [] => [⟨state, [entry]⟩]
  | stop :: stops =>
    if state < stop.state then ⟨state, [entry]⟩ :: stop :: stops
    else if state = stop.state then { stop with entries := stop.entries ++ [entry] } :: stops
    else stop :: addEntry state entry stops

/-- A byte that switches a role on wherever it occurs, while one of its groups is live. -/
structure Trigger where
  byte : UInt8
  role : RoleId
  groups : Groups
deriving DecidableEq, Repr

end Multimatch
