import Multimatch.Table.Error

/-!
# Errors of building rules

Rules that refer to something that is not there, or that ask for what cannot be done, are refused
with a cause.
-/

namespace Multimatch

/-- Why rules were refused. -/
inductive RuleError where
  | noSuchRole (role : RoleId)
  | noSuchPredicate (predicate : PredicateId)
  /-- A flag that is not below the number of flags. -/
  | stateOutside (state count : Nat)
  /-- A literal without an action. -/
  | noAction (id : LiteralId)
  | noSuchQueue (queue : QueueId)
  /-- Something would switch on a role that has no flag. -/
  | statelessRole (role : RoleId)
  /-- A role that is not simple is listed without a predicate. -/
  | predicateMissing (role : RoleId)
  /-- More different bytes are watched than can be. -/
  | tooManyTriggerBytes (count : Nat)
  /-- The literals at the end would be looked for in nothing. -/
  | emptyRegion
  /-- No table can be built for the literals at the end. -/
  | matcher (error : TableError)
  /-- There are more of something than identifiers. -/
  | tooMany (what : String)
deriving DecidableEq, Repr

namespace RuleError

def message : RuleError → String
  | .noSuchRole role => s!"role {role.toNat} does not exist"
  | .noSuchPredicate predicate => s!"predicate {predicate.toNat} does not exist"
  | .stateOutside state count => s!"role state {state} is out of range for {count} role states"
  | .noAction id => s!"literal {id.toNat} has no program"
  | .noSuchQueue queue => s!"queue {queue.toNat} does not exist"
  | .statelessRole role => s!"role {role.toNat} has no state and cannot be switched on"
  | .predicateMissing role =>
    s!"role {role.toNat} needs a predicate in the end-of-data iterator"
  | .tooManyTriggerBytes count =>
    s!"sidecar watches {count} distinct bytes, but at most 3 are supported"
  | .emptyRegion => "end-anchored literal matcher must scan a non-empty region"
  | .matcher _ => "error building end-anchored literal matcher"
  | .tooMany what => s!"too many {what} for a rose program"

/-- The error behind the error. -/
def source? : RuleError → Option TableError
  | .matcher error => some error
  | _ => none

end RuleError

end Multimatch
