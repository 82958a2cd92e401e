import Multimatch.Rules.Plan

/-!
# Rules

A plan is told its rules one after the other (`Plan.ofRules`). What is added comes behind what was
added before, and what is set replaces what was set before. A rule for which no identifier is left
is refused and leaves the plan as it is.
-/

namespace Multimatch

/-- What a plan can be told. -/
inductive Rule where
  | role (role : Role)
  | predicate (predicate : Predicate)
  | roleStates (count : Nat)
  /-- A role that may fire at the end of the data when a flag is on. -/
  | walkEntry (state : Nat) (entry : WalkEntry)
  | action (id : LiteralId) (action : Action)
  | endEvent (id? : Option LiteralId)
  | automaton (automaton : Automaton)
  /-- The literals to look for at the end of the data, and in how many bytes. -/
  | matcher (literals : List Literal) (region : Nat)
  | matcherOptions (options : Options)
  | trigger (trigger : Trigger)
  | maxWidth (width? : Option Nat)
  | initialGroups (groups : Groups)
  | catchesUpTriggers (catchesUp : Bool)

namespace Plan

/-- The plan after something was added, or as it was. -/
def afterAdding {kind : IdentKind} (plan : Plan) : Except RuleError (Ident kind × Plan) → Plan
  | .ok (_, next) => next
  | .error _ => plan

/-- The plan after one rule more. -/
def tell (plan : Plan) : Rule → Plan
  | .role role => plan.afterAdding (plan.addRole role)
  | .predicate predicate => plan.afterAdding (plan.addPredicate predicate)
  | .roleStates count => { plan with roleStates := count }
  | .walkEntry state entry => plan.addWalkEntry state entry
  | .action id action => plan.setAction id action
  | .endEvent id? => { plan with endEvent? := id? }
  | .automaton automaton => plan.afterAdding (plan.addAutomaton automaton)
  | .matcher literals region => { plan with matcher? := some (literals, region) }
  | .matcherOptions options => { plan with matcherOptions := options }
  | .trigger trigger => plan.addTrigger trigger
  | .maxWidth width? => { plan with maxWidth? := width? }
  | .initialGroups groups => { plan with initialGroups? := some groups }
  | .catchesUpTriggers catchesUp => { plan with catchesUpTriggers := catchesUp }

/-- The plan that was told some rules and nothing else. -/
def ofRules (rules : List Rule) : Plan := rules.foldl tell {}

end Plan

end Multimatch
