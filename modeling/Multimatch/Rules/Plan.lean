import Multimatch.Rules.Engine
import Multimatch.Rules.Error
import Multimatch.Table.Build

/-!
# Plans

A plan gathers rules in any order; nothing is checked before it is built, but that there is an
identifier for every role, predicate and automaton. `Plan.build` goes through the rules in a fixed
order and refuses the first one that does not fit.
-/

namespace Multimatch

/-- Rules that were not looked at yet. -/
structure Plan where
  roles : List Role := []
  predicates : List Predicate := []
  roleStates : Nat := 0
  walk : List WalkStop := []
  actions : Actions := []
  endEvent? : Option LiteralId := none
  automata : List Automaton := []
  /-- The literals to look for at the end of the data, and in how many bytes. -/
  matcher? : Option (List Literal × Nat) := none
  matcherOptions : Options := {}
  triggers : List Trigger := []
  maxWidth? : Option Nat := none
  initialGroups? : Option Groups := none
  catchesUpTriggers : Bool := false
  roles_le : roles.length ≤ Ident.limit := by first | exact Nat.zero_le Ident.limit | decide
  predicates_le : predicates.length ≤ Ident.limit := by
    first | exact Nat.zero_le Ident.limit | decide
  automata_le : automata.length ≤ Ident.limit := by first | exact Nat.zero_le Ident.limit | decide

namespace Plan

/-- The elements with one more, and its identifier, which is the number of those before it. There
have to be fewer than there are identifiers. -/
def added {α : Type} {kind : IdentKind} (what : String) (elements : List α) (element : α) :
    Except RuleError (Ident kind × { all : List α // all.length ≤ Ident.limit }) :=
  if h : elements.length < Ident.limit then
    .ok (.wrap elements.length,
      ⟨elements ++ [element], Nat.le_trans (Nat.le_of_eq List.length_append) h⟩)
  else .error (.tooMany what)

/-- Adds a role, unless there are too many. -/
def addRole (plan : Plan) (role : Role) : Except RuleError (RoleId × Plan) := do
  let (id, all) ← added "roles" plan.roles role
  return (id, { plan with roles := all.1, roles_le := all.2 })

/-- Adds a predicate, unless there are too many. -/
def addPredicate (plan : Plan) (predicate : Predicate) : Except RuleError (PredicateId × Plan) := do
  let (id, all) ← added "predicates" plan.predicates predicate
  return (id, { plan with predicates := all.1, predicates_le := all.2 })

/-- Lets a role fire at the end of the data when a flag is on and the predicate holds. -/
def addWalkEntry (plan : Plan) (state : Nat) (entry : WalkEntry) : Plan :=
  { plan with walk := WalkStop.addEntry state entry plan.walk }

def setAction (plan : Plan) (id : LiteralId) (action : Action) : Plan :=
  { plan with actions := plan.actions.insert id action }

/-- Adds an automaton, unless there are too many. Its identifier is that of its queue. -/
def addAutomaton (plan : Plan) (automaton : Automaton) : Except RuleError (QueueId × Plan) := do
  let (id, all) ← added "queues" plan.automata automaton
  return (id, { plan with automata := all.1, automata_le := all.2 })

def addTrigger (plan : Plan) (trigger : Trigger) : Plan :=
  { plan with triggers := plan.triggers ++ [trigger] }

/-- Goes through a list and stops at the first refusal. -/
def checkAll {α : Type} (check : α → Except RuleError Unit) : List α → Except RuleError Unit
  | [] => .ok ()
  | element :: elements => do
    check element
    checkAll check elements

def checkState (plan : Plan) (state : Nat) : Except RuleError Unit :=
  if state < plan.roleStates then .ok () else .error (.stateOutside state plan.roleStates)

def findRole (plan : Plan) (id : RoleId) : Except RuleError Role :=
  match plan.roles[id.toNat]? with
  | some role => .ok role
  | none => .error (.noSuchRole id)

def checkStateful (plan : Plan) (id : RoleId) : Except RuleError Unit := do
  let role ← plan.findRole id
  if role.state?.isSome then return () else throw (.statelessRole id)

def checkRole (plan : Plan) (role : Role) : Except RuleError Unit :=
  match role.state? with
  | some state => plan.checkState state
  | none => .ok ()

/-- What a walk entry refers to exists, and a role that is not simple has a predicate. -/
def checkEntry (plan : Plan) (entry : WalkEntry) : Except RuleError Unit := do
  let role ← plan.findRole entry.role
  match entry.predicate? with
  | some predicate =>
    if predicate.toNat < plan.predicates.length then return ()
    else throw (.noSuchPredicate predicate)
  | none => if role.isSimple then return () else throw (.predicateMissing entry.role)

/-- The flag of a stop exists, and its entries fit. -/
def checkStop (plan : Plan) (stop : WalkStop) : Except RuleError Unit := do
  plan.checkState stop.state
  checkAll plan.checkEntry stop.entries

def checkQueue (plan : Plan) (queue : QueueId) : Except RuleError Unit :=
  if queue.toNat < plan.automata.length then .ok () else .error (.noSuchQueue queue)

/-- What an action refers to exists, and its roles can be switched on. -/
def checkAction (plan : Plan) (action : Action) : Except RuleError Unit := do
  checkAll plan.checkStateful action.roles
  checkAll plan.checkQueue action.suffixes

def checkHasAction (plan : Plan) (id : LiteralId) : Except RuleError Unit :=
  if (plan.actions.find? id).isSome then .ok () else .error (.noAction id)

def buildMatcher (plan : Plan) (literals : List Literal) (region : Nat) :
    Except RuleError EndMatcher := do
  if region = 0 then throw .emptyRegion
  checkAll (fun literal => plan.checkHasAction literal.id) literals
  match LiteralTable.build plan.matcherOptions literals with
  | .ok table =>
    return { table, minWidth := ((literals.map Literal.length).min?).getD 0, region }
  | .error error => throw (.matcher error)

/-- The different bytes that triggers watch. -/
def triggerBytes (plan : Plan) : List UInt8 := (plan.triggers.map (·.byte)).eraseDups

/-- The most different bytes that triggers may watch. -/
def maxTriggerBytes : Nat := 3

/-- The roles of the triggers can be switched on, and there are not too many bytes to watch. -/
def checkTriggers (plan : Plan) : Except RuleError Unit := do
  checkAll (fun trigger => plan.checkStateful trigger.role) plan.triggers
  if maxTriggerBytes < plan.triggerBytes.length then
    throw (.tooManyTriggerBytes plan.triggerBytes.length)

/-- The engine of the rules, if they fit together. -/
def build (plan : Plan) : Except RuleError Engine := do
  checkAll plan.checkRole plan.roles
  checkAll plan.checkStop plan.walk
  checkAll (fun (_, action) => plan.checkAction action) plan.actions
  match plan.endEvent? with
  | some id => plan.checkHasAction id
  | none => pure ()
  let matcher? ← match plan.matcher? with
    | some (literals, region) => some <$> plan.buildMatcher literals region
    | none => pure none
  plan.checkTriggers
  return {
    roles := plan.roles
    predicates := plan.predicates
    roleStates := plan.roleStates
    walk := plan.walk
    actions := plan.actions
    endEvent? := plan.endEvent?
    slots := Slot.layOut 0 0 plan.automata
    matcher?
    triggers := plan.triggers
    maxWidth? := plan.maxWidth?
    initialGroups := plan.initialGroups?.getD Groups.all
    catchesUpTriggers := plan.catchesUpTriggers }

end Plan

end Multimatch
