import Multimatch.Proofs.Rules.Told

/-!
# The rules that build

Rules build if and only if they are well-formed (`WellFormed`). If they are not, then some demand
does not hold, and the error is that of the first one in the order in which building looks at them
(`Plan.build_ofRules`). That covers the error of a table that cannot be built.
-/

namespace Multimatch

/-! ## Well-formed rules -/

section WellFormed

variable (rules : List Rule)

/-- A role exists and can be switched on. -/
def HasState (id : RoleId) : Prop :=
  ∃ role, (rolesIn rules)[id.toNat]? = some role ∧ role.state?.isSome = true

/-- Something is set for a literal. -/
def HasAction (id : LiteralId) : Prop :=
  (Actions.inForce? (actionsIn rules) id).isSome = true

/-- What an entry of the walk refers to exists, and a role that is not simple has a predicate. -/
structure EntryFits (entry : WalkEntry) : Prop where
  role : ∃ role, (rolesIn rules)[entry.role.toNat]? = some role
    ∧ (entry.predicate? = none → role.isSimple = true)
  predicate : ∀ id, entry.predicate? = some id → id.toNat < (predicatesIn rules).length

/-- Whatever a rule refers to exists, and nothing is asked that cannot be done. -/
structure WellFormed : Prop where
  role : ∀ role ∈ rolesIn rules, ∀ state, role.state? = some state → state < roleStatesIn rules
  walk : ∀ call ∈ walkIn rules, call.1 < roleStatesIn rules ∧ EntryFits rules call.2
  action : ∀ id action, Actions.inForce? (actionsIn rules) id = some action →
    (∀ role ∈ action.roles, HasState rules role)
      ∧ ∀ queue ∈ action.suffixes, queue.toNat < (automataIn rules).length
  endEvent : ∀ id, endEventIn? rules = some id → HasAction rules id
  matcher : ∀ literals region, matcherIn? rules = some (literals, region) →
    region ≠ 0 ∧ (∀ literal ∈ literals, HasAction rules literal.id)
      ∧ ∃ table, LiteralTable.build (matcherOptionsIn rules) literals = .ok table
  trigger : ∀ trigger ∈ triggersIn rules, HasState rules trigger.role
  triggerBytes : ((triggersIn rules).map (·.byte)).toFinset.card ≤ 3

end WellFormed

/-! ## Demands in order -/

/-- Something that rules ask for, and the error if it is not so. -/
structure Demand where
  holds : Bool
  error : RuleError

/-- The error of the first demand that does not hold. -/
def refusal? (demands : List Demand) : Option RuleError :=
  (demands.find? (!·.holds)).map (·.error)

/-- No demand is refused. -/
def AllHold (demands : List Demand) : Prop := ∀ demand ∈ demands, demand.holds = true

section Demands

variable (rules : List Rule)

def Demand.state (state : Nat) : Demand :=
  ⟨state < roleStatesIn rules, .stateOutside state (roleStatesIn rules)⟩

def Demand.role (id : RoleId) : Demand := ⟨(rolesIn rules)[id.toNat]?.isSome, .noSuchRole id⟩

def Demand.queue (queue : QueueId) : Demand :=
  ⟨queue.toNat < (automataIn rules).length, .noSuchQueue queue⟩

def Demand.action (id : LiteralId) : Demand :=
  ⟨(Actions.inForce? (actionsIn rules) id).isSome, .noAction id⟩

/-- A role that is switched on exists and has a state. -/
def demandsOfSwitched (id : RoleId) : List Demand :=
  [.role rules id, ⟨(rolesIn rules)[id.toNat]?.any (·.state?.isSome), .statelessRole id⟩]

def demandsOfEntry (entry : WalkEntry) : List Demand :=
  .role rules entry.role
    :: match entry.predicate? with
      | some id => [⟨id.toNat < (predicatesIn rules).length, .noSuchPredicate id⟩]
      | none =>
        [⟨(rolesIn rules)[entry.role.toNat]?.any (·.isSimple), .predicateMissing entry.role⟩]

/-- The flag comes first, then its entries as they were added. -/
def demandsOfFlag (flag : Nat) : List Demand :=
  .state rules flag :: (WalkStop.entriesAt (walkIn rules) flag).flatMap (demandsOfEntry rules)

/-- Roles come first, then queues. -/
def demandsOfAction (action : Action) : List Demand :=
  action.roles.flatMap (demandsOfSwitched rules) ++ action.suffixes.map (.queue rules)

/-- A table of some literals can be built. -/
def demandsOfTable (literals : List Literal) : List Demand :=
  match LiteralTable.build (matcherOptionsIn rules) literals with
  | .ok _ => []
  | .error error => [⟨false, .matcher error⟩]

/-- The region comes first, then the actions of the literals, then the table. -/
def demandsOfMatcher (literals : List Literal) (region : Nat) : List Demand :=
  ⟨region ≠ 0, .emptyRegion⟩
    :: (literals.map (fun literal => .action rules literal.id) ++ demandsOfTable rules literals)

/-- The roles of the triggers come first, then the number of their bytes. -/
def demandsOfTriggers : List Demand :=
  let count := ((triggersIn rules).map (·.byte)).toFinset.card
  (triggersIn rules).flatMap (fun trigger => demandsOfSwitched rules trigger.role)
    ++ [⟨count ≤ 3, .tooManyTriggerBytes count⟩]

/-- What is asked for, in the order in which building looks at it. -/
def demands : List Demand :=
  (rolesIn rules).flatMap (fun role => role.state?.toList.map (.state rules))
    ++ (WalkStop.flags (walkIn rules)).flatMap (demandsOfFlag rules)
    ++ (Actions.allInForce (actionsIn rules)).flatMap (demandsOfAction rules)
    ++ (endEventIn? rules).toList.map (.action rules)
    ++ (matcherIn? rules).toList.flatMap (fun given => demandsOfMatcher rules given.1 given.2)
    ++ demandsOfTriggers rules

end Demands

/-! ## The order of the checks -/

/-- The error of a computation, if it fails. -/
def errorOf? {ε α : Type} : Except ε α → Option ε
  | .ok _ => none
  | .error error => some error

section

variable {ε α : Type}

theorem errorOf?_eq_some_iff {x : Except ε α} {error : ε} :
    errorOf? x = some error ↔ x = .error error := by
  cases x <;> simp [errorOf?]

theorem errorOf?_eq_none_iff {x : Except ε α} : errorOf? x = none ↔ ∃ value, x = .ok value := by
  cases x <;> simp [errorOf?]

theorem errorOf?_check_bind (x : Except ε Unit) (f : Unit → Except ε α) :
    errorOf? (x >>= f) = (errorOf? x).or (errorOf? (f ())) := by
  cases x <;> rfl

theorem refusal?_cons (demand : Demand) (later : List Demand) :
    refusal? (demand :: later) = if demand.holds then refusal? later else some demand.error := by
  cases hholds : demand.holds <;> simp [refusal?, hholds]

theorem refusal?_append (before after : List Demand) :
    refusal? (before ++ after) = (refusal? before).or (refusal? after) := by
  simp [refusal?, Option.map_or]

theorem refusal?_eq_none_iff {demands : List Demand} :
    refusal? demands = none ↔ AllHold demands := by
  simp [refusal?, AllHold]

theorem refusal?_eq_some_iff {demands : List Demand} {error : RuleError} :
    refusal? demands = some error ↔ ∃ before demand after, demands = before ++ demand :: after
      ∧ AllHold before ∧ demand.holds = false ∧ demand.error = error := by
  rw [refusal?, Option.map_eq_some_iff]
  unfold AllHold
  constructor
  · rintro ⟨demand, hfind, rfl⟩
    obtain ⟨hholds, before, after, rfl, hbefore⟩ := List.find?_eq_some_iff_append.1 hfind
    exact ⟨before, demand, after, rfl, by simpa using hbefore, by simpa using hholds, rfl⟩
  · rintro ⟨before, demand, after, rfl, hbefore, hholds, rfl⟩
    refine ⟨demand, List.find?_eq_some_iff_append.2 ⟨?_, before, after, rfl, ?_⟩, rfl⟩
    · simpa using hholds
    · simpa using hbefore

end

namespace Plan

variable {rules : List Rule}

theorem errorOf?_checkAll {α : Type} {check : α → Except RuleError Unit}
    {asked : α → List Demand} (h : ∀ x, errorOf? (check x) = refusal? (asked x)) (xs : List α) :
    errorOf? (checkAll check xs) = refusal? (xs.flatMap asked) := by
  induction xs with
  | nil => rfl
  | cons x xs ih => rw [checkAll, errorOf?_check_bind, h, ih, List.flatMap_cons, refusal?_append]

theorem checkAll_map {α β : Type} (f : α → β) (check : β → Except RuleError Unit) (xs : List α) :
    checkAll check (xs.map f) = checkAll (fun x => check (f x)) xs := by
  induction xs with
  | nil => rfl
  | cons x xs ih => rw [List.map_cons, checkAll, ih, checkAll]

theorem errorOf?_checkEach {α : Type} {check : α → Except RuleError Unit} {asked : α → Demand}
    (h : ∀ x, errorOf? (check x) = refusal? [asked x]) (xs : List α) :
    errorOf? (checkAll check xs) = refusal? (xs.map asked) := by
  rw [errorOf?_checkAll h, List.map_eq_flatMap]

variable (rules)

theorem errorOf?_checkState (state : Nat) :
    errorOf? ((ofRules rules).checkState state) = refusal? [.state rules state] := by
  rw [ofRules_eq, checkState]
  by_cases hlt : state < roleStatesIn rules <;> simp [hlt, Demand.state, errorOf?, refusal?]

theorem errorOf?_checkRole (role : Role) : errorOf? ((ofRules rules).checkRole role)
    = refusal? (role.state?.toList.map (.state rules)) := by
  rw [checkRole]
  cases role.state? with
  | none => rfl
  | some state => exact errorOf?_checkState rules state

theorem errorOf?_findRole_bind {α : Type} (id : RoleId) (f : Role → Except RuleError α) :
    errorOf? ((ofRules rules).findRole id >>= f) = match (rolesIn rules)[id.toNat]? with
      | some role => errorOf? (f role)
      | none => some (.noSuchRole id) := by
  rw [ofRules_eq, findRole]
  cases (rolesIn rules)[id.toNat]? <;> rfl

theorem errorOf?_checkStateful (id : RoleId) :
    errorOf? ((ofRules rules).checkStateful id) = refusal? (demandsOfSwitched rules id) := by
  rw [checkStateful, errorOf?_findRole_bind, demandsOfSwitched, Demand.role]
  cases (rolesIn rules)[id.toNat]? with
  | none => rfl
  | some role => cases hstate : role.state? <;> simp [hstate, refusal?] <;> rfl

theorem errorOf?_checkEntry (entry : WalkEntry) :
    errorOf? ((ofRules rules).checkEntry entry) = refusal? (demandsOfEntry rules entry) := by
  rw [checkEntry, errorOf?_findRole_bind, demandsOfEntry, Demand.role, ofRules_eq]
  cases (rolesIn rules)[entry.role.toNat]? with
  | none => rfl
  | some role =>
    cases entry.predicate? with
    | none => cases hsimple : role.isSimple <;> simp [hsimple, refusal?] <;> rfl
    | some id =>
      by_cases hlt : id.toNat < (predicatesIn rules).length <;> simp [hlt, refusal?] <;> rfl

theorem errorOf?_checkStop (flag : Nat) :
    errorOf? ((ofRules rules).checkStop ⟨flag, WalkStop.entriesAt (walkIn rules) flag⟩)
      = refusal? (demandsOfFlag rules flag) := by
  rw [checkStop, errorOf?_check_bind, errorOf?_checkState,
    errorOf?_checkAll (errorOf?_checkEntry rules), ← refusal?_append, demandsOfFlag]
  rfl

theorem errorOf?_checkQueue (queue : QueueId) :
    errorOf? ((ofRules rules).checkQueue queue) = refusal? [.queue rules queue] := by
  rw [ofRules_eq, checkQueue]
  by_cases hlt : queue.toNat < (automataIn rules).length <;>
    simp [hlt, Demand.queue, errorOf?, refusal?]

theorem errorOf?_checkAction (action : Action) :
    errorOf? ((ofRules rules).checkAction action) = refusal? (demandsOfAction rules action) := by
  rw [checkAction, errorOf?_check_bind, errorOf?_checkAll (errorOf?_checkStateful rules),
    errorOf?_checkEach (errorOf?_checkQueue rules), ← refusal?_append, demandsOfAction]

theorem errorOf?_checkHasAction (id : LiteralId) :
    errorOf? ((ofRules rules).checkHasAction id) = refusal? [.action rules id] := by
  rw [ofRules_eq, checkHasAction, Actions.find?_gather]
  cases hfind : Actions.inForce? (actionsIn rules) id <;>
    simp [hfind, Demand.action, errorOf?, refusal?]

theorem errorOf?_buildMatcher (literals : List Literal) (region : Nat) :
    errorOf? ((ofRules rules).buildMatcher literals region)
      = refusal? (demandsOfMatcher rules literals region) := by
  have hoptions : (ofRules rules).matcherOptions = matcherOptionsIn rules := by rw [ofRules_eq]
  have hactions := errorOf?_checkEach
    (fun literal : Literal => errorOf?_checkHasAction rules literal.id) literals
  rw [buildMatcher, demandsOfMatcher, refusal?_cons, refusal?_append, demandsOfTable, hoptions,
    ← hactions]
  by_cases hregion : region = 0
  · simp [hregion, throw, throwThe, MonadExceptOf.throw, bind, Except.bind, errorOf?]
  · simp only [hregion, if_false, errorOf?_check_bind, ne_eq, not_false_eq_true, decide_true,
      if_true]
    cases LiteralTable.build (matcherOptionsIn rules) literals <;> rfl

theorem length_triggerBytes :
    (ofRules rules).triggerBytes.length = ((triggersIn rules).map (·.byte)).toFinset.card := by
  rw [ofRules_eq, triggerBytes, length_eraseDups]

theorem errorOf?_checkTriggers :
    errorOf? (ofRules rules).checkTriggers = refusal? (demandsOfTriggers rules) := by
  have htriggers : (ofRules rules).triggers = triggersIn rules := by rw [ofRules_eq]
  have hstateful := errorOf?_checkAll
    (fun trigger : Trigger => errorOf?_checkStateful rules trigger.role) (triggersIn rules)
  rw [checkTriggers, errorOf?_check_bind, length_triggerBytes, demandsOfTriggers, refusal?_append,
    htriggers, hstateful]
  congr 1
  by_cases hmany : 3 < ((triggersIn rules).map (·.byte)).toFinset.card
  · rw [maxTriggerBytes, if_pos hmany, refusal?_cons, if_neg (by simpa using hmany)]
    rfl
  · rw [maxTriggerBytes, if_neg hmany, refusal?_cons, if_pos (by simpa using hmany)]
    rfl

theorem errorOf?_finish : errorOf? (ofRules rules).finish
    = refusal?
      ((matcherIn? rules).toList.flatMap (fun given => demandsOfMatcher rules given.1 given.2)
        ++ demandsOfTriggers rules) := by
  have hmatcher : (ofRules rules).matcher? = matcherIn? rules := by rw [ofRules_eq]
  have hlast (matcher? : Option EndMatcher) :
      errorOf? ((ofRules rules).checkTriggers >>= fun _ =>
        pure ((ofRules rules).engineWith matcher?)) = refusal? (demandsOfTriggers rules) := by
    rw [errorOf?_check_bind, errorOf?_checkTriggers]
    exact Option.or_none
  rw [finish, hmatcher, refusal?_append]
  cases matcherIn? rules with
  | none => exact hlast none
  | some given =>
    simp only [Option.toList_some, List.flatMap_singleton, ← errorOf?_buildMatcher]
    cases (ofRules rules).buildMatcher given.1 given.2 with
    | error error => rfl
    | ok matcher => exact hlast (some matcher)

theorem errorOf?_build : errorOf? (ofRules rules).build = refusal? (demands rules) := by
  have hroles : (ofRules rules).roles = rolesIn rules := by rw [ofRules_eq]
  have hwalk : (ofRules rules).walk = WalkStop.gather (walkIn rules) := by rw [ofRules_eq]
  have hactions : (ofRules rules).actions = Actions.gather (actionsIn rules) := by rw [ofRules_eq]
  have hevent : (ofRules rules).endEvent? = endEventIn? rules := by rw [ofRules_eq]
  have hstops : errorOf? (checkAll (ofRules rules).checkStop (WalkStop.gather (walkIn rules)))
      = refusal? ((WalkStop.flags (walkIn rules)).flatMap (demandsOfFlag rules)) := by
    rw [WalkStop.gather_eq, checkAll_map]
    exact errorOf?_checkAll (errorOf?_checkStop rules) _
  have hset : errorOf? (checkAll (fun entry => (ofRules rules).checkAction entry.2)
      (Actions.gather (actionsIn rules)))
      = refusal? ((Actions.allInForce (actionsIn rules)).flatMap (demandsOfAction rules)) := by
    rw [← errorOf?_checkAll (errorOf?_checkAction rules), ← Actions.map_gather, checkAll_map]
  rw [build_eq_finish, hroles, hwalk, hactions, hevent, errorOf?_check_bind, errorOf?_check_bind,
    errorOf?_check_bind, errorOf?_checkAll (errorOf?_checkRole rules), hstops, hset, demands]
  cases endEventIn? rules with
  | none =>
    rw [errorOf?_finish]
    simp only [refusal?_append, Option.or_assoc]
    rfl
  | some id =>
    rw [errorOf?_check_bind, errorOf?_checkHasAction, errorOf?_finish]
    simp only [refusal?_append, Option.or_assoc]
    rfl

end Plan

/-! ## Rules of which every demand holds -/

section Hold

variable (rules : List Rule)

theorem allHold_cons {demand : Demand} {later : List Demand} :
    AllHold (demand :: later) ↔ demand.holds = true ∧ AllHold later := List.forall_mem_cons

theorem allHold_append {before after : List Demand} :
    AllHold (before ++ after) ↔ AllHold before ∧ AllHold after := List.forall_mem_append

theorem allHold_flatMap {α : Type} {asked : α → List Demand} {xs : List α} :
    AllHold (xs.flatMap asked) ↔ ∀ x ∈ xs, AllHold (asked x) := List.forall_mem_flatMap

theorem allHold_map {α : Type} {asked : α → Demand} {xs : List α} :
    AllHold (xs.map asked) ↔ ∀ x ∈ xs, (asked x).holds = true := List.forall_mem_map

theorem allHold_switched {id : RoleId} :
    AllHold (demandsOfSwitched rules id) ↔ HasState rules id := by
  simp only [demandsOfSwitched, Demand.role, HasState, AllHold]
  cases (rolesIn rules)[id.toNat]? <;> simp

theorem allHold_entry {entry : WalkEntry} :
    AllHold (demandsOfEntry rules entry) ↔ EntryFits rules entry := by
  have hfits : EntryFits rules entry ↔ (∃ role, (rolesIn rules)[entry.role.toNat]? = some role
      ∧ (entry.predicate? = none → role.isSimple = true))
      ∧ ∀ id, entry.predicate? = some id → id.toNat < (predicatesIn rules).length :=
    ⟨fun h => ⟨h.role, h.predicate⟩, fun h => ⟨h.1, h.2⟩⟩
  rw [hfits]
  simp only [demandsOfEntry, Demand.role, AllHold]
  cases (rolesIn rules)[entry.role.toNat]? <;> cases entry.predicate? <;> simp

theorem allHold_flags : AllHold ((WalkStop.flags (walkIn rules)).flatMap (demandsOfFlag rules))
    ↔ ∀ call ∈ walkIn rules, call.1 < roleStatesIn rules ∧ EntryFits rules call.2 := by
  simp only [demandsOfFlag, allHold_flatMap, allHold_cons, allHold_entry, WalkStop.mem_flags,
    WalkStop.mem_entriesAt, Demand.state, decide_eq_true_eq]
  constructor
  · rintro h ⟨flag, entry⟩ hcall
    obtain ⟨hlt, hfits⟩ := h flag ⟨entry, hcall⟩
    exact ⟨hlt, hfits entry hcall⟩
  · rintro h flag ⟨entry, hcall⟩
    exact ⟨(h _ hcall).1, fun other hother => (h _ hother).2⟩

theorem allHold_action {action : Action} : AllHold (demandsOfAction rules action)
    ↔ (∀ role ∈ action.roles, HasState rules role)
      ∧ ∀ queue ∈ action.suffixes, queue.toNat < (automataIn rules).length := by
  simp only [demandsOfAction, allHold_append, allHold_flatMap, allHold_map, allHold_switched,
    Demand.queue, decide_eq_true_eq]

theorem allHold_table {literals : List Literal} : AllHold (demandsOfTable rules literals)
    ↔ ∃ table, LiteralTable.build (matcherOptionsIn rules) literals = .ok table := by
  rw [demandsOfTable]
  cases LiteralTable.build (matcherOptionsIn rules) literals <;> simp [AllHold]

theorem allHold_matcher {literals : List Literal} {region : Nat} :
    AllHold (demandsOfMatcher rules literals region)
      ↔ region ≠ 0 ∧ (∀ literal ∈ literals, HasAction rules literal.id)
        ∧ ∃ table, LiteralTable.build (matcherOptionsIn rules) literals = .ok table := by
  simp only [demandsOfMatcher, allHold_cons, allHold_append, allHold_map, allHold_table,
    Demand.action, HasAction, decide_eq_true_eq]

theorem allHold_triggers : AllHold (demandsOfTriggers rules)
    ↔ (∀ trigger ∈ triggersIn rules, HasState rules trigger.role)
      ∧ ((triggersIn rules).map (·.byte)).toFinset.card ≤ 3 := by
  have hbytes (holds : Bool) (error : RuleError) : AllHold [⟨holds, error⟩] ↔ holds = true := by
    simp [AllHold]
  simp only [demandsOfTriggers, allHold_append, allHold_flatMap, allHold_switched, hbytes,
    decide_eq_true_eq]

/-- Rules are well-formed if and only if every demand holds. -/
theorem wellFormed_iff : WellFormed rules ↔ AllHold (demands rules) := by
  have hroles : AllHold ((rolesIn rules).flatMap fun role => role.state?.toList.map (.state rules))
      ↔ ∀ role ∈ rolesIn rules, ∀ state, role.state? = some state → state < roleStatesIn rules := by
    simp [allHold_flatMap, allHold_map, Demand.state]
  have hactions : AllHold ((Actions.allInForce (actionsIn rules)).flatMap (demandsOfAction rules))
      ↔ ∀ id action, Actions.inForce? (actionsIn rules) id = some action →
        (∀ role ∈ action.roles, HasState rules role)
          ∧ ∀ queue ∈ action.suffixes, queue.toNat < (automataIn rules).length := by
    simp only [allHold_flatMap, allHold_action, Actions.mem_allInForce]
    exact ⟨fun h id action hset => h action ⟨id, hset⟩, fun h action ⟨id, hset⟩ => h id action hset⟩
  have hevent : AllHold ((endEventIn? rules).toList.map (.action rules))
      ↔ ∀ id, endEventIn? rules = some id → HasAction rules id := by
    simp [allHold_map, Demand.action, HasAction]
  have hmatcher : AllHold ((matcherIn? rules).toList.flatMap fun given =>
      demandsOfMatcher rules given.1 given.2)
      ↔ ∀ literals region, matcherIn? rules = some (literals, region) →
        region ≠ 0 ∧ (∀ literal ∈ literals, HasAction rules literal.id)
          ∧ ∃ table, LiteralTable.build (matcherOptionsIn rules) literals = .ok table := by
    simp [allHold_flatMap, allHold_matcher]
  simp only [demands, allHold_append, hroles, allHold_flags, hactions, hevent, hmatcher,
    allHold_triggers]
  constructor
  · intro h
    exact ⟨⟨⟨⟨⟨h.role, h.walk⟩, h.action⟩, h.endEvent⟩, h.matcher⟩, h.trigger, h.triggerBytes⟩
  · rintro ⟨⟨⟨⟨⟨hrole, hwalk⟩, haction⟩, hevent⟩, hmatcher⟩, htrigger, hbytes⟩
    exact ⟨hrole, hwalk, haction, hevent, hmatcher, htrigger, hbytes⟩

end Hold

/-- Rules build if and only if they are well-formed. If they do not, then the error is that of the
first demand that does not hold. -/
theorem Plan.build_ofRules (rules : List Rule) :
    ((∃ engine, (ofRules rules).build = .ok engine) ↔ WellFormed rules)
      ∧ ∀ error, (ofRules rules).build = .error error
        ↔ ∃ before demand after, demands rules = before ++ demand :: after
          ∧ AllHold before ∧ demand.holds = false ∧ demand.error = error := by
  rw [wellFormed_iff, ← refusal?_eq_none_iff, ← errorOf?_build, errorOf?_eq_none_iff]
  refine ⟨Iff.rfl, fun error => ?_⟩
  rw [← refusal?_eq_some_iff, ← errorOf?_build, errorOf?_eq_some_iff]

end Multimatch
