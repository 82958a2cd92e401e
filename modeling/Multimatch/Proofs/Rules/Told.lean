import Mathlib.Data.List.Induction
import Multimatch.Proofs.Rules.Accepted
import Multimatch.Proofs.Rules.Stops
import Multimatch.Proofs.Scan.Naive
import Multimatch.Rules.Rule

/-!
# What a plan was told

Rules are told to a plan in any order. What is added comes behind what was added before, and what is
set replaces what was set before, so that all of it can be read off the list of the rules
(`Plan.ofRules_eq`).
-/

namespace Multimatch

/-! ## Actions that were set one after the other -/

namespace Actions

/-- The actions after some were set, as `Plan.setAction` sets them. -/
def gather (set : List (LiteralId × Action)) : Actions :=
  set.foldl (fun actions entry => insert entry.1 entry.2 actions) []

/-- The action that was set last for a literal. -/
def inForce? (set : List (LiteralId × Action)) (id : LiteralId) : Option Action :=
  set.reverse.lookup id

/-- The actions in force, in the order of the identifiers. -/
def allInForce (set : List (LiteralId × Action)) : List Action :=
  (Scanner.ascending (set.map (·.1))).filterMap (inForce? set)

/-- Actions are in the order of their identifiers, and no two of them have one identifier. -/
def Ascending (actions : Actions) : Prop := (actions.map (·.1)).Pairwise (·.toNat < ·.toNat)

variable {actions : Actions} {id : LiteralId} {action : Action}
  (set : List (LiteralId × Action)) (entry : LiteralId × Action)

theorem gather_concat : gather (set ++ [entry]) = insert entry.1 entry.2 (gather set) :=
  List.foldl_concat ..

theorem mem_keys_insert {other : LiteralId} : other ∈ (insert id action actions).map (·.1)
    ↔ other ∈ actions.map (·.1) ∨ other = id := by
  induction actions with
  | nil => simp [insert]
  | cons first actions ih =>
    rw [insert]
    split
    · simp [or_comm]
    · split
      · next heq => simp [heq, or_comm]
      · rw [List.map_cons, List.mem_cons, ih, List.map_cons, List.mem_cons, or_assoc]

theorem mem_keys_gather : id ∈ (gather set).map (·.1) ↔ id ∈ set.map (·.1) := by
  induction set using List.reverseRecOn with
  | nil => rfl
  | append_singleton before entry ih =>
    rw [gather_concat, mem_keys_insert, ih, List.map_append, List.mem_append, List.map_singleton,
      List.mem_singleton]

theorem ascending_insert (h : Ascending actions) : Ascending (insert id action actions) := by
  induction actions with
  | nil => exact List.pairwise_singleton ..
  | cons first actions ih =>
    obtain ⟨hfirst, hrest⟩ := List.pairwise_cons.1 h
    rw [insert]
    split
    · next hlt =>
      refine List.pairwise_cons.2 ⟨List.forall_mem_cons.2 ⟨hlt, fun other hother => ?_⟩, h⟩
      exact Nat.lt_trans hlt (hfirst other hother)
    · next hnotlt =>
      split
      · next heq =>
        subst heq
        exact List.pairwise_cons.2 ⟨hfirst, hrest⟩
      · next hne =>
        have hgt : first.1.toNat < id.toNat :=
          Nat.lt_of_le_of_ne (Nat.not_lt.1 hnotlt) fun heq => hne (Ident.toNat_inj heq.symm)
        refine List.pairwise_cons.2 ⟨fun other hother => ?_, ih hrest⟩
        rcases mem_keys_insert.1 hother with hother | rfl
        · exact hfirst other hother
        · exact hgt

theorem ascending_gather : Ascending (gather set) := by
  induction set using List.reverseRecOn with
  | nil => exact .nil
  | append_singleton before entry ih =>
    rw [gather_concat]
    exact ascending_insert ih

theorem find?_cons (first : LiteralId × Action) (other : LiteralId) :
    find? (first :: actions) other
      = if other = first.1 then some first.2 else actions.find? other := by
  rw [find?, List.lookup_cons]
  by_cases heq : other = first.1
  · simp [heq]
  · rw [beq_false_of_ne heq, if_neg heq]
    rfl

theorem find?_insert (other : LiteralId) : (insert id action actions).find? other
    = if other = id then some action else actions.find? other := by
  induction actions with
  | nil => rw [insert, find?_cons]
  | cons first actions ih =>
    rw [insert]
    split
    · rw [find?_cons]
    · split
      · next heq =>
        rw [find?_cons, find?_cons, heq]
        split <;> rfl
      · next hne =>
        rw [find?_cons, ih, find?_cons]
        split
        · next heq => rw [if_neg (heq ▸ Ne.symm hne)]
        · rfl

/-- What is in force is what was set last. -/
theorem find?_gather : (gather set).find? id = inForce? set id := by
  induction set using List.reverseRecOn with
  | nil => rfl
  | append_singleton before entry ih =>
    rw [gather_concat, find?_insert, ih, inForce?, inForce?, List.reverse_concat]
    exact (find?_cons entry id).symm

theorem find?_of_mem (h : Ascending actions) (hmem : (id, action) ∈ actions) :
    actions.find? id = some action := by
  induction actions with
  | nil => cases hmem
  | cons first actions ih =>
    obtain ⟨hfirst, hrest⟩ := List.pairwise_cons.1 h
    rw [find?_cons]
    rcases List.mem_cons.1 hmem with rfl | hmem
    · rw [if_pos rfl]
    · have hlt : first.1.toNat < id.toNat := hfirst id (List.mem_map_of_mem hmem)
      rw [if_neg fun heq => Nat.ne_of_lt hlt (by rw [heq])]
      exact ih hrest hmem

theorem gather_eq : gather set = (Scanner.ascending (set.map (·.1))).filterMap fun id =>
    (inForce? set id).map (id, ·) := by
  have hkeys : (gather set).map (·.1) = Scanner.ascending (set.map (·.1)) :=
    eq_of_ascending (ascending_gather set) (Scanner.pairwise_ascending _) fun id => by
      rw [mem_keys_gather, Scanner.mem_ascending]
  rw [← hkeys, List.filterMap_map]
  refine List.filterMap_some.symm.trans (List.filterMap_congr fun entry hentry => ?_)
  have hfind := find?_of_mem (ascending_gather set) hentry
  rw [find?_gather] at hfind
  simp [hfind]

theorem map_gather : (gather set).map (·.2) = allInForce set := by
  simp [gather_eq, allInForce, List.map_filterMap, Function.comp_def]

theorem mem_allInForce : action ∈ allInForce set ↔ ∃ id, inForce? set id = some action := by
  rw [allInForce, List.mem_filterMap]
  refine exists_congr fun id => and_iff_right_of_imp fun hforce => ?_
  rw [Scanner.mem_ascending, ← mem_keys_gather]
  rw [← find?_gather] at hforce
  exact List.mem_map_of_mem (mem_of_find? hforce)

end Actions

/-! ## What rules ask for -/

section Readings

variable (rules : List Rule)

/-- The roles, of which the first ones have an identifier. -/
def rolesIn : List Role :=
  (rules.filterMap fun | .role role => some role | _ => none).take Ident.limit

def predicatesIn : List Predicate :=
  (rules.filterMap fun | .predicate predicate => some predicate | _ => none).take Ident.limit

def automataIn : List Automaton :=
  (rules.filterMap fun | .automaton automaton => some automaton | _ => none).take Ident.limit

/-- The entries of the walk, each with the flag that leads to it. -/
def walkIn : List (Nat × WalkEntry) :=
  rules.filterMap fun | .walkEntry state entry => some (state, entry) | _ => none

def actionsIn : List (LiteralId × Action) :=
  rules.filterMap fun | .action id action => some (id, action) | _ => none

def triggersIn : List Trigger :=
  rules.filterMap fun | .trigger trigger => some trigger | _ => none

/-- What was set last, if anything was. -/
def lastSet? {α : Type} (read : Rule → Option α) : Option α := rules.reverse.findSome? read

def roleStatesIn : Nat :=
  (lastSet? rules fun | .roleStates count => some count | _ => none).getD 0

def endEventIn? : Option LiteralId :=
  (lastSet? rules fun | .endEvent id? => some id? | _ => none).join

def matcherIn? : Option (List Literal × Nat) :=
  lastSet? rules fun | .matcher literals region => some (literals, region) | _ => none

def matcherOptionsIn : Options :=
  (lastSet? rules fun | .matcherOptions options => some options | _ => none).getD {}

end Readings

namespace Plan

/-- What is added is taken in as long as there is an identifier for it. -/
theorem afterAdding_added {α : Type} {kind : IdentKind} (plan : Plan) (what : String)
    (elements : List α) (element : α)
    (next : { all : List α // all.length ≤ Ident.limit } → Plan) :
    plan.afterAdding ((added what elements element : Except RuleError (Ident kind × _)) >>=
        fun (id, all) => .ok (id, next all))
      = if h : elements.length < Ident.limit then
          next ⟨elements ++ [element], Nat.le_trans (Nat.le_of_eq List.length_append) h⟩
        else plan := by
  by_cases h : elements.length < Ident.limit <;> simp [added, h, afterAdding, bind, Except.bind]

section Tell

variable (plan : Plan)

theorem tell_role (role : Role) : plan.tell (.role role) =
    if h : plan.roles.length < Ident.limit then
      { plan with
        roles := plan.roles ++ [role]
        roles_le := Nat.le_trans (Nat.le_of_eq List.length_append) h }
    else plan :=
  afterAdding_added plan "roles" plan.roles role fun all =>
    { plan with roles := all.1, roles_le := all.2 }

theorem tell_predicate (predicate : Predicate) : plan.tell (.predicate predicate) =
    if h : plan.predicates.length < Ident.limit then
      { plan with
        predicates := plan.predicates ++ [predicate]
        predicates_le := Nat.le_trans (Nat.le_of_eq List.length_append) h }
    else plan :=
  afterAdding_added plan "predicates" plan.predicates predicate fun all =>
    { plan with predicates := all.1, predicates_le := all.2 }

theorem tell_automaton (automaton : Automaton) : plan.tell (.automaton automaton) =
    if h : plan.automata.length < Ident.limit then
      { plan with
        automata := plan.automata ++ [automaton]
        automata_le := Nat.le_trans (Nat.le_of_eq List.length_append) h }
    else plan :=
  afterAdding_added plan "queues" plan.automata automaton fun all =>
    { plan with automata := all.1, automata_le := all.2 }

end Tell

/-- One element more where only so many count. -/
theorem take_concat {α : Type} (limit : Nat) (xs : List α) (x : α) : (xs ++ [x]).take limit
    = if (xs.take limit).length < limit then xs.take limit ++ [x] else xs.take limit := by
  rw [List.length_take]
  split
  · next hlt =>
    have hlength : xs.length < limit := by omega
    rw [List.take_of_length_le (Nat.le_of_lt hlength), List.take_of_length_le]
    rw [List.length_append]
    exact hlength
  · next hle => exact List.take_append_of_le_length (by omega)

/-- What a plan holds that was told some rules. -/
theorem ofRules_eq (rules : List Rule) : ofRules rules =
    { roles := rolesIn rules
      predicates := predicatesIn rules
      roleStates := roleStatesIn rules
      walk := WalkStop.gather (walkIn rules)
      actions := Actions.gather (actionsIn rules)
      endEvent? := endEventIn? rules
      automata := automataIn rules
      matcher? := matcherIn? rules
      matcherOptions := matcherOptionsIn rules
      triggers := triggersIn rules
      maxWidth? := (lastSet? rules fun | .maxWidth width? => some width? | _ => none).join
      initialGroups? := lastSet? rules fun | .initialGroups groups => some groups | _ => none
      catchesUpTriggers :=
        (lastSet? rules fun | .catchesUpTriggers catchesUp => some catchesUp | _ => none).getD false
      roles_le := List.length_take_le ..
      predicates_le := List.length_take_le ..
      automata_le := List.length_take_le ..
    } := by
  induction rules using List.reverseRecOn with
  | nil => rfl
  | append_singleton before rule ih =>
    rw [ofRules, List.foldl_concat, ← ofRules, ih]
    simp only [rolesIn, predicatesIn, automataIn, walkIn, actionsIn, triggersIn, roleStatesIn,
      endEventIn?, matcherIn?, matcherOptionsIn, lastSet?, List.filterMap_append,
      List.reverse_concat, List.findSome?_cons]
    cases rule
    case role =>
      rw [tell_role]
      split
      · next hfree => simpa [take_concat] using hfree
      · next hfull => simp_all [take_concat]
    case predicate =>
      rw [tell_predicate]
      split
      · next hfree => simpa [take_concat] using hfree
      · next hfull => simp_all [take_concat]
    case automaton =>
      rw [tell_automaton]
      split
      · next hfree => simpa [take_concat] using hfree
      · next hfull => simp_all [take_concat]
    case walkEntry => simp [tell, addWalkEntry, WalkStop.gather_concat]
    case action => simp [tell, setAction, Actions.gather_concat]
    case trigger => simp [tell, addTrigger]
    all_goals simp [tell]

end Plan

end Multimatch
