import Mathlib.Data.Finset.Card
import Mathlib.Data.List.Induction
import Multimatch.Proofs.Table.Built
import Multimatch.Rules.Plan

/-!
# What building established

A plan that builds went through all of its checks (`Plan.build_eq_ok_iff`), so in its engine
everything that a rule refers to exists (`Engine.IsSound`, `Plan.isSound_of_build`). That covers
what the table of the literals at the end can report: each of these literals has an action.
-/

namespace Multimatch

section Distinct

variable {α : Type} [DecidableEq α] (xs : List α)

theorem nodup_eraseDups : xs.eraseDups.Nodup := by
  induction xs using List.reverseRecOn with
  | nil => exact .nil
  | append_singleton before x ih =>
    rw [List.eraseDups_append]
    by_cases hmem : x ∈ before
    · simpa [List.removeAll, hmem] using ih
    · have hlast : ([x].removeAll before).eraseDups = [x] := by
        simp [List.removeAll, hmem, List.eraseDups_cons]
      rw [hlast, List.nodup_append]
      refine ⟨ih, List.nodup_singleton x, fun a ha b hb heq => hmem ?_⟩
      rw [← List.mem_singleton.1 hb, ← heq]
      exact List.mem_eraseDups.1 ha

theorem length_eraseDups : xs.eraseDups.length = xs.toFinset.card := by
  have hsame : xs.eraseDups.toFinset = xs.toFinset := by
    ext x
    simp
  rw [← hsame, List.toFinset_card_of_nodup (nodup_eraseDups xs)]

end Distinct

section Except

variable {ε α β : Type}

/-- A check has nothing to hand on. -/
theorem Except.check_bind_eq_ok_iff {x : Except ε Unit} {f : Unit → Except ε β} {b : β} :
    x >>= f = .ok b ↔ x = .ok () ∧ f () = .ok b := by
  cases x <;> simp [bind, Except.bind]

end Except

namespace Plan

variable {plan : Plan}

theorem checkAll_eq_ok_iff {α : Type} {check : α → Except RuleError Unit} {xs : List α} :
    checkAll check xs = .ok () ↔ ∀ x ∈ xs, check x = .ok () := by
  induction xs with
  | nil => simp [checkAll]
  | cons x xs ih => simp [checkAll, Except.check_bind_eq_ok_iff, ih]

theorem checkState_eq_ok_iff {state : Nat} :
    plan.checkState state = .ok () ↔ state < plan.roleStates := by
  unfold checkState
  split <;> simp_all

theorem findRole_eq_ok_iff {id : RoleId} {role : Role} :
    plan.findRole id = .ok role ↔ plan.roles[id.toNat]? = some role := by
  unfold findRole
  split <;> simp_all

theorem checkStateful_eq_ok_iff {id : RoleId} : plan.checkStateful id = .ok () ↔
    ∃ role, plan.roles[id.toNat]? = some role ∧ role.state?.isSome = true := by
  unfold checkStateful
  simp only [Except.bind_eq_ok_iff, findRole_eq_ok_iff]
  refine exists_congr fun role => and_congr_right fun _ => ?_
  cases role.state?.isSome <;> simp [pure, Except.pure, throw, throwThe, MonadExceptOf.throw]

theorem checkRole_eq_ok_iff {role : Role} : plan.checkRole role = .ok () ↔
    ∀ state, role.state? = some state → state < plan.roleStates := by
  unfold checkRole
  cases role.state? with
  | none => simp
  | some state => simp [checkState_eq_ok_iff]

theorem checkEntry_eq_ok_iff {entry : WalkEntry} : plan.checkEntry entry = .ok () ↔
    ∃ role, plan.roles[entry.role.toNat]? = some role
      ∧ (∀ id, entry.predicate? = some id → id.toNat < plan.predicates.length)
      ∧ (entry.predicate? = none → role.isSimple = true) := by
  unfold checkEntry
  simp only [Except.bind_eq_ok_iff, findRole_eq_ok_iff]
  refine exists_congr fun role => and_congr_right fun _ => ?_
  cases entry.predicate? with
  | none => cases role.isSimple <;> simp [pure, Except.pure, throw, throwThe, MonadExceptOf.throw]
  | some id =>
    by_cases hlt : id.toNat < plan.predicates.length <;>
      simp [hlt, pure, Except.pure, throw, throwThe, MonadExceptOf.throw]

theorem checkStop_eq_ok_iff {stop : WalkStop} : plan.checkStop stop = .ok () ↔
    stop.state < plan.roleStates ∧ ∀ entry ∈ stop.entries, plan.checkEntry entry = .ok () := by
  simp only [checkStop, Except.check_bind_eq_ok_iff, checkState_eq_ok_iff, checkAll_eq_ok_iff]

theorem checkQueue_eq_ok_iff {queue : QueueId} :
    plan.checkQueue queue = .ok () ↔ queue.toNat < plan.automata.length := by
  unfold checkQueue
  split <;> simp_all

theorem checkAction_eq_ok_iff {action : Action} : plan.checkAction action = .ok () ↔
    (∀ id ∈ action.roles, plan.checkStateful id = .ok ())
      ∧ ∀ queue ∈ action.suffixes, queue.toNat < plan.automata.length := by
  simp only [checkAction, Except.check_bind_eq_ok_iff, checkAll_eq_ok_iff, checkQueue_eq_ok_iff]

theorem checkHasAction_eq_ok_iff {id : LiteralId} :
    plan.checkHasAction id = .ok () ↔ (plan.actions.find? id).isSome = true := by
  unfold checkHasAction
  split <;> simp_all

theorem buildMatcher_eq_ok_iff {literals : List Literal} {region : Nat} {matcher : EndMatcher} :
    plan.buildMatcher literals region = .ok matcher ↔
      region ≠ 0 ∧ (∀ literal ∈ literals, (plan.actions.find? literal.id).isSome = true)
        ∧ ∃ table, LiteralTable.build plan.matcherOptions literals = .ok table
          ∧ matcher = ⟨table, ((literals.map Literal.length).min?).getD 0, region⟩ := by
  unfold buildMatcher
  by_cases hregion : region = 0
  · simp [hregion, throw, throwThe, MonadExceptOf.throw, bind, Except.bind]
  · simp only [hregion, if_false, Except.check_bind_eq_ok_iff, checkAll_eq_ok_iff,
      checkHasAction_eq_ok_iff, ne_eq, not_false_eq_true, true_and]
    refine and_congr_right fun _ => ?_
    cases LiteralTable.build plan.matcherOptions literals with
    | ok table => simp [pure, Except.pure, eq_comm]
    | error error => simp [throw, throwThe, MonadExceptOf.throw]

theorem checkTriggers_eq_ok_iff : plan.checkTriggers = .ok () ↔
    (∀ trigger ∈ plan.triggers, plan.checkStateful trigger.role = .ok ())
      ∧ plan.triggerBytes.length ≤ maxTriggerBytes := by
  unfold checkTriggers
  simp only [Except.check_bind_eq_ok_iff, checkAll_eq_ok_iff]
  refine and_congr_right fun _ => ?_
  by_cases hmany : maxTriggerBytes < plan.triggerBytes.length
  · simp [hmany, throw, throwThe, MonadExceptOf.throw]
  · simp [hmany, pure, Except.pure, Nat.not_lt.1 hmany]

/-- The engine of the rules with a matcher for the end of the data. -/
def engineWith (plan : Plan) (matcher? : Option EndMatcher) : Engine :=
  { roles := plan.roles
    predicates := plan.predicates
    roleStates := plan.roleStates
    walk := plan.walk
    actions := plan.actions
    endEvent? := plan.endEvent?
    slots := Slot.layOut 0 0 plan.automata
    matcher?
    triggers := plan.triggers
    maxWidth? := plan.maxWidth?
    initialGroups := plan.initialGroups?.getD Groups.all
    catchesUpTriggers := plan.catchesUpTriggers }

/-- The matcher belongs to the literals of the plan, if it has any. -/
def MatcherIs (plan : Plan) (matcher? : Option EndMatcher) : Prop :=
  match plan.matcher? with
  | none => matcher? = none
  | some (literals, region) =>
    ∃ matcher, plan.buildMatcher literals region = .ok matcher ∧ matcher? = some matcher

/-- The last steps of building. -/
def finish (plan : Plan) : Except RuleError Engine :=
  match plan.matcher? with
  | some (literals, region) => do
    let matcher? ← some <$> plan.buildMatcher literals region
    plan.checkTriggers
    pure (plan.engineWith matcher?)
  | none => do
    let matcher? ← pure none
    plan.checkTriggers
    pure (plan.engineWith matcher?)

theorem finish_eq_ok_iff {engine : Engine} : plan.finish = .ok engine ↔
    ∃ matcher?, plan.MatcherIs matcher? ∧ plan.checkTriggers = .ok ()
      ∧ engine = plan.engineWith matcher? := by
  have hlast (matcher? : Option EndMatcher) :
      (plan.checkTriggers >>= fun _ => pure (plan.engineWith matcher?)) = .ok engine
        ↔ plan.checkTriggers = .ok () ∧ engine = plan.engineWith matcher? := by
    rw [Except.check_bind_eq_ok_iff]
    exact and_congr_right fun _ => ⟨fun h => (Except.ok.inj h).symm, fun h => by rw [h]; rfl⟩
  unfold finish MatcherIs
  cases plan.matcher? with
  | none =>
    refine (hlast none).trans ⟨fun h => ⟨none, rfl, h⟩, ?_⟩
    rintro ⟨_, rfl, h⟩
    exact h
  | some given =>
    dsimp only
    cases plan.buildMatcher given.1 given.2 with
    | error error =>
      constructor
      · intro h
        cases h
      · rintro ⟨_, ⟨_, h, _⟩, _⟩
        cases h
    | ok matcher =>
      refine (hlast (some matcher)).trans ⟨fun h => ⟨_, ⟨matcher, rfl, rfl⟩, h⟩, ?_⟩
      rintro ⟨_, ⟨_, hmatcher, rfl⟩, h⟩
      cases hmatcher
      exact h

theorem build_eq_finish : plan.build = (checkAll plan.checkRole plan.roles >>= fun _ =>
    checkAll plan.checkStop plan.walk >>= fun _ =>
    checkAll (fun entry => plan.checkAction entry.2) plan.actions >>= fun _ =>
    match plan.endEvent? with
    | some id => plan.checkHasAction id >>= fun _ => plan.finish
    | none => plan.finish) := rfl

/-- A plan builds if and only if every check passes, and then its engine holds its rules. -/
theorem build_eq_ok_iff {engine : Engine} : plan.build = .ok engine ↔
    (∀ role ∈ plan.roles, plan.checkRole role = .ok ())
      ∧ (∀ stop ∈ plan.walk, plan.checkStop stop = .ok ())
      ∧ (∀ entry ∈ plan.actions, plan.checkAction entry.2 = .ok ())
      ∧ (∀ id, plan.endEvent? = some id → (plan.actions.find? id).isSome = true)
      ∧ ∃ matcher?, plan.MatcherIs matcher? ∧ plan.checkTriggers = .ok ()
        ∧ engine = plan.engineWith matcher? := by
  rw [build_eq_finish, ← finish_eq_ok_iff]
  simp only [Except.check_bind_eq_ok_iff, checkAll_eq_ok_iff]
  refine and_congr_right fun _ => and_congr_right fun _ => and_congr_right fun _ => ?_
  cases plan.endEvent? with
  | none => simp
  | some id => simp [Except.check_bind_eq_ok_iff, checkHasAction_eq_ok_iff]

end Plan

/-! ## Where the states of automata are -/

/-- Ranges that follow one another, from a start up to a stop. -/
def Consecutive : Nat → List (Nat × Nat) → Nat → Prop
  | start, [], stop => start = stop
  | start, range :: ranges, stop =>
    range.1 = start ∧ start ≤ range.2 ∧ Consecutive range.2 ranges stop

/-- Ranges that make up all places below a length, each place in one of them. -/
structure Tiles (ranges : List (Nat × Nat)) (length : Nat) : Prop where
  consecutive : Consecutive 0 ranges length
  apart : ranges.Pairwise fun range later => range.2 ≤ later.1
  covered : ∀ place, (∃ range ∈ ranges, range.1 ≤ place ∧ place < range.2) ↔ place < length

namespace Consecutive

variable {ranges : List (Nat × Nat)} {start stop : Nat}

theorem start_le (h : Consecutive start ranges stop) : ∀ range ∈ ranges, start ≤ range.1 := by
  induction ranges generalizing start with
  | nil => exact nofun
  | cons range ranges ih =>
    obtain ⟨hstart, hle, hrest⟩ := h
    refine List.forall_mem_cons.2 ⟨Nat.le_of_eq hstart.symm, fun later hlater => ?_⟩
    exact Nat.le_trans hle (ih hrest later hlater)

theorem pairwise (h : Consecutive start ranges stop) :
    ranges.Pairwise fun range later => range.2 ≤ later.1 := by
  induction ranges generalizing start with
  | nil => exact .nil
  | cons range ranges ih =>
    obtain ⟨-, -, hrest⟩ := h
    exact List.pairwise_cons.2 ⟨hrest.start_le, ih hrest⟩

theorem start_le_stop (h : Consecutive start ranges stop) : start ≤ stop := by
  induction ranges generalizing start with
  | nil => exact Nat.le_of_eq h
  | cons range ranges ih =>
    obtain ⟨-, hle, hrest⟩ := h
    exact Nat.le_trans hle (ih hrest)

theorem stop_le (h : Consecutive start ranges stop) : ∀ range ∈ ranges, range.2 ≤ stop := by
  induction ranges generalizing start with
  | nil => exact nofun
  | cons range ranges ih =>
    obtain ⟨-, -, hrest⟩ := h
    exact List.forall_mem_cons.2 ⟨hrest.start_le_stop, ih hrest⟩

theorem exists_mem_iff (h : Consecutive start ranges stop) (place : Nat) :
    (∃ range ∈ ranges, range.1 ≤ place ∧ place < range.2) ↔ start ≤ place ∧ place < stop := by
  induction ranges generalizing start with
  | nil =>
    cases h
    constructor
    · rintro ⟨_, h, -⟩
      cases h
    · omega
  | cons range ranges ih =>
    obtain ⟨hstart, hle, hrest⟩ := h
    have hlast := hrest.start_le_stop
    rw [List.exists_mem_cons_iff, ih hrest, hstart]
    omega

theorem tiles {length : Nat} (h : Consecutive 0 ranges length) : Tiles ranges length where
  consecutive := h
  apart := h.pairwise
  covered place := (h.exists_mem_iff place).trans (by omega)

end Consecutive

namespace Slot

/-- Where the short states of automata are. -/
def streamRange (slot : Slot) : Nat × Nat := (slot.streamStart, slot.streamStop)

/-- Where the full states of automata are. -/
def fullRange (slot : Slot) : Nat × Nat := (slot.fullStart, slot.fullStop)

/-- Automata are laid out with their states one after the other. -/
theorem consecutive_layOut (automata : List Automaton) (streamStart fullStart : Nat) :
    let slots := layOut streamStart fullStart automata
    Consecutive streamStart (slots.map streamRange)
        (streamStart + slots.foldr (fun slot length => slot.automaton.streamLength + length) 0)
      ∧ Consecutive fullStart (slots.map fullRange)
        (fullStart + slots.foldr (fun slot length => slot.automaton.fullLength + length) 0) := by
  induction automata generalizing streamStart fullStart with
  | nil => exact ⟨rfl, rfl⟩
  | cons automaton automata ih =>
    obtain ⟨hstream, hfull⟩ := ih (streamStart + automaton.streamLength)
      (fullStart + automaton.fullLength)
    rw [Nat.add_assoc] at hstream hfull
    exact ⟨⟨rfl, Nat.le_add_right .., hstream⟩, rfl, Nat.le_add_right .., hfull⟩

theorem automaton_mem_of_mem_layOut {automata : List Automaton} {streamStart fullStart : Nat}
    {slot : Slot} (h : slot ∈ layOut streamStart fullStart automata) :
    slot.automaton ∈ automata := by
  induction automata generalizing streamStart fullStart with
  | nil => cases h
  | cons automaton automata ih =>
    rcases List.mem_cons.1 h with rfl | h
    · exact List.mem_cons_self
    · exact List.mem_cons_of_mem _ (ih h)

/-- Of two slots in order, one stops before the other starts. -/
theorem le_or_le_of_pairwise {slots : List Slot} {start stop : Slot → Nat}
    (h : slots.Pairwise fun slot later => stop slot ≤ start later) {queue other : Nat}
    {slot otherSlot : Slot} (hslot : slots[queue]? = some slot)
    (hother : slots[other]? = some otherSlot) (hne : queue ≠ other) :
    stop slot ≤ start otherSlot ∨ stop otherSlot ≤ start slot := by
  obtain ⟨hlength, rfl⟩ := List.getElem?_eq_some_iff.1 hslot
  obtain ⟨hlength', rfl⟩ := List.getElem?_eq_some_iff.1 hother
  rcases Nat.lt_or_gt_of_ne hne with hlt | hgt
  · exact .inl (List.pairwise_iff_getElem.1 h queue other hlength hlength' hlt)
  · exact .inr (List.pairwise_iff_getElem.1 h other queue hlength' hlength hgt)

theorem length_layOut (automata : List Automaton) (streamStart fullStart : Nat) :
    (layOut streamStart fullStart automata).length = automata.length := by
  induction automata generalizing streamStart fullStart with
  | nil => rfl
  | cons automaton automata ih => simp [layOut, ih]

end Slot

theorem Actions.mem_of_find? {actions : Actions} {id : LiteralId} {action : Action}
    (h : actions.find? id = some action) : (id, action) ∈ actions := by
  induction actions with
  | nil => cases h
  | cons entry actions ih =>
    obtain ⟨other, known⟩ := entry
    rw [find?, List.lookup_cons] at h
    by_cases heq : id = other
    · subst heq
      rw [beq_self_eq_true] at h
      cases h
      exact List.mem_cons_self
    · rw [beq_false_of_ne heq] at h
      exact List.mem_cons_of_mem _ (ih h)

/-! ## Engines without loose ends -/

namespace Engine

/-- A role exists and has a flag that exists. -/
def HasFlag (engine : Engine) (id : RoleId) : Prop :=
  ∃ role state, engine.roles[id.toNat]? = some role ∧ role.state? = some state
    ∧ state < engine.roleStates

/-- The matcher looks for literals that have actions, with the table of these literals. -/
def Serves (engine : Engine) (matcher : EndMatcher) (literals : List Literal) : Prop :=
  (∃ options, LiteralTable.build options literals = .ok matcher.table)
    ∧ (∀ literal ∈ literals, (engine.actions.find? literal.id).isSome = true)
    ∧ matcher.minWidth = ((literals.map Literal.length).min?).getD 0

/-- Whatever a rule of the engine refers to exists. -/
structure IsSound (engine : Engine) : Prop where
  state_lt : ∀ role ∈ engine.roles, ∀ state, role.state? = some state → state < engine.roleStates
  entry : ∀ stop ∈ engine.walk, ∀ entry ∈ stop.entries,
    (∃ role, engine.roles[entry.role.toNat]? = some role)
      ∧ ∀ id, entry.predicate? = some id → id.toNat < engine.predicates.length
  action : ∀ {id action}, engine.actions.find? id = some action →
    (∀ id ∈ action.roles, engine.HasFlag id)
      ∧ ∀ queue ∈ action.suffixes, queue.toNat < engine.slots.length
  endEvent : ∀ id, engine.endEvent? = some id → (engine.actions.find? id).isSome = true
  trigger : ∀ trigger ∈ engine.triggers, engine.HasFlag trigger.role
  triggerBytes : (engine.triggers.map (·.byte)).toFinset.card ≤ 3
  slot : ∀ slot ∈ engine.slots,
    slot.streamStop ≤ engine.streamLength ∧ slot.fullStop ≤ engine.fullLength
  slots_le : engine.slots.length ≤ Ident.limit
  matcher : ∀ matcher, engine.matcher? = some matcher → ∃ literals, engine.Serves matcher literals

/-- No byte is in the full states of two automata. -/
def IsApart (engine : Engine) : Prop :=
  engine.slots.Pairwise fun slot later => slot.fullStop ≤ later.fullStart

/-- Of two automata, one has its full state before that of the other. -/
theorem IsApart.le_or_le {engine : Engine} (h : engine.IsApart) {queue other : Nat}
    {slot otherSlot : Slot} (hslot : engine.slots[queue]? = some slot)
    (hother : engine.slots[other]? = some otherSlot) (hne : queue ≠ other) :
    slot.fullStop ≤ otherSlot.fullStart ∨ otherSlot.fullStop ≤ slot.fullStart :=
  Slot.le_or_le_of_pairwise h hslot hother hne

end Engine

namespace Plan

variable {plan : Plan} {engine : Engine}

theorem hasFlag_of_checkStateful {matcher? : Option EndMatcher} {id : RoleId}
    (hroles : ∀ role ∈ plan.roles, plan.checkRole role = .ok ())
    (h : plan.checkStateful id = .ok ()) : (plan.engineWith matcher?).HasFlag id := by
  obtain ⟨role, hrole, hstate⟩ := checkStateful_eq_ok_iff.1 h
  obtain ⟨state, hstate⟩ := Option.isSome_iff_exists.1 hstate
  exact ⟨role, state, hrole, hstate,
    checkRole_eq_ok_iff.1 (hroles role (List.mem_of_getElem? hrole)) state hstate⟩

/-- The matcher of an engine looks for the literals of its plan. -/
theorem exists_serves_of_build (hbuild : plan.build = .ok engine) {literals : List Literal}
    {region : Nat} (hliterals : plan.matcher? = some (literals, region)) :
    ∃ matcher, engine.matcher? = some matcher ∧ matcher.region = region
      ∧ engine.Serves matcher literals := by
  obtain ⟨-, -, -, -, matcher?, hmatcher, -, rfl⟩ := build_eq_ok_iff.1 hbuild
  rw [MatcherIs, hliterals] at hmatcher
  obtain ⟨matcher, hmade, rfl⟩ := hmatcher
  obtain ⟨-, hactions, table, htable, rfl⟩ := buildMatcher_eq_ok_iff.1 hmade
  exact ⟨_, rfl, rfl, ⟨_, htable⟩, hactions, rfl⟩

/-- The states of automata fill what is kept for them. -/
theorem tiles_of_build (hbuild : plan.build = .ok engine) :
    Tiles (engine.slots.map Slot.streamRange) engine.streamLength
      ∧ Tiles (engine.slots.map Slot.fullRange) engine.fullLength := by
  obtain ⟨-, -, -, -, matcher?, -, -, rfl⟩ := build_eq_ok_iff.1 hbuild
  obtain ⟨hstream, hfull⟩ := Slot.consecutive_layOut plan.automata 0 0
  rw [Nat.zero_add] at hstream hfull
  exact ⟨hstream.tiles, hfull.tiles⟩

/-- Building leaves no loose ends. -/
theorem isSound_of_build (hbuild : plan.build = .ok engine) : engine.IsSound := by
  obtain ⟨hroles, hwalk, hactions, hevent, matcher?, hmatcher, htriggers, rfl⟩ :=
    build_eq_ok_iff.1 hbuild
  have hslots : (plan.engineWith matcher?).slots.length = plan.automata.length :=
    Slot.length_layOut ..
  refine
    { state_lt := fun role hrole => checkRole_eq_ok_iff.1 (hroles role hrole)
      entry := ?entry
      action := ?action
      endEvent := hevent
      trigger := fun trigger htrigger => hasFlag_of_checkStateful hroles
        ((checkTriggers_eq_ok_iff.1 htriggers).1 trigger htrigger)
      triggerBytes := length_eraseDups (plan.triggers.map (·.byte)) ▸
        (checkTriggers_eq_ok_iff.1 htriggers).2
      slot := fun slot hslot => ?slot
      slots_le := hslots ▸ plan.automata_le
      matcher := ?matcher }
  case entry =>
    intro stop hstop entry hentry
    obtain ⟨role, hrole, hpredicate, -⟩ :=
      checkEntry_eq_ok_iff.1 ((checkStop_eq_ok_iff.1 (hwalk stop hstop)).2 entry hentry)
    exact ⟨⟨role, hrole⟩, hpredicate⟩
  case action =>
    intro id action hfind
    obtain ⟨hstateful, hqueues⟩ :=
      checkAction_eq_ok_iff.1 (hactions _ (Actions.mem_of_find? hfind))
    refine ⟨fun id hid => ?_, fun queue hqueue => ?_⟩
    · exact hasFlag_of_checkStateful hroles (hstateful id hid)
    · rw [hslots]
      exact hqueues queue hqueue
  case slot =>
    obtain ⟨hstream, hfull⟩ := tiles_of_build hbuild
    exact ⟨hstream.consecutive.stop_le _ (List.mem_map_of_mem hslot),
      hfull.consecutive.stop_le _ (List.mem_map_of_mem hslot)⟩
  case matcher =>
    intro matcher hsome
    cases hplan : plan.matcher? with
    | none =>
      rw [MatcherIs, hplan] at hmatcher
      cases hmatcher.symm.trans hsome
    | some given =>
      obtain ⟨built, hbuilt, -, hserves⟩ := exists_serves_of_build hbuild hplan
      cases hbuilt.symm.trans hsome
      exact ⟨given.1, hserves⟩

theorem isApart_of_build (hbuild : plan.build = .ok engine) : engine.IsApart :=
  List.pairwise_map.1 (tiles_of_build hbuild).2.apart

/-- The automata of the engine are those of the plan. -/
theorem automaton_mem_of_build (hbuild : plan.build = .ok engine) {slot : Slot}
    (h : slot ∈ engine.slots) : slot.automaton ∈ plan.automata := by
  obtain ⟨-, -, -, -, matcher?, -, -, rfl⟩ := build_eq_ok_iff.1 hbuild
  exact Slot.automaton_mem_of_mem_layOut h

theorem roleStates_of_build (hbuild : plan.build = .ok engine) :
    engine.roleStates = plan.roleStates := by
  obtain ⟨-, -, -, -, matcher?, -, -, rfl⟩ := build_eq_ok_iff.1 hbuild
  rfl

end Plan

end Multimatch
