import Multimatch.Proofs.EndOfData.InTurn
import Multimatch.Proofs.EndOfData.Reflects

/-!
# What waits for an automaton

Between two passes an automaton gets some events (`Pass.ChargedBy`). The first one drops what an
earlier call has left and finds the automaton prepared (`Charge.push`). Automata get events by
triggers only, and so from actions that are run: one event for every time that the action lists the
automaton, in the order of the runs, whatever puts them in this order (`Pass.Charged`,
`Occasion.topsAt`).
-/

namespace Multimatch

open PassM

namespace Scratch

variable {scratch next : Scratch} {queue : Nat}

theorem exists_queues_of_clearQueue (run : scratch.clearQueue queue = .ok next) :
    ∃ queues, next = { scratch with queues } := by
  obtain ⟨queues, -, run⟩ := Except.bind_eq_ok_iff.1 run
  cases run
  exact ⟨queues, rfl⟩

theorem exists_queues_of_pushEvent {event : QueueEvent}
    (run : scratch.pushEvent queue event = .ok next) :
    ∃ queues, next = { scratch with queues } := by
  obtain ⟨events, -, run⟩ := Except.bind_eq_ok_iff.1 run
  obtain ⟨queues, -, run⟩ := Except.bind_eq_ok_iff.1 run
  cases run
  exact ⟨queues, rfl⟩

end Scratch

/-! ## What waits for an automaton -/

/-- What is known of an automaton: whether it was triggered and is active, the events that wait for
it, and its full state. -/
structure Charge where
  triggered : Bool
  active : Bool
  events : Except Fault (List QueueEvent)
  full : Except Fault Bytes

namespace Charge

variable {automaton : Automaton} {charge : Charge} {event : QueueEvent} {events : List QueueEvent}

/-- One more event. The first one finds no other, and the automaton prepared. -/
def push (automaton : Automaton) (charge : Charge) (event : QueueEvent) : Charge :=
  if charge.triggered then
    { charge with active := true, events := charge.events.map (· ++ [event]) }
  else
    { triggered := true
      active := true
      events := .ok [event]
      full := charge.full.bind fun old => old.overwritten (automaton.prepare old) }

theorem foldl_push_of_triggered (htriggered : charge.triggered = true)
    (hactive : charge.active = true) {before : List QueueEvent}
    (hbefore : charge.events = .ok before) :
    events.foldl (push automaton) charge = { charge with events := .ok (before ++ events) } := by
  induction events generalizing charge before with
  | nil => simp [← hbefore]
  | cons event events ih =>
    have hpush : push automaton charge event
        = { charge with events := .ok (before ++ [event]) } := by
      simp [push, htriggered, hactive, hbefore, Except.map]
    have hrest := @ih { charge with events := .ok (before ++ [event]) } htriggered hactive _ rfl
    rw [List.foldl_cons, hpush, hrest, List.append_assoc]
    rfl

/-- What waits for an automaton that was not triggered before. -/
theorem foldl_push_of_fresh (hfresh : charge.triggered = false) (hne : events ≠ []) :
    events.foldl (push automaton) charge = ⟨true, true, .ok events,
      charge.full.bind fun old => old.overwritten (automaton.prepare old)⟩ := by
  obtain ⟨event, events, rfl⟩ := List.exists_cons_of_ne_nil hne
  have hpush : push automaton charge event = ⟨true, true, .ok [event],
      charge.full.bind fun old => old.overwritten (automaton.prepare old)⟩ := by
    simp [push, hfresh]
  rw [List.foldl_cons, hpush]
  exact @foldl_push_of_triggered _ ⟨true, true, .ok [event], _⟩ _ rfl rfl _ rfl

end Charge

variable {σ : Type}

/-- What a pass knows of an automaton. -/
def Pass.chargeOf (engine : Engine) (pass : Pass σ) (queue : Nat) : Charge where
  triggered := pass.scratch.triggered.isOn queue
  active := pass.stream.leaves.isOn queue
  events := pass.scratch.queue queue
  full := pass.scratch.fullOf engine queue

theorem Pass.SameAutomata.chargeOf_eq {pass next : Pass σ} (h : Pass.SameAutomata pass next)
    (engine : Engine) (queue : Nat) : next.chargeOf engine queue = pass.chargeOf engine queue := by
  unfold chargeOf Scratch.queue Scratch.fullOf
  rw [h.triggered, h.leaves, h.queues, h.full]

/-- Between two passes every automaton got some events, and nothing else was done with it. -/
structure Pass.ChargedBy (engine : Engine) (events : Nat → List QueueEvent) (pass next : Pass σ) :
    Prop where
  stored : next.stream.stored = pass.stream.stored
  charge : ∀ {queue slot}, engine.slots[queue]? = some slot → next.chargeOf engine queue
    = (events queue).foldl (Charge.push slot.automaton) (pass.chargeOf engine queue)

namespace Pass.ChargedBy

variable {engine : Engine} {events more : Nat → List QueueEvent} {pass middle next : Pass σ}

theorem trans (h : ChargedBy engine events pass middle) (h' : ChargedBy engine more middle next) :
    ChargedBy engine (fun queue => events queue ++ more queue) pass next where
  stored := h'.stored.trans h.stored
  charge hslot := by rw [h'.charge hslot, h.charge hslot, List.foldl_append]

/-- Where nothing is done with automata, none gets an event. -/
theorem of_same (h : Pass.SameAutomata pass next) :
    ChargedBy engine (fun _ => []) pass next where
  stored := h.stored
  charge {queue _} _ := h.chargeOf_eq engine queue

end Pass.ChargedBy

namespace Occasion

variable {occasion : Occasion σ}

/-! ## Triggers -/

/-- The events of a list of triggers at a place that are for one automaton. -/
def topsFor (location : Int64) (ids : List QueueId) (queue : Nat) : List QueueEvent :=
  (ids.filter (·.toNat = queue)).map fun _ => ⟨.top, location⟩

theorem topsFor_cons (location : Int64) (id : QueueId) (ids : List QueueId) (queue : Nat) :
    topsFor location (id :: ids) queue
      = topsFor location [id] queue ++ topsFor location ids queue := by
  by_cases h : id.toNat = queue
  · simp [topsFor, h]
  · simp [topsFor, h]

/-- Preparing an automaton marks it, drops its events and writes over its full state. -/
theorem exists_of_prepare {queue : Nat} {slot : Slot} {pass next : Pass σ} {answer : Unit}
    (h : occasion.prepare queue slot pass = .ok answer next) :
    ∃ triggered cleared old made prepared, pass.scratch.triggered.insert queue = .ok triggered
      ∧ { pass.scratch with triggered }.clearQueue queue = .ok cleared
      ∧ cleared.fullOf occasion.engine queue = .ok old
      ∧ slot.automaton.prepare old = .ok made
      ∧ cleared.setFull occasion.engine queue made = .ok prepared
      ∧ next.scratch = prepared ∧ next.stream = pass.stream := by
  obtain ⟨_, _, hget, h⟩ := exists_of_bind h
  cases hget
  obtain ⟨triggered, hinsert, h⟩ := exists_of_lift_bind h
  obtain ⟨_, _, hmark, h⟩ := exists_of_bind h
  cases hmark
  obtain ⟨_, _, hclear, h⟩ := exists_of_bind h
  obtain ⟨cleared, hcleared, rfl⟩ := exists_of_changeScratch hclear
  obtain ⟨_, _, hget, h⟩ := exists_of_bind h
  cases hget
  obtain ⟨old, hold, h⟩ := exists_of_lift_bind h
  obtain ⟨made, hmade, h⟩ := exists_of_lift_bind h
  obtain ⟨_, _, hwrite, h⟩ := exists_of_bind h
  obtain ⟨prepared, hprepared, rfl⟩ := exists_of_changeScratch hwrite
  obtain ⟨_, _, hget, h⟩ := exists_of_bind h
  cases hget
  obtain ⟨_, -, h⟩ := exists_of_lift_bind h
  cases h
  exact ⟨triggered, cleared, old, made, prepared, hinsert, hcleared, hold, hmade, hprepared, rfl,
    rfl⟩

/-- What a trigger does: it prepares an automaton that was not triggered before, switches it on, and
adds an event. -/
theorem exists_of_trigger {offset : Nat} {id : QueueId} {pass next : Pass σ} {answer : Unit}
    (h : occasion.trigger offset id pass = .ok answer next) :
    ∃ slot prepared leaves, occasion.engine.slot id.toNat = .ok slot
      ∧ (pass.scratch.triggered.isOn id.toNat = true → prepared = pass)
      ∧ (pass.scratch.triggered.isOn id.toNat = false →
        occasion.prepare id.toNat slot pass = .ok () prepared)
      ∧ prepared.stream.leaves.insert id.toNat = .ok leaves
      ∧ prepared.scratch.pushEvent id.toNat ⟨.top, occasion.locate offset⟩
        = .ok next.scratch
      ∧ next.stream = { prepared.stream with leaves } := by
  obtain ⟨slot, hslot, h⟩ := exists_of_lift_bind h
  obtain ⟨_, _, hget, h⟩ := exists_of_bind h
  cases hget
  have hpush {prepared : Pass σ} (h : (do
      PassM.changeLeaves (·.insert id.toNat)
      let location := occasion.locate offset
      PassM.changeScratch (·.pushEvent id.toNat ⟨.top, location⟩)
      PassM.note (.triggered id.toNat location) : PassM σ Unit) prepared = .ok answer next) :
      ∃ leaves, prepared.stream.leaves.insert id.toNat = .ok leaves
        ∧ prepared.scratch.pushEvent id.toNat ⟨.top, occasion.locate offset⟩
          = .ok next.scratch
        ∧ next.stream = { prepared.stream with leaves } := by
    obtain ⟨_, _, hon, h⟩ := exists_of_bind h
    obtain ⟨leaves, hinsert, rfl⟩ := exists_of_changeLeaves hon
    obtain ⟨_, _, hpush, h⟩ := exists_of_bind h
    obtain ⟨pushed, hpushed, rfl⟩ := exists_of_changeScratch hpush
    cases h
    exact ⟨leaves, hinsert, hpushed, rfl⟩
  obtain ⟨isTriggered, hcontains, h⟩ := exists_of_lift_bind h
  rw [FlagSet.isOn_of_contains hcontains]
  cases isTriggered with
  | true =>
    obtain ⟨leaves, hrest⟩ := hpush h
    exact ⟨slot, pass, leaves, hslot, fun _ => rfl, nofun, hrest⟩
  | false =>
    obtain ⟨_, prepared, hprepare, h⟩ := exists_of_bind h
    obtain ⟨leaves, hrest⟩ := hpush h
    exact ⟨slot, prepared, leaves, hslot, nofun, fun _ => hprepare, hrest⟩

section Trigger

variable {pass next : Pass σ} {answer : Unit}

/-- After an automaton was prepared, it is marked and no event waits for it. -/
theorem charge_of_prepare {queue : Nat} {slot : Slot}
    (h : occasion.prepare queue slot pass = .ok answer next) :
    next.stream = pass.stream
      ∧ next.chargeOf occasion.engine queue = ⟨true, pass.stream.leaves.isOn queue, .ok [],
        (pass.scratch.fullOf occasion.engine queue).bind fun old =>
          old.overwritten (slot.automaton.prepare old)⟩ := by
  obtain ⟨triggered, cleared, old, made, prepared, hinsert, hclear, hold, hmade, hset, hscratch,
    hstream⟩ := exists_of_prepare h
  obtain ⟨hempty, htriggered⟩ := Scratch.queue_of_clearQueue hclear
  obtain ⟨queues, rfl⟩ := Scratch.exists_queues_of_clearQueue hclear
  have hfull := Scratch.fullOf_of_setFull hold hset
  obtain ⟨written, rfl⟩ := Scratch.exists_full_of_setFull hset
  have hmarked : triggered.isOn queue = true := by
    rw [FlagSet.isOn_of_insert hinsert, decide_eq_true rfl, Bool.true_or]
  have hold : pass.scratch.fullOf occasion.engine queue = .ok old := hold
  refine ⟨hstream, ?_⟩
  rw [Pass.chargeOf, hscratch, hstream, hfull, hold, ← hmade]
  exact congrArg₂ (Charge.mk · _ · _) hmarked hempty

/-- A trigger finds its automaton prepared, before it or by it. -/
theorem charge_of_trigger {offset : Nat} {id : QueueId}
    (h : occasion.trigger offset id pass = .ok answer next) :
    ∃ slot leaves, ∃ prepared : Scratch, occasion.engine.slots[id.toNat]? = some slot
      ∧ prepared.triggered.isOn id.toNat = true
      ∧ pass.stream.leaves.insert id.toNat = .ok leaves
      ∧ prepared.pushEvent id.toNat ⟨.top, occasion.locate offset⟩ = .ok next.scratch
      ∧ next.stream = { pass.stream with leaves }
      ∧ ∀ event, (pass.chargeOf occasion.engine id.toNat).push slot.automaton event
        = ⟨true, true, (prepared.queue id.toNat).map (· ++ [event]),
          prepared.fullOf occasion.engine id.toNat⟩ := by
  obtain ⟨slot, prepared, leaves, hslot, hmarked, hfresh, hinsert, hpush, hstream⟩ :=
    exists_of_trigger h
  have hslot := elementAt_eq_ok_iff.1 hslot
  cases htriggered : pass.scratch.triggered.isOn id.toNat with
  | true =>
    obtain rfl := hmarked htriggered
    refine ⟨slot, leaves, prepared.scratch, hslot, htriggered, hinsert, hpush, hstream, ?_⟩
    intro event
    simp [Charge.push, Pass.chargeOf, htriggered]
  | false =>
    obtain ⟨hsame, hcharge⟩ := charge_of_prepare (hfresh htriggered)
    obtain ⟨hon, -, hevents, hfull⟩ := Charge.mk.inj hcharge
    rw [hsame] at hinsert hstream
    refine ⟨slot, leaves, prepared.scratch, hslot, hon, hinsert, hpush, hstream, ?_⟩
    intro event
    rw [hevents, hfull]
    simp [Charge.push, Pass.chargeOf, htriggered, Except.map]

/-- A trigger adds its event to what waits for the automaton, and counts for no other. -/
theorem chargedBy_trigger (hapart : occasion.engine.IsApart) {offset : Nat} {id : QueueId}
    (h : occasion.trigger offset id pass = .ok answer next) :
    Pass.ChargedBy occasion.engine (topsFor (occasion.locate offset) [id]) pass next := by
  obtain ⟨_, leaves, prepared, hfound, hon, hinsert, hpush, hstream, hcharge⟩ := charge_of_trigger h
  refine ⟨?stored, fun {queue slot} hslot => ?charge⟩
  case stored => rw [hstream]
  case charge =>
    by_cases hqueue : id.toNat = queue
    · subst hqueue
      cases hslot.symm.trans hfound
      obtain ⟨events, hevents, hpushed⟩ := Scratch.queue_of_pushEvent hpush
      obtain ⟨queues, hqueues⟩ := Scratch.exists_queues_of_pushEvent hpush
      have hactive : leaves.isOn id.toNat = true := by
        rw [FlagSet.isOn_of_insert hinsert, decide_eq_true rfl, Bool.true_or]
      have htops : topsFor (occasion.locate offset) [id] id.toNat
          = [⟨.top, occasion.locate offset⟩] := by
        simp [topsFor]
      rw [htops, List.foldl_cons, List.foldl_nil, hcharge, Pass.chargeOf, hstream, hpushed, hevents]
      rw [hqueues]
      exact congrArg₂ (Charge.mk · · _ _) hon hactive
    · have htops : topsFor (occasion.locate offset) [id] queue = [] := by
        simp [topsFor, hqueue]
      have haround := (spares_trigger hqueue hapart rfl offset pass).of_eq (.refl pass) h
      have hactive : leaves.isOn queue = pass.stream.leaves.isOn queue :=
        FlagSet.isOn_of_insert_of_ne hinsert (Ne.symm hqueue)
      rw [htops, List.foldl_nil, Pass.chargeOf, Pass.chargeOf, hstream, hactive,
        haround.scratch.triggered, haround.scratch.events, haround.scratch.full]

theorem chargedBy_triggerAll (hapart : occasion.engine.IsApart) {offset : Nat}
    {ids : List QueueId} (h : occasion.triggerAll offset ids pass = .ok answer next) :
    Pass.ChargedBy occasion.engine (topsFor (occasion.locate offset) ids) pass next := by
  induction ids generalizing pass with
  | nil =>
    cases h
    exact .of_same (refl_of Pass.SameAutomata next)
  | cons id ids ih =>
    obtain ⟨_, middle, hfirst, hrest⟩ := exists_of_bind h
    have hcharged := (chargedBy_trigger hapart hfirst).trans (ih hrest)
    simp only [← topsFor_cons] at hcharged
    exact hcharged

end Trigger

/-! ## Actions -/

/-- The events that some runs have for one automaton: one for every time that the action of a run
lists it, at the place of the run. -/
def topsAt (occasion : Occasion σ) (made : List (Nat × LiteralId)) (queue : Nat) :
    List QueueEvent :=
  made.flatMap fun run => match occasion.actionOf run with
    | some action => topsFor (occasion.locate run.1) action.suffixes queue
    | none => []

theorem topsAt_append (made more : List (Nat × LiteralId)) (queue : Nat) :
    occasion.topsAt (made ++ more) queue
      = occasion.topsAt made queue ++ occasion.topsAt more queue :=
  List.flatMap_append

theorem topsAt_of_acts {run : Nat × LiteralId} {action : Action}
    (haction : occasion.actionOf run = some action) :
    occasion.topsAt [run] = topsFor (occasion.locate run.1) action.suffixes := by
  funext queue
  simp [topsAt, haction]

theorem topsAt_of_idle {run : Nat × LiteralId} (hidle : occasion.actionOf run = none) :
    occasion.topsAt [run] = fun _ => [] := by
  funext queue
  simp [topsAt, hidle]

end Occasion

/-- Between two passes nobody halted, some actions were run, and automata got the events of these
runs. -/
structure Pass.Charged (occasion : Occasion σ) (pass next : Pass σ) : Prop where
  running : pass.halted = false → next.halted = false
  exists_made : pass.halted = false → ∃ made, next.runs = pass.runs ++ made
    ∧ Pass.ChargedBy occasion.engine (occasion.topsAt made) pass next

namespace Pass.Charged

variable {occasion : Occasion σ} {pass next : Pass σ}

/-- Where nothing is run and nothing done with automata, none gets an event. -/
theorem of_same (h : Pass.SameAutomata pass next) (hruns : next.runs = pass.runs)
    (hrunning : pass.halted = false → next.halted = false) : Charged occasion pass next where
  running := hrunning
  exists_made _ := ⟨[], hruns.trans (List.append_nil _).symm, .of_same h⟩

instance : IsPreorder (Pass σ) (Pass.Charged occasion) where
  refl pass := of_same (refl_of Pass.SameAutomata pass) rfl id
  trans pass middle next h h' := by
    refine ⟨fun hpass => h'.running (h.running hpass), fun hpass => ?_⟩
    obtain ⟨made, hruns, hcharged⟩ := h.exists_made hpass
    obtain ⟨more, hruns', hcharged'⟩ := h'.exists_made (h.running hpass)
    refine ⟨made ++ more, ?_, ?_⟩
    · rw [hruns', hruns, List.append_assoc]
    · simpa only [← Occasion.topsAt_append] using hcharged.trans hcharged'

end Pass.Charged

namespace Occasion

variable {occasion : Occasion σ}

theorem overlooks_charged : Overlooks (Pass.Charged occasion) where
  delayed _ _ := .of_same ⟨rfl, rfl, rfl, rfl, rfl⟩ rfl id
  lastEnd _ _ := .of_same ⟨rfl, rfl, rfl, rfl, rfl⟩ rfl id
  caughtUpTo _ _ := .of_same ⟨rfl, rfl, rfl, rfl, rfl⟩ rfl id

theorem chargedBy_settle (hapart : occasion.engine.IsApart) {offset : Nat} {action : Action}
    {pass next : Pass σ} {control : Control}
    (h : occasion.settle offset action pass = .ok control next) :
    next.halted = pass.halted ∧ next.runs = pass.runs ∧ Pass.ChargedBy occasion.engine
      (topsFor (occasion.locate offset) action.suffixes) pass next := by
  obtain ⟨_, lit, hroles, h⟩ := exists_of_bind h
  obtain ⟨_, triggered, hqueues, h⟩ := exists_of_bind h
  cases h
  have hstory := (occasion.silent_switchAllOn occasion.callback _).keeps hroles
  have hstory' := (occasion.sameRoles_triggerAll occasion.callback _ _).keeps hqueues
  have hsame : Pass.SameAutomata pass lit := sameAutomata_switchAllOn _ hroles
  have hlit : Pass.ChargedBy occasion.engine (fun _ => []) pass lit := .of_same hsame
  have hcharged := hlit.trans (chargedBy_triggerAll hapart hqueues)
  exact ⟨hstory'.halted.trans hstory.halted, hstory'.runs.trans hstory.runs, { hcharged with }⟩

/-- Reports to a caller that does not halt count for no automaton. -/
theorem chargedBy_reports (hquiet : occasion.IsQuiet) {offset : Nat} {ids : List ReportId}
    {pass next : Pass σ} (hrunning : pass.halted = false) {control : Control}
    (h : Control.visitAll (occasion.report offset) ids pass = .ok control next) :
    control = .proceed ∧ next.halted = false ∧ next.runs = pass.runs
      ∧ Pass.ChargedBy occasion.engine (fun _ => []) pass next := by
  have hsame : Pass.SameAutomata pass next :=
    (Keeps.visitAll fun id _ => sameAutomata_report offset id) h
  obtain ⟨caller, hreports⟩ := reportAll_eq hquiet hrunning offset ids
  cases h.symm.trans hreports
  refine ⟨rfl, rfl, ?_, .of_same hsame⟩
  simp [Session.runs, JournalEntry.run?]

/-- An action that is run adds the events that it has for automata. -/
theorem charged_runAction (hapart : occasion.engine.IsApart) (hquiet : occasion.IsQuiet)
    (offset : Nat) (id : LiteralId) :
    Keeps (Pass.Charged occasion) (occasion.runAction offset id) := by
  intro pass control next h
  unfold runAction at h
  cases hfind : occasion.engine.actions.find? id with
  | none =>
    rw [hfind] at h
    cases h
    exact refl_of (Pass.Charged occasion) pass
  | some action =>
    rw [hfind] at h
    obtain ⟨_, noted, hnote, h⟩ := exists_of_bind h
    obtain ⟨hacted, hruns, hhalted⟩ : Pass.SameAutomata pass noted
        ∧ noted.runs = pass.runs ++ [(offset, id)] ∧ noted.halted = pass.halted := by
      cases hnote
      exact ⟨⟨rfl, rfl, rfl, rfl, rfl⟩, Pass.runs_note, rfl⟩
    have hnoted : Pass.ChargedBy occasion.engine (fun _ => []) pass noted := .of_same hacted
    by_cases hidle : action.onlyAtEnd ∧ offset ≠ occasion.offset
    · have haction : occasion.actionOf (offset, id) = none := by simp [actionOf, hfind, hidle]
      rw [if_pos hidle] at h
      cases h
      exact ⟨hhalted.trans, fun _ => ⟨_, hruns, topsAt_of_idle haction ▸ hnoted⟩⟩
    · have haction : occasion.actionOf (offset, id) = some action := by
        rw [actionOf, hfind, Option.filter_some, if_pos (decide_eq_true hidle)]
      rw [if_neg hidle] at h
      obtain ⟨answer, told, hreports, h⟩ := exists_of_bind h
      have hgoesOn (hpass : pass.halted = false) : next.halted = false
          ∧ ∃ made, next.runs = pass.runs ++ made
            ∧ Pass.ChargedBy occasion.engine (occasion.topsAt made) pass next := by
        obtain ⟨rfl, hrunning, hruns', htold⟩ :=
          chargedBy_reports hquiet (hhalted.trans hpass) hreports
        obtain ⟨hhalted', hruns'', hsettled⟩ := chargedBy_settle hapart h
        exact ⟨hhalted'.trans hrunning, _, hruns''.trans (hruns'.trans hruns),
          topsAt_of_acts haction ▸ hnoted.trans (htold.trans hsettled)⟩
      exact ⟨fun hpass => (hgoesOn hpass).1, fun hpass => (hgoesOn hpass).2⟩

/-- The scan of the last bytes adds the events of the actions that it runs. -/
theorem charged_scanTail (hapart : occasion.engine.IsApart) (hquiet : occasion.IsQuiet)
    (hsound : occasion.engine.IsSound) {matcher : EndMatcher}
    (hmatcher : occasion.engine.matcher? = some matcher) :
    Keeps (Pass.Charged occasion) (occasion.scanTail matcher) :=
  keeps_scanTail (charged_runAction hapart hquiet) overlooks_charged hsound hmatcher

end Occasion

end Multimatch
