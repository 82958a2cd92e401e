import Multimatch.Proofs.EndOfData.Fits
import Multimatch.Proofs.EndOfData.Logic
import Multimatch.Proofs.EndOfData.Waiting
import Multimatch.Proofs.EndOfData.Watch
import Multimatch.Proofs.FlagSet
import Multimatch.Proofs.Scan.Exact
import Multimatch.Proofs.Scan.Calls

/-!
# Passes never fault

A pass over states that fit its engine always has an answer. What every step keeps is
`Occasion.Fits`: the states still fit, and actions wait, run and trigger automata only as is agreed
on, as do reports (`Bounds`). A pass that goes on has not been halted
(`Occasion.Ready`), and one that ends in a halt has been, unless an automaton made the halt up
(`Occasion.Ends`). There is one lemma for every step, up to `Occasion.gives_body`.
-/

namespace Multimatch

open PassM

/-- Where things may happen in a pass, and the journal before it. -/
structure Bounds where
  /-- Where actions may run and trigger automata. -/
  places : Nat → Prop
  /-- Where reports may be. -/
  reports : Nat → Prop
  /-- What may wait. -/
  waits : Delayed → Prop
  before : List JournalEntry

namespace Occasion

variable {σ : Type} (occasion : Occasion σ) (bounds : Bounds)

/-- The entry of a journal is at a place where it may be. -/
def Logs : JournalEntry → Prop
  | .report offset _ _ => bounds.reports offset
  | .acted offset _ => bounds.places offset
  | .triggered _ location => ∃ offset, bounds.places offset ∧ location = occasion.locate offset
  | _ => True

/-- The engine has no loose ends, its automata are safe, and the end of the data is a place for
everything that happens there. -/
structure IsSound : Prop where
  engine : occasion.engine.IsSound
  safe : ∀ slot ∈ occasion.engine.slots, slot.automaton.IsSafe
  size : occasion.data.size ≤ occasion.offset
  offset : bounds.places occasion.offset
  reports : ∀ {offset}, bounds.places offset → bounds.reports offset
  due : ∀ {delayed}, bounds.waits delayed → delayed.due ≤ occasion.offset →
    bounds.places delayed.due
  finalReports : ∀ slot ∈ occasion.engine.slots, ∀ full short,
    (slot.automaton.finalReports full short occasion.offset).ReportsAt bounds.reports

structure Fits (pass : Pass σ) : Prop where
  stream : pass.stream.Fits occasion.engine
  scratch : pass.scratch.Fits occasion.engine
  delayed : ∀ delayed ∈ pass.scratch.delayed, bounds.waits delayed
  journal : ∃ entries, pass.journal = entries ++ bounds.before
    ∧ ∀ entry ∈ entries, occasion.Logs bounds entry

structure Ready (pass : Pass σ) : Prop extends occasion.Fits bounds pass where
  running : pass.halted = false

/-- What holds after a step that may halt. -/
def Ends : Control → Pass σ → Prop
  | .proceed, pass => occasion.Ready bounds pass
  | .halt, pass => occasion.Fits bounds pass
      ∧ ((∀ slot ∈ occasion.engine.slots, slot.automaton.IsHonest) → pass.halted = true)

variable {occasion bounds} {pass : Pass σ}

theorem Ends.fits {control : Control} (h : occasion.Ends bounds control pass) :
    occasion.Fits bounds pass := by
  cases control with
  | proceed => exact h.toFits
  | halt => exact h.1

theorem ends_of_halted_eq {control : Control} (h : occasion.Fits bounds pass)
    (hhalted : pass.halted = control.isHalt) : occasion.Ends bounds control pass := by
  cases control with
  | proceed => exact { h with running := hhalted }
  | halt => exact ⟨h, fun _ => hhalted⟩

/-! ## Changes of one part -/

namespace Fits

variable (h : occasion.Fits bounds pass)
include h

theorem note (entry : JournalEntry) (hentry : occasion.Logs bounds entry) :
    occasion.Fits bounds { pass with journal := entry :: pass.journal } := by
  obtain ⟨entries, hjournal, hlogs⟩ := h.journal
  refine { h with journal := ⟨entry :: entries, by simp [hjournal], ?_⟩ }
  exact List.forall_mem_cons.2 ⟨hentry, hlogs⟩

theorem withDelayed {delayed : List Delayed} (hdelayed : ∀ d ∈ delayed, bounds.waits d) :
    occasion.Fits bounds { pass with scratch := { pass.scratch with delayed } } :=
  { h with scratch := { h.scratch with }, delayed := hdelayed }

end Fits

namespace Ready

variable (h : occasion.Ready bounds pass)
include h

theorem note (entry : JournalEntry) (hentry : occasion.Logs bounds entry) :
    occasion.Ready bounds { pass with journal := entry :: pass.journal } :=
  { h.toFits.note entry hentry with running := h.running }

theorem withScratch {scratch : Scratch} (hscratch : scratch.Fits occasion.engine)
    (hdelayed : scratch.delayed = pass.scratch.delayed) :
    occasion.Ready bounds { pass with scratch } :=
  { h with scratch := hscratch, delayed := hdelayed ▸ h.delayed }

theorem withRoles {roles : FlagSet} (hroles : roles.SameShape pass.stream.roles) :
    occasion.Ready bounds { pass with stream := { pass.stream with roles } } :=
  { h with
    stream := { h.stream with
      roles := hroles.capacity.trans h.stream.roles
      roles_sized := hroles.isSized h.stream.roles_sized } }

theorem withLeaves {leaves : FlagSet} (hleaves : leaves.SameShape pass.stream.leaves) :
    occasion.Ready bounds { pass with stream := { pass.stream with leaves } } :=
  { h with
    stream := { h.stream with
      leaves := hleaves.capacity.trans h.stream.leaves
      leaves_sized := hleaves.isSized h.stream.leaves_sized } }

theorem withTriggered {triggered : FlagSet} (hshape : triggered.SameShape pass.scratch.triggered) :
    occasion.Ready bounds { pass with scratch := { pass.scratch with triggered } } :=
  h.withScratch { h.scratch with
    triggered := hshape.capacity.trans h.scratch.triggered
    triggered_sized := hshape.isSized h.scratch.triggered_sized } rfl

end Ready

/-! ## Reports -/

/-- A report is passed on exactly while nobody has halted. -/
theorem gives_report (h : occasion.Fits bounds pass) {offset : Nat} (id : ReportId)
    (hoffset : bounds.reports offset) :
    Gives (occasion.report offset id) pass fun control next => occasion.Fits bounds next
      ∧ next.halted = control.isHalt ∧ (pass.halted = true → control = .halt) := by
  obtain ⟨entries, hjournal, hlogs⟩ := h.journal
  simp only [report, gives_bind, gives_get, gives_ite, gives_pure, gives_set]
  refine ⟨fun hhalted => ⟨h, hhalted, fun _ => trivial⟩, fun hrunning => ⟨?_, trivial,
    fun hhalted => absurd hhalted hrunning⟩⟩
  refine { h with journal := ⟨.report offset id
    (occasion.callback pass.caller offset id).1 :: entries, ?_, ?_⟩ }
  · rw [hjournal, List.cons_append]
  · exact List.forall_mem_cons.2 ⟨hoffset, hlogs⟩

theorem ends_report (h : occasion.Ready bounds pass) {offset : Nat} (id : ReportId)
    (hoffset : bounds.reports offset) :
    Gives (occasion.report offset id) pass (occasion.Ends bounds) :=
  (gives_report h.toFits id hoffset).mono fun _ _ hnext => ends_of_halted_eq hnext.1 hnext.2.1

/-- A dialogue comes to its end. A halt at the end was told, unless the automaton made it up. -/
theorem gives_converse (queue : Nat) {dialogue : Dialogue} (h : occasion.Fits bounds pass)
    (hsafe : dialogue.NeverFaults) (hplace : dialogue.ReportsAt bounds.reports) :
    Gives (occasion.converse queue dialogue) pass fun control next => occasion.Fits bounds next
      ∧ (pass.halted = true ∨ dialogue.HaltsOnlyIfTold → control = .halt → next.halted = true)
      ∧ (pass.halted = true → next.halted = true) := by
  induction dialogue generalizing pass with
  | done control =>
    rw [converse, gives_pure]
    refine ⟨h, ?_, id⟩
    rintro (hhalted | hdone) hcontrol
    · exact hhalted
    · rw [show control = .proceed from hdone] at hcontrol
      cases hcontrol
  | fault fault => exact hsafe.elim
  | ask offset id next ih =>
    obtain ⟨hoffset, hnext⟩ := hplace
    rw [converse, gives_bind]
    refine (gives_report h id hoffset).mono fun control middle hmiddle => ?_
    obtain ⟨hfits, hhalted, htold⟩ := hmiddle
    rw [gives_bind, gives_note]
    have htold' := hfits.note (.told queue control) trivial
    refine (ih control htold' (hsafe control) (hnext control)).mono fun last after hafter => ?_
    obtain ⟨hfits, honest, hkeeps⟩ := hafter
    refine ⟨hfits, fun hbefore => honest ?_, fun hbefore => hkeeps ?_⟩
    · cases control with
      | halt => exact .inl hhalted
      | proceed =>
        rcases hbefore with hbefore | hbefore
        · exact absurd (htold hbefore) nofun
        · exact .inr hbefore
    · rw [htold hbefore] at hhalted
      exact hhalted

theorem ends_askFinal (hsound : occasion.IsSound bounds) (h : occasion.Ready bounds pass)
    {queue : Nat} {slot : Slot} (hslot : slot ∈ occasion.engine.slots) {full short : Bytes}
    (hfull : full.size = slot.automaton.fullLength)
    (hshort : short.size = slot.automaton.streamLength) :
    Gives (occasion.askFinal queue slot full short) pass (occasion.Ends bounds) := by
  unfold askFinal
  rw [gives_bind, gives_note, gives_bind]
  refine (gives_converse queue (h.toFits.note (.asked queue full short occasion.offset) trivial)
    ((hsound.safe slot hslot).finalReports occasion.offset hfull hshort)
    (hsound.finalReports slot hslot full short)).mono fun control next hnext => ?_
  obtain ⟨hfits, honest, -⟩ := hnext
  rw [gives_bind, gives_get, gives_pure]
  by_cases hhalted : next.halted = true
  · rw [if_pos hhalted]
    exact ⟨hfits, fun _ => hhalted⟩
  · rw [if_neg hhalted]
    cases control with
    | proceed => exact { hfits with running := Bool.eq_false_iff.2 hhalted }
    | halt => exact ⟨hfits, fun hall => honest (.inr (hall slot hslot ..)) rfl⟩

/-! ## Roles and triggers -/

/-- The flags with that of a role, if it has one that can be set. -/
def flagsWith (occasion : Occasion σ) (flags : FlagSet) (id : RoleId) : FlagSet :=
  match (occasion.engine.roles[id.toNat]?).bind (·.state?) with
  | some state =>
    match flags.insert state with
    | .ok flags => flags
    | .error _ => flags
  | none => flags

/-- A role that has a flag is switched on. -/
theorem ready_switchOn (h : occasion.Ready bounds pass) {id : RoleId}
    (hflag : occasion.engine.HasFlag id) :
    Gives (occasion.switchOn id) pass fun _ next => occasion.Ready bounds next
      ∧ next.stream.roles = occasion.flagsWith pass.stream.roles id := by
  obtain ⟨role, state, hrole, hstate, hlt⟩ := hflag
  have hbelow : state < pass.stream.roles.capacity := h.stream.roles ▸ hlt
  obtain ⟨roles, hinsert, hshape⟩ := h.stream.roles_sized.exists_insert hbelow
  simp only [switchOn, gives_bind, gives_lift]
  refine ⟨role, elementAt_eq_ok_iff.2 hrole, ?_⟩
  simp only [hstate, gives_changeRoles]
  refine ⟨roles, hinsert, h.withRoles hshape, ?_⟩
  simp [flagsWith, hrole, hstate, hinsert]

theorem ready_switchAllOn (h : occasion.Ready bounds pass) {ids : List RoleId}
    (hflags : ∀ id ∈ ids, occasion.engine.HasFlag id) :
    Gives (occasion.switchAllOn ids) pass fun _ next => occasion.Ready bounds next
      ∧ next.stream.roles = ids.foldl occasion.flagsWith pass.stream.roles := by
  induction ids generalizing pass with
  | nil => exact gives_pure.2 ⟨h, rfl⟩
  | cons id ids ih =>
    obtain ⟨hfirst, hrest⟩ := List.forall_mem_cons.1 hflags
    rw [switchAllOn, gives_bind]
    refine (ready_switchOn h hfirst).mono fun _ middle hmiddle => ?_
    have hnext := ih hmiddle.1 hrest
    rwa [hmiddle.2] at hnext

theorem ready_pullTriggers (hsound : occasion.IsSound bounds) (h : occasion.Ready bounds pass)
    (window : Bytes) :
    Gives (occasion.pullTriggers window) pass fun _ => occasion.Ready bounds := by
  simp only [pullTriggers, gives_bind, gives_get, gives_lift]
  refine ⟨_, Engine.pulled_eq hsound.engine.triggerBytes, ?_⟩
  refine (ready_switchAllOn h fun id hid => ?_).mono fun _ _ hnext => hnext.1
  obtain ⟨trigger, hpair, -, rfl⟩ := Engine.mem_pulledBy.1 hid
  exact hsound.engine.trigger trigger (List.of_mem_zip hpair).1

theorem ready_catchUp (hsound : occasion.IsSound bounds) (h : occasion.Ready bounds pass)
    (upTo : Nat) : Gives (occasion.catchUp upTo) pass fun _ => occasion.Ready bounds := by
  simp only [catchUp, gives_bind, gives_get, gives_ite, gives_modify]
  refine ⟨fun _ => ?_, fun _ => { h with }⟩
  exact (ready_pullTriggers hsound h _).mono fun _ next hnext => { hnext with }

theorem ready_switchAllOff (h : occasion.Ready bounds pass) {states : List Nat}
    (hstates : ∀ state ∈ states, state < occasion.engine.roleStates) :
    Gives (switchAllOff states) pass fun _ => occasion.Ready bounds := by
  induction states generalizing pass with
  | nil => exact gives_pure.2 h
  | cons state states ih =>
    obtain ⟨hfirst, hrest⟩ := List.forall_mem_cons.1 hstates
    obtain ⟨roles, herase, hshape⟩ := h.stream.roles_sized.exists_erase (h.stream.roles ▸ hfirst)
    simp only [switchAllOff, gives_bind, gives_changeRoles]
    exact ⟨roles, herase, ih (h.withRoles hshape) hrest⟩

theorem ready_dropLastByteRoles (hsound : occasion.IsSound bounds)
    (h : occasion.Ready bounds pass) (offset : Nat) :
    Gives (occasion.dropLastByteRoles offset) pass fun _ => occasion.Ready bounds := by
  simp only [dropLastByteRoles, gives_bind, gives_get, gives_ite, gives_pure]
  refine ⟨fun _ => ready_switchAllOff h fun state hstate => ?_, fun _ => h⟩
  obtain ⟨role, hrole, hstate⟩ := List.mem_filterMap.1 hstate
  exact hsound.engine.state_lt role (List.mem_filter.1 hrole).1 state hstate

/-! ## Queues -/

section Queues

variable (hsound : occasion.IsSound bounds) (h : occasion.Ready bounds pass) {queue : Nat}
  {slot : Slot} (hslot : occasion.engine.slots[queue]? = some slot)
include hsound h hslot

theorem ready_prepare :
    Gives (occasion.prepare queue slot) pass fun _ => occasion.Ready bounds := by
  have hlt := Engine.lt_length_of_slot hslot
  obtain ⟨triggered, hinsert, hshape⟩ :=
    h.scratch.triggered_sized.exists_insert (h.scratch.triggered ▸ hlt)
  have hmarked : occasion.Ready bounds { pass with scratch := { pass.scratch with triggered } } :=
    h.withTriggered hshape
  obtain ⟨cleared, hclear, hfits, hdelayed⟩ := hmarked.scratch.clearQueue_eq_ok hslot
  have hcleared := hmarked.withScratch hfits hdelayed
  obtain ⟨full, hfull, hsize⟩ := hfits.fullOf_eq_ok hsound.engine hslot
  obtain ⟨prepared, hprepare⟩ := (hsound.safe slot (List.mem_of_getElem? hslot)).prepare hsize
  obtain ⟨last, hset, hfits', hdelayed'⟩ := hfits.setFull_eq_ok hsound.engine hslot prepared
  obtain ⟨full', hfull', -⟩ := hfits'.fullOf_eq_ok hsound.engine hslot
  simp only [prepare, gives_bind, gives_get, gives_lift, gives_changeScratch, gives_note]
  exact ⟨triggered, hinsert, _, rfl, cleared, hclear, full, hfull, prepared, hprepare, last, hset,
    full', hfull', (hcleared.withScratch hfits' hdelayed').note _ trivial⟩

theorem ready_expand :
    Gives (occasion.expand queue slot) pass fun _ => occasion.Ready bounds := by
  obtain ⟨full, hfull, hsize⟩ := h.scratch.fullOf_eq_ok hsound.engine hslot
  obtain ⟨short, hshort, hshortSize⟩ := h.stream.storedOf_eq_ok hsound.engine hslot
  obtain ⟨expanded, hexpand⟩ := (hsound.safe slot (List.mem_of_getElem? hslot)).expand
    occasion.offset occasion.lastKey hsize hshortSize
  obtain ⟨last, hset, hfits, hdelayed⟩ := h.scratch.setFull_eq_ok hsound.engine hslot expanded
  obtain ⟨full', hfull', -⟩ := hfits.fullOf_eq_ok hsound.engine hslot
  simp only [expand, gives_bind, gives_get, gives_lift, gives_changeScratch, gives_note]
  exact ⟨full, hfull, short, hshort, expanded, hexpand, last, hset, full', hfull',
    (h.withScratch hfits hdelayed).note _ trivial⟩

theorem ends_askActive : Gives (occasion.askActive queue) pass (occasion.Ends bounds) := by
  have hmem := List.mem_of_getElem? hslot
  simp only [askActive, gives_bind, gives_lift, gives_get, gives_ite, gives_pure]
  refine ⟨slot, Engine.slot_eq_ok hslot, fun _ => h, fun _ => ?_⟩
  obtain ⟨full, hfull, -⟩ := h.scratch.fullOf_eq_ok hsound.engine hslot
  obtain ⟨short, hshort, hsize⟩ := h.stream.storedOf_eq_ok hsound.engine hslot
  refine ⟨full, hfull, short, hshort, fun _ => ?_, fun _ => ?_⟩
  · refine (ready_expand hsound h hslot).mono fun _ next hnext => ?_
    obtain ⟨full, hfull, hfullSize⟩ := hnext.scratch.fullOf_eq_ok hsound.engine hslot
    exact ⟨full, hfull, ends_askFinal hsound hnext hmem hfullSize hsize⟩
  · obtain ⟨full, hfull, hfullSize⟩ := h.scratch.fullOf_eq_ok hsound.engine hslot
    exact ⟨full, hfull, ends_askFinal hsound h hmem hfullSize hsize⟩

theorem ends_finishSuffix :
    Gives (occasion.finishSuffix queue) pass (occasion.Ends bounds) := by
  have hmem := List.mem_of_getElem? hslot
  obtain ⟨pushed, hpush, hfits, hdelayed⟩ :=
    h.scratch.pushEvent_eq_ok hslot ⟨.finish, .ofNat occasion.bufferLength⟩
  obtain ⟨full, hfull, hsize⟩ := hfits.fullOf_eq_ok hsound.engine hslot
  obtain ⟨events, hevents⟩ := hfits.queue_eq_ok hslot
  obtain ⟨final, alive, hrun⟩ := (hsound.safe slot hmem).run events hsize
  obtain ⟨last, hset, hfits', hdelayed'⟩ := hfits.setFull_eq_ok hsound.engine hslot final
  obtain ⟨full', hfull', hsize'⟩ := hfits'.fullOf_eq_ok hsound.engine hslot
  have hlast := ((h.withScratch hfits hdelayed).withScratch hfits' hdelayed').note
    (.executed queue events full' alive) trivial
  obtain ⟨short, hshort, hshortSize⟩ := hlast.stream.storedOf_eq_ok hsound.engine hslot
  simp only [finishSuffix, gives_bind, gives_lift, gives_get, gives_ite, gives_pure,
    gives_changeScratch, gives_note]
  refine ⟨slot, Engine.slot_eq_ok hslot, fun _ => h, fun _ => ⟨pushed, hpush, full, hfull, events,
    hevents, (final, alive), hrun, last, hset, full', hfull', fun _ => hlast, fun _ => ?_⟩⟩
  exact ⟨short, hshort, ends_askFinal hsound hlast hmem hsize' hshortSize⟩

end Queues

theorem exists_slot_of_mem_toList (h : occasion.Ready bounds pass) {queue : Nat}
    (hqueue : queue ∈ pass.stream.leaves.toList) :
    ∃ slot, occasion.engine.slots[queue]? = some slot := by
  have hlt := FlagSet.lt_capacity_of_isOn (FlagSet.mem_toList_iff.1 hqueue)
  rw [h.stream.leaves] at hlt
  exact ⟨_, List.getElem?_eq_getElem hlt⟩

theorem ends_askAllActive (hsound : occasion.IsSound bounds) (h : occasion.Ready bounds pass) :
    Gives occasion.askAllActive pass (occasion.Ends bounds) := by
  simp only [askAllActive, gives_bind, gives_get, gives_lift]
  refine ⟨_, h.stream.leaves_sized.members_eq, ?_⟩
  refine Gives.visitAll (fun queue hqueue middle hmiddle => ?_) h
  obtain ⟨slot, hslot⟩ := exists_slot_of_mem_toList h hqueue
  exact ends_askActive hsound hmiddle hslot

theorem ends_finishSuffixes (hsound : occasion.IsSound bounds) (h : occasion.Ready bounds pass) :
    Gives occasion.finishSuffixes pass (occasion.Ends bounds) := by
  simp only [finishSuffixes, gives_bind, gives_get, gives_lift]
  refine ⟨_, h.stream.leaves_sized.members_eq, ?_⟩
  refine Gives.visitAll (fun queue hqueue middle hmiddle => ?_) h
  obtain ⟨slot, hslot⟩ := exists_slot_of_mem_toList h hqueue
  exact ends_finishSuffix hsound hmiddle hslot

/-! ## Actions -/

theorem ready_trigger (hsound : occasion.IsSound bounds) (h : occasion.Ready bounds pass)
    {offset : Nat} (hoffset : bounds.places offset) {queue : QueueId}
    (hqueue : queue.toNat < occasion.engine.slots.length) :
    Gives (occasion.trigger offset queue) pass fun _ => occasion.Ready bounds := by
  have hslot := List.getElem?_eq_getElem hqueue
  have hend {middle : Pass σ} (hmiddle : occasion.Ready bounds middle) :
      ∃ leaves, middle.stream.leaves.insert queue.toNat = .ok leaves
        ∧ ∃ scratch, middle.scratch.pushEvent queue.toNat
            ⟨.top, occasion.locate offset⟩ = .ok scratch
          ∧ occasion.Ready bounds { middle with
              stream := { middle.stream with leaves }
              scratch
              journal := .triggered queue.toNat (occasion.locate offset) :: middle.journal } := by
    obtain ⟨pushed, hpush, hfits, hdelayed⟩ := hmiddle.scratch.pushEvent_eq_ok hslot
      ⟨.top, occasion.locate offset⟩
    obtain ⟨leaves, hinsert, hshape⟩ :=
      hmiddle.stream.leaves_sized.exists_insert (hmiddle.stream.leaves ▸ hqueue)
    exact ⟨leaves, hinsert, pushed, hpush,
      ((hmiddle.withLeaves hshape).withScratch hfits hdelayed).note _ ⟨offset, hoffset, rfl⟩⟩
  simp only [trigger, gives_bind, gives_lift, gives_get, gives_ite,
    gives_changeLeaves, gives_changeScratch, gives_note]
  refine ⟨_, Engine.slot_eq_ok hslot, _, h.scratch.triggered_sized.contains_eq _, fun _ => ?_,
    fun _ => hend h⟩
  exact (ready_prepare hsound h hslot).mono fun _ next hnext => hend hnext

theorem ready_triggerAll (hsound : occasion.IsSound bounds) (h : occasion.Ready bounds pass)
    {offset : Nat} (hoffset : bounds.places offset) {queues : List QueueId}
    (hqueues : ∀ queue ∈ queues, queue.toNat < occasion.engine.slots.length) :
    Gives (occasion.triggerAll offset queues) pass fun _ => occasion.Ready bounds := by
  induction queues generalizing pass with
  | nil => exact gives_pure.2 h
  | cons queue queues ih =>
    obtain ⟨hfirst, hrest⟩ := List.forall_mem_cons.1 hqueues
    rw [triggerAll, gives_bind]
    exact (ready_trigger hsound h hoffset hfirst).mono fun _ next hnext => ih hnext hrest

theorem ends_settle (hsound : occasion.IsSound bounds) (h : occasion.Ready bounds pass)
    {offset : Nat} (hoffset : bounds.places offset) {id : LiteralId} {action : Action}
    (hfind : occasion.engine.actions.find? id = some action) :
    Gives (occasion.settle offset action) pass (occasion.Ends bounds) := by
  obtain ⟨hroles, hqueues⟩ := hsound.engine.action hfind
  simp only [settle, gives_bind, gives_modify, gives_pure]
  refine (ready_switchAllOn h hroles).mono fun _ next hnext => ?_
  refine (ready_triggerAll hsound hnext.1 hoffset hqueues).mono fun _ last hlast => ?_
  exact show occasion.Ready bounds _ from { hlast with }

/-- An action runs at any place that is agreed on. -/
theorem ends_runAction (hsound : occasion.IsSound bounds) (h : occasion.Ready bounds pass)
    {offset : Nat} (hoffset : bounds.places offset) (id : LiteralId) :
    Gives (occasion.runAction offset id) pass (occasion.Ends bounds) := by
  unfold runAction
  cases hfind : occasion.engine.actions.find? id with
  | none => exact gives_pure.2 h
  | some action =>
    have hnoted := h.note (.acted offset id) hoffset
    simp only [gives_bind, gives_note, gives_ite, gives_pure]
    refine ⟨fun _ => hnoted, fun _ => Gives.andThen ?_ fun middle hmiddle => ?_⟩
    · exact Gives.visitAll (fun report _ middle hmiddle =>
        ends_report hmiddle report (hsound.reports hoffset)) hnoted
    · exact ends_settle hsound hmiddle hoffset hfind

/-- The action of a literal runs or is put off, both as agreed on. -/
theorem ends_runOrDelay (hsound : occasion.IsSound bounds) (h : occasion.Ready bounds pass)
    {offset : Nat} (hoffset : bounds.places offset) {id : LiteralId} {isEndEvent : Bool}
    (hdue : isEndEvent = false → ∀ action, occasion.engine.actions.find? id = some action →
      bounds.waits ⟨dueAt offset action.delay, id⟩) :
    Gives (occasion.runOrDelay offset id isEndEvent) pass (occasion.Ends bounds) := by
  unfold runOrDelay
  cases hfind : occasion.engine.actions.find? id with
  | none => exact gives_pure.2 h
  | some action =>
    simp only [gives_bind, gives_get, gives_ite, gives_pure, gives_changeScratch]
    refine ⟨fun _ => h, fun _ => ⟨fun hwait => ⟨_, rfl, ?_⟩, fun _ =>
      ends_runAction hsound h hoffset id⟩⟩
    have hplace := hdue (by simpa using hwait.2) action hfind
    refine show occasion.Ready bounds _ from
      { h.toFits.withDelayed fun d hd => ?_ with running := h.running }
    rcases Delayed.mem_insert_iff.1 hd with rfl | hd
    · exact hplace
    · exact h.delayed d hd

theorem ends_runDelayed (hsound : occasion.IsSound bounds) (h : occasion.Ready bounds pass)
    {upTo : Nat} (hupTo : upTo ≤ occasion.offset) :
    Gives (occasion.runDelayed upTo) pass (occasion.Ends bounds) := by
  simp only [runDelayed, gives_bind, gives_get, gives_changeScratch, gives_pure]
  have hvisit : Gives (Control.visitAll (fun delayed => occasion.runAction delayed.due delayed.id)
      (pass.scratch.delayed.takeWhile (·.due ≤ upTo))) pass (occasion.Ends bounds) :=
    Gives.visitAll (fun delayed hdelayed middle hmiddle => by
      obtain ⟨hmem, hdue⟩ := Delayed.of_mem_takeWhile hdelayed
      exact ends_runAction hsound hmiddle
        (hsound.due (h.delayed delayed hmem) (Nat.le_trans hdue hupTo)) delayed.id) h
  refine hvisit.mono fun control next hnext => ⟨_, rfl, ?_⟩
  cases control with
  | proceed => exact show occasion.Ready bounds _ from { hnext.toFits.withDelayed fun d hd =>
      hnext.delayed d (List.mem_of_mem_drop hd) with running := hnext.running }
  | halt => exact ⟨hnext.1.withDelayed (List.forall_mem_nil _), hnext.2⟩

/-! ## The literals at the end -/

/-- Places in the data are agreed on, and so is what may be put off from there. -/
structure AdmitsTail (occasion : Occasion σ) (bounds : Bounds) : Prop where
  ends : ∀ matchEnd ≤ occasion.data.size, bounds.places (occasion.dataStart + matchEnd)
  due : ∀ matchEnd ≤ occasion.data.size, ∀ {id action},
    occasion.engine.actions.find? id = some action →
    bounds.waits ⟨dueAt (occasion.dataStart + matchEnd) action.delay, id⟩

theorem dataStart_add_le (hsize : occasion.data.size ≤ occasion.offset) {matchEnd : Nat}
    (hend : matchEnd ≤ occasion.data.size) : occasion.dataStart + matchEnd ≤ occasion.offset := by
  unfold dataStart
  omega

theorem ends_onLiteral (hsound : occasion.IsSound bounds) (htail : occasion.AdmitsTail bounds)
    (h : occasion.Ready bounds pass) {matchEnd : Nat} (hend : matchEnd ≤ occasion.data.size)
    (id : LiteralId) : Gives (occasion.onLiteral matchEnd id) pass (occasion.Ends bounds) := by
  refine (ends_runDelayed hsound h (dataStart_add_le hsound.size hend)).andThen
    fun middle hmiddle => ?_
  have hmoved : occasion.Ready bounds { middle with lastEnd := occasion.dataStart + matchEnd } :=
    { hmiddle with }
  rw [gives_bind, gives_modify]
  exact ends_runOrDelay hsound hmoved (htail.ends matchEnd hend) fun _ action hfind =>
    htail.due matchEnd hend hfind

theorem ends_tell (hsound : occasion.IsSound bounds) (htail : occasion.AdmitsTail bounds)
    (h : occasion.Ready bounds pass) (found : Nat → Groups → List LiteralId) {matchEnd : Nat}
    (hend : matchEnd ≤ occasion.data.size) :
    Gives (occasion.sink.tell found matchEnd) pass (occasion.Ends bounds) := by
  refine (gives_bind (α := Pass σ)).2 (gives_get.2 ?_)
  exact Gives.visitAll (fun id _ middle hmiddle => ends_onLiteral hsound htail hmiddle hend id) h

end Occasion

/-- The table of a matcher reports what the naive scan does. -/
theorem Engine.Serves.scan_eq {engine : Engine} {matcher : EndMatcher} {literals : List Literal}
    (h : engine.Serves matcher literals) {input : ScanInput} (hagree : input.HistoriesAgree)
    {τ : Type} (sink : Sink τ) :
    matcher.table.scan input sink = Naive.scan literals input sink := by
  obtain ⟨⟨options, hbuild⟩, -, -⟩ := h
  obtain ⟨scheme, -, -, hbytes, hfits, htable⟩ := LiteralTable.of_build hbuild
  rw [htable]
  exact Scanner.scan_ofContents hfits hbytes hagree sink

namespace Occasion

variable {σ : Type} {occasion : Occasion σ} {bounds : Bounds} {pass : Pass σ}

/-- The scan of the last bytes. -/
def tailInput (occasion : Occasion σ) (matcher : EndMatcher) : ScanInput :=
  { buffer := occasion.data
    start := occasion.data.size - min occasion.data.size matcher.region }

/-- Of the table only what it serves for matters to the scan of the last bytes. -/
theorem scanTail_eq_naive {matcher : EndMatcher} {literals : List Literal}
    (hserves : occasion.engine.Serves matcher literals) :
    occasion.scanTail matcher = (do
      if occasion.data.size < matcher.minWidth then return .proceed
      modify fun pass => { pass with caughtUpTo := occasion.dataStart }
      Control.andThen (Naive.scan literals (occasion.tailInput matcher) occasion.sink) do
        let control ← occasion.runDelayed occasion.offset
        PassM.changeScratch fun scratch => .ok { scratch with delayed := [] }
        return control) := by
  have hagree : (occasion.tailInput matcher).HistoriesAgree := .inl List.nil_suffix
  rw [← hserves.scan_eq hagree]
  rfl

theorem ends_scanTail (hsound : occasion.IsSound bounds) (htail : occasion.AdmitsTail bounds)
    (h : occasion.Ready bounds pass) {matcher : EndMatcher}
    (hmatcher : occasion.engine.matcher? = some matcher) :
    Gives (occasion.scanTail matcher) pass (occasion.Ends bounds) := by
  obtain ⟨literals, hserves⟩ := hsound.engine.matcher matcher hmatcher
  have hagree : (occasion.tailInput matcher).HistoriesAgree := .inl List.nil_suffix
  simp only [scanTail, gives_bind, gives_ite, gives_pure, gives_modify]
  refine ⟨fun _ => h, fun _ => Gives.andThen ?_ fun middle hmiddle => ?_⟩
  · show Gives (matcher.table.scan (occasion.tailInput matcher) occasion.sink) _ _
    rw [hserves.scan_eq hagree]
    refine Gives.visitAll (fun matchEnd hend middle hmiddle => ?_) { h with }
    obtain ⟨-, hle⟩ := ScanInput.mem_ends.1 hend
    exact ends_tell hsound htail hmiddle _ hle
  · simp only [gives_bind, gives_changeScratch, gives_pure]
    refine (ends_runDelayed hsound hmiddle (Nat.le_refl _)).mono
      fun control next hnext => ⟨_, rfl, ?_⟩
    cases control with
    | proceed => exact show occasion.Ready bounds _ from
        { hnext.toFits.withDelayed (List.forall_mem_nil _) with running := hnext.running }
    | halt => exact ⟨hnext.1.withDelayed (List.forall_mem_nil _), hnext.2⟩

/-! ## Walks -/

theorem ends_visitEntry (hsound : occasion.IsSound bounds) (h : occasion.Ready bounds pass)
    {stop : WalkStop} (hstop : stop ∈ occasion.engine.walk) {entry : WalkEntry}
    (hentry : entry ∈ stop.entries) :
    Gives (occasion.visitEntry entry) pass (occasion.Ends bounds) := by
  obtain ⟨⟨role, hrole⟩, hpredicate⟩ := hsound.engine.entry stop hstop entry hentry
  have hlt : entry.role.toNat < pass.scratch.handled.capacity := by
    rw [h.scratch.handled_capacity]
    exact (List.getElem?_eq_some_iff.1 hrole).1
  obtain ⟨fresh, handled, hinsert, hhandled, hcapacity⟩ := h.scratch.handled.insert_eq_ok hlt
  have hhandled : Scratch.Fits occasion.engine { pass.scratch with handled } :=
    { h.scratch with
      handled := hhandled
      handled_capacity := hcapacity.trans h.scratch.handled_capacity }
  have hfire := (h.withScratch hhandled rfl).note (.fired entry.role) trivial
  have hreport := ends_report hfire role.report (hsound.reports hsound.offset)
  have hholds : ∃ holds, occasion.predicateHolds entry = .ok holds := by
    unfold predicateHolds
    cases hid : entry.predicate? with
    | none => exact ⟨true, rfl⟩
    | some id =>
      simp only [Engine.predicate, elementAt_eq_ok (hpredicate id hid)]
      exact ⟨_, rfl⟩
  obtain ⟨holds, hholds⟩ := hholds
  simp only [visitEntry, gives_bind, gives_get, gives_ite, gives_pure, gives_lift,
    gives_changeScratch, gives_note]
  refine ⟨fun _ => h, fun _ => ⟨role, elementAt_eq_ok_iff.2 hrole, fun _ => ⟨holds, hholds,
    fun _ => h, fun _ => ?_⟩, fun _ => ?_⟩⟩
  · exact ⟨(fresh, handled), hinsert, _, rfl, hreport⟩
  · exact ⟨(fresh, handled), hinsert, _, rfl, hreport⟩

theorem ends_walk (hsound : occasion.IsSound bounds) (h : occasion.Ready bounds pass) :
    Gives occasion.walk pass (occasion.Ends bounds) := by
  simp only [walk, gives_bind, gives_changeScratch]
  refine ⟨_, rfl, Gives.visitAll (fun stop hstop middle hmiddle => ?_) (h.withScratch
    { h.scratch with handled := h.scratch.handled.clear } rfl)⟩
  simp only [visitStop, gives_bind, gives_get, gives_lift, gives_ite, gives_pure]
  refine ⟨_, hmiddle.stream.roles_sized.contains_eq _, fun _ => ?_, fun _ => hmiddle⟩
  exact Gives.visitAll (fun entry hentry last hlast =>
    ends_visitEntry hsound hlast hstop hentry) hmiddle

/-! ## The whole pass -/

theorem ends_runEndEvent (hsound : occasion.IsSound bounds) (h : occasion.Ready bounds pass) :
    Gives occasion.runEndEvent pass (occasion.Ends bounds) := by
  unfold runEndEvent
  cases occasion.engine.endEvent? with
  | none => exact gives_pure.2 h
  | some id => exact ends_runOrDelay hsound h hsound.offset nofun

theorem ready_forget (h : occasion.Ready bounds pass) :
    Gives occasion.forget pass fun _ => occasion.Ready bounds := by
  simp only [forget, enableTriggers, gives_bind, gives_changeRoles, gives_changeLeaves,
    gives_changeScratch, gives_modify]
  refine ⟨_, rfl, _, rfl, _, rfl, ?_⟩
  exact { h with
    stream := { h.stream with
      roles := h.stream.roles
      roles_sized := FlagSet.isSized_clear h.stream.roles_sized
      leaves := h.stream.leaves
      leaves_sized := FlagSet.isSized_clear h.stream.leaves_sized }
    scratch := { h.scratch with
      triggered := h.scratch.triggered
      triggered_sized := FlagSet.isSized_clear h.scratch.triggered_sized } }

theorem ends_resolveTail (hsound : occasion.IsSound bounds) (htail : occasion.AdmitsTail bounds)
    (h : occasion.Ready bounds pass) {matcher : EndMatcher}
    (hmatcher : occasion.engine.matcher? = some matcher) :
    Gives (occasion.resolveTail matcher) pass (occasion.Ends bounds) := by
  unfold resolveTail
  rw [gives_bind]
  refine (ready_forget h).mono fun _ next hnext => ?_
  refine (ends_scanTail hsound htail hnext hmatcher).andThen fun middle hmiddle => ?_
  rw [gives_bind]
  refine (ready_dropLastByteRoles hsound hmiddle _).mono fun _ next hnext => ?_
  rw [gives_bind]
  refine (ready_catchUp hsound hnext _).mono fun _ next hnext => ?_
  exact (ends_walk hsound hnext).andThen fun _ => ends_finishSuffixes hsound

theorem ends_resolveRoles (hsound : occasion.IsSound bounds) (htail : occasion.AdmitsTail bounds)
    (h : occasion.Ready bounds pass) :
    Gives occasion.resolveRoles pass (occasion.Ends bounds) := by
  unfold resolveRoles
  cases hmatcher : occasion.engine.matcher? with
  | none =>
    dsimp only
    rw [gives_ite]
    exact ⟨fun _ => gives_pure.2 h, fun _ => ends_walk hsound h⟩
  | some matcher =>
    exact (ends_walk hsound h).andThen fun _ hmiddle =>
      ends_resolveTail hsound htail hmiddle hmatcher

theorem ends_resolve (hsound : occasion.IsSound bounds) (htail : occasion.AdmitsTail bounds)
    (h : occasion.Ready bounds pass) : Gives occasion.resolve pass (occasion.Ends bounds) :=
  (ends_runEndEvent hsound h).andThen fun _ hevent =>
    (ends_askAllActive hsound hevent).andThen fun _ => ends_resolveRoles hsound htail

theorem ready_settleBuffer (hsound : occasion.IsSound bounds) (h : occasion.Ready bounds pass) :
    Gives occasion.settleBuffer pass fun _ => occasion.Ready bounds := by
  simp only [settleBuffer, gives_bind, gives_modify, gives_ite, gives_pure]
  refine (ready_dropLastByteRoles hsound h _).mono fun _ next hnext => ?_
  have hmoved : occasion.Ready bounds { next with lastEnd := occasion.offset } := { hnext with }
  exact ⟨fun _ => ready_catchUp hsound hmoved _, fun _ => hmoved⟩

theorem ends_body (hsound : occasion.IsSound bounds) (htail : occasion.AdmitsTail bounds)
    (h : occasion.Ready bounds pass) : Gives occasion.body pass (occasion.Ends bounds) := by
  unfold body
  cases occasion.mode with
  | block =>
    rw [gives_bind]
    exact (ready_settleBuffer hsound h).mono fun _ _ hnext => ends_resolve hsound htail hnext
  | streaming => exact ends_resolve hsound htail h

theorem ready_start {session : Session σ} (hstream : session.stream.Fits occasion.engine)
    (hscratch : session.scratch.Fits occasion.engine) (hbefore : bounds.before = session.journal) :
    occasion.Ready bounds (occasion.start session) where
  stream := hstream
  scratch := { hscratch with
    triggered := hscratch.triggered
    triggered_sized := FlagSet.isSized_clear hscratch.triggered_sized }
  delayed := List.forall_mem_nil _
  journal := ⟨[], hbefore.symm, nofun⟩
  running := rfl

end Occasion

end Multimatch
