import Mathlib.Data.List.Count
import Multimatch.Proofs.EndOfData.Runs

/-!
# Every literal is acted on once, in order

The scan of the last bytes calls for one literal after the other. Each call comes with the passes
that it leads through (`Hearing`), and they make a chain from the beginning of the scan to its end
(`Occasion.Hears`). At every step of it, what waits is in order and due after the last literal
(`Pass.InOrder`). A call whose action is live then runs it once, at once or when it is due, unless
the data ends before (`Occasion.ServesOnce`).
-/

namespace Multimatch

open PassM

/-- What waits is in order, and due after the end of the last literal. -/
structure Pass.InOrder {σ : Type} (pass : Pass σ) : Prop where
  sorted : Delayed.InOrder pass.scratch.delayed
  later : ∀ delayed ∈ pass.scratch.delayed, pass.lastEnd < delayed.due

theorem Pass.inOrder_of_nil {σ : Type} {pass : Pass σ} (h : pass.scratch.delayed = []) :
    pass.InOrder := by
  constructor
  · rw [h]
    exact .nil
  · simp [h]

/-- A call of a scan: the literal that ended and its action, and the passes before the call, after
what was due had been run, and after the call. -/
structure Hearing (σ : Type) where
  matchEnd : Nat
  id : LiteralId
  action : Action
  before : Pass σ
  flushed : Pass σ
  after : Pass σ

namespace Hearing

variable {σ : Type} (heard : Hearing σ)

def call : Nat × LiteralId := (heard.matchEnd, heard.id)

/-- The action is live once what was due has been run. -/
def isLive : Bool := heard.action.groups.meets heard.flushed.groups

end Hearing

namespace Occasion

variable {σ : Type} (occasion : Occasion σ)

/-- Where the action of a call is to run. -/
def placeOf (heard : Hearing σ) : Nat × LiteralId :=
  (occasion.dataStart + heard.matchEnd + heard.action.delay, heard.id)

def arrivalOf (heard : Hearing σ) : Arrival :=
  ⟨occasion.dataStart + heard.matchEnd, heard.id, heard.isLive⟩

/-- The call leads through its passes. -/
structure Makes (heard : Hearing σ) : Prop where
  find : occasion.engine.actions.find? heard.id = some heard.action
  flush : occasion.runDelayed (occasion.dataStart + heard.matchEnd) heard.before
    = .ok .proceed heard.flushed
  call : occasion.onLiteral heard.matchEnd heard.id heard.before = .ok .proceed heard.after

/-- Calls that were made one after the other. -/
inductive Hears : Pass σ → List (Hearing σ) → Pass σ → Prop where
  | nil (pass : Pass σ) : Hears pass [] pass
  | cons {heard : Hearing σ} {more : List (Hearing σ)} {last : Pass σ}
      (makes : occasion.Makes heard) (rest : Hears heard.after more last) :
      Hears heard.before (heard :: more) last

/-- However many of the actions that are due have been run, what waits is in order. -/
def RunsInOrder (upTo : Nat) (pass : Pass σ) : Prop :=
  ∀ due, due <+: pass.scratch.delayed.takeWhile (·.due ≤ upTo) →
    Gives (Control.visitAll (fun delayed => occasion.runAction delayed.due delayed.id) due)
      pass fun _ next => next.InOrder

/-- Through all of a call, what waits is in order. -/
structure KeepsOrder (heard : Hearing σ) : Prop where
  before : heard.before.InOrder
  running : occasion.RunsInOrder (occasion.dataStart + heard.matchEnd) heard.before
  flushed : heard.flushed.InOrder
  moved : ({ heard.flushed with lastEnd := occasion.dataStart + heard.matchEnd } : Pass σ).InOrder
  after : heard.after.InOrder

/-- A live call is served by one run at its place, if the data reaches that far, and there are no
other runs. They are in order. -/
structure ServesOnce (calls : List (Hearing σ)) (made : List (Nat × LiteralId)) : Prop where
  inside : ∀ heard ∈ calls, occasion.dataStart + heard.matchEnd ≤ occasion.offset
  once : ∀ heard ∈ calls, heard.isLive = true →
    made.count (occasion.placeOf heard)
      = if (occasion.placeOf heard).1 ≤ occasion.offset then 1 else 0
  only : ∀ run ∈ made, ∃ heard ∈ calls, heard.isLive = true ∧ occasion.placeOf heard = run
  sorted : made.Pairwise (RunsBefore occasion.delayOf)

variable {occasion} {bounds : Bounds} {pass last : Pass σ} {calls : List (Hearing σ)}

theorem slot_arrivalOf {heard : Hearing σ}
    (hfind : occasion.engine.actions.find? heard.id = some heard.action) :
    ((occasion.arrivalOf heard).slot occasion.delayOf).run = occasion.placeOf heard := by
  rw [Arrival.slot, arrivalOf, delayOf_eq hfind]
  rfl

theorem Hears.makes (h : occasion.Hears pass calls last) :
    ∀ heard ∈ calls, occasion.Makes heard := by
  induction h with
  | nil pass => exact nofun
  | cons makes _ ih => exact List.forall_mem_cons.2 ⟨makes, ih⟩

/-- The runs of arrivals, and of what is due by the end of the data, serve each call once. -/
theorem servesOnce (hmakes : ∀ heard ∈ calls, occasion.Makes heard)
    (hinside : ∀ heard ∈ calls, occasion.dataStart + heard.matchEnd ≤ occasion.offset)
    (hascending : (calls.map (·.call)).Pairwise Sink.Earlier) :
    occasion.ServesOnce calls
      ((Arrival.allRuns occasion.delayOf [] (calls.map occasion.arrivalOf)
        ++ (Arrival.allWaits occasion.delayOf [] (calls.map occasion.arrivalOf)).takeWhile
          (·.due ≤ occasion.offset)).map (·.run)) := by
  have hearlier : (calls.map occasion.arrivalOf).Pairwise Arrival.Earlier := by
    refine List.pairwise_map.2 ((List.pairwise_map.1 hascending).imp fun {a b} hab => ?_)
    rcases hab with hlt | ⟨heq, hlt⟩
    · exact .inl (Nat.add_lt_add_left hlt _)
    · exact .inr ⟨congrArg (occasion.dataStart + ·) heq, hlt⟩
  have hexpects : Arrival.Expects occasion.delayOf [] (calls.map occasion.arrivalOf) :=
    ⟨.nil, nofun, fun _ _ => List.not_mem_nil, hearlier⟩
  have hlimit : ∀ arrival ∈ calls.map occasion.arrivalOf, arrival.offset ≤ occasion.offset :=
    List.forall_mem_map.2 hinside
  refine ⟨hinside, fun heard hheard hlive => ?_, fun run hrun => ?_, ?_⟩
  · have hcount := Arrival.count_ran hexpects hlimit (List.mem_map_of_mem hheard) hlive
    rw [← slot_arrivalOf (hmakes heard hheard).find,
      List.count_map_of_injective _ _ Delayed.run_injective]
    exact hcount
  · obtain ⟨delayed, hdelayed, rfl⟩ := List.mem_map.1 hrun
    obtain ⟨arrival, harrival, hlive, rfl⟩ := Arrival.exists_of_mem_ran hexpects hlimit hdelayed
    obtain ⟨heard, hheard, rfl⟩ := List.mem_map.1 harrival
    exact ⟨heard, hheard, hlive, (slot_arrivalOf (hmakes heard hheard).find).symm⟩
  · exact List.pairwise_map.2 (Arrival.pairwise_allRuns_append hexpects)

section Quiet

variable (hsound : occasion.IsSound bounds) (hquiet : occasion.IsQuiet)
  (hknown : ∀ delayed, bounds.waits delayed →
    ∃ action, occasion.engine.actions.find? delayed.id = some action)
include hsound hquiet hknown

/-- While actions that were due are run, what waits and the last end stay as they are. -/
theorem runsInOrder (h : occasion.Ready bounds pass) (horder : pass.InOrder) {upTo : Nat}
    (hupTo : upTo ≤ occasion.offset) : occasion.RunsInOrder upTo pass := by
  intro due hdue
  have hdue : ∀ delayed ∈ due, bounds.places delayed.due
      ∧ ∃ action, occasion.engine.actions.find? delayed.id = some action := by
    intro delayed hdelayed
    obtain ⟨hmem, hle⟩ := Delayed.of_mem_takeWhile (hdue.subset hdelayed)
    have hwaits := h.delayed delayed hmem
    exact ⟨hsound.due hwaits (Nat.le_trans hle hupTo), hknown delayed hwaits⟩
  refine (leads_runWaiting hquiet hsound h hdue).mono fun _ next hnext => ⟨?_, ?_⟩
  · rw [hnext.waiting_eq]
    exact horder.sorted
  · rw [hnext.waiting_eq, hnext.lastEnd_eq]
    exact horder.later

variable (hwrap : occasion.NoWrap) (htail : occasion.AdmitsTail bounds)
include hwrap htail

/-- One call, from a pass in which everything is in order. -/
theorem exists_makes (h : occasion.Ready bounds pass) (horder : pass.InOrder) {matchEnd : Nat}
    (hend : matchEnd ≤ occasion.data.size) {id : LiteralId} {action : Action}
    (hfind : occasion.engine.actions.find? id = some action) :
    ∃ heard : Hearing σ, heard.matchEnd = matchEnd ∧ heard.id = id ∧ heard.before = pass
      ∧ occasion.Makes heard ∧ occasion.KeepsOrder heard
      ∧ occasion.Leads bounds pass
        (((occasion.arrivalOf heard).runs occasion.delayOf pass.scratch.delayed).map (·.run))
        (occasion.dataStart + matchEnd)
        ((occasion.arrivalOf heard).waits occasion.delayOf pass.scratch.delayed)
        .proceed heard.after := by
  obtain ⟨flushed, hflush, hlast, hleft, hcall⟩ :=
    leads_onLiteral hquiet hsound hknown hwrap htail h hend hfind
  obtain ⟨after, hcall, hleads⟩ := exists_eq_of_leads hcall
  have hsorted : Delayed.InOrder flushed.scratch.delayed := by
    rw [hleft]
    exact List.Pairwise.sublist (List.drop_sublist ..) horder.sorted
  refine ⟨⟨matchEnd, id, action, pass, flushed, after⟩, rfl, rfl, rfl,
    ⟨hfind, hflush, hcall⟩, ?_, hleads⟩
  have hrunning := runsInOrder hsound hquiet hknown h horder (dataStart_add_le hsound.size hend)
  refine ⟨horder, hrunning, ⟨hsorted, fun delayed hdelayed => ?_⟩,
    ⟨hsorted, fun delayed hdelayed => ?_⟩, ⟨?_, fun delayed hdelayed => ?_⟩⟩
  · rw [hlast]
    rw [hleft] at hdelayed
    exact horder.later delayed (List.mem_of_mem_drop hdelayed)
  · exact Delayed.lt_due_of_mem_drop horder.sorted (hleft ▸ hdelayed)
  · rw [hleads.waiting_eq]
    exact Arrival.inOrder_waits horder.sorted
  · rw [hleads.lastEnd_eq]
    rw [hleads.waiting_eq] at hdelayed
    exact Arrival.lt_due_of_mem_waits horder.sorted hdelayed

/-- What a sink sees of a scan is a chain of calls, each of which is taken in as an arrival. -/
theorem exists_hears (h : occasion.Ready bounds pass) (horder : pass.InOrder)
    {made : List (Nat × LiteralId)} {result : EStateM.Result Fault (Pass σ) Control}
    (hexchange : occasion.sink.Exchange pass made result)
    (hmade : ∀ call ∈ made, call.1 ≤ occasion.data.size
      ∧ ∃ action, occasion.engine.actions.find? call.2 = some action) :
    ∃ calls last, calls.map (·.call) = made ∧ result = .ok .proceed last
      ∧ occasion.Hears pass calls last ∧ (∀ heard ∈ calls, occasion.KeepsOrder heard)
      ∧ occasion.Ready bounds last ∧ last.InOrder
      ∧ occasion.Ran ((Arrival.allRuns occasion.delayOf pass.scratch.delayed
        (calls.map occasion.arrivalOf)).map (·.run)) pass last
      ∧ last.scratch.delayed = Arrival.allWaits occasion.delayOf pass.scratch.delayed
        (calls.map occasion.arrivalOf) := by
  have hproceeds {pass : Pass σ} (h : occasion.Ready bounds pass) (horder : pass.InOrder)
      {call : Nat × LiteralId} (hcall : call.1 ≤ occasion.data.size
        ∧ ∃ action, occasion.engine.actions.find? call.2 = some action) :
      ∃ next, occasion.sink.onMatch call.1 call.2 pass = .ok .proceed next := by
    obtain ⟨hend, action, hfind⟩ := hcall
    obtain ⟨heard, hend, hid, hbefore, hmakes, -⟩ :=
      exists_makes hsound hquiet hknown hwrap htail h horder hend hfind
    rw [← hend, ← hid, ← hbefore]
    exact ⟨heard.after, hmakes.call⟩
  induction hexchange with
  | silent pass =>
    exact ⟨[], pass, rfl, rfl, .nil pass, nofun, h, horder, .refl pass, rfl⟩
  | @halted pass next matchEnd id hcall =>
    obtain ⟨heard, hstop⟩ := hproceeds h horder (hmade _ List.mem_cons_self)
    cases hcall.symm.trans hstop
  | @faulted pass next matchEnd id fault hcall =>
    obtain ⟨heard, hstop⟩ := hproceeds h horder (hmade _ List.mem_cons_self)
    cases hcall.symm.trans hstop
  | @next pass middle matchEnd id made result hcall _ ih =>
    obtain ⟨hend, action, hfind⟩ := hmade _ List.mem_cons_self
    obtain ⟨heard, rfl, rfl, rfl, hmakes, hkeeps, hleads⟩ :=
      exists_makes hsound hquiet hknown hwrap htail h horder hend hfind
    cases hcall.symm.trans hmakes.call
    obtain ⟨calls, last, rfl, hresult, hhears, hall, hready, hlast, hran, hwaits⟩ :=
      ih hleads.toReady hkeeps.after fun call hcall => hmade call (List.mem_cons_of_mem _ hcall)
    rw [hleads.waiting_eq] at hran hwaits
    refine ⟨heard :: calls, last, rfl, hresult, .cons hmakes hhears,
      List.forall_mem_cons.2 ⟨hkeeps, hall⟩, hready, hlast, ?_, hwaits⟩
    rw [List.map_cons, Arrival.allRuns, List.map_append]
    exact hleads.ran.trans hran

omit hwrap htail in
/-- After the last literal, what is still due is run, and nothing is left to wait. -/
theorem leads_scanTail {scanned : Pass σ} {matcher : EndMatcher}
    (hwidth : matcher.minWidth ≤ occasion.data.size)
    (hscan : matcher.table.scan (occasion.tailInput matcher) occasion.sink
      { pass with caughtUpTo := occasion.dataStart } = .ok .proceed scanned)
    (hready : occasion.Ready bounds scanned) :
    Gives (occasion.scanTail matcher) pass (occasion.Leads bounds scanned
      ((scanned.scratch.delayed.takeWhile (·.due ≤ occasion.offset)).map (·.run))
      scanned.lastEnd []) := by
  obtain ⟨next, hrun, hnext⟩ :=
    exists_eq_of_leads (leads_runDelayed hquiet hsound hknown hready (Nat.le_refl _))
  simp only [scanTail, gives_bind, gives_ite, gives_pure, gives_modify]
  refine ⟨fun hlt => absurd hlt (Nat.not_lt.2 hwidth), fun _ => ?_⟩
  rw [Control.andThen, gives_bind]
  refine (gives_iff_of_eq hscan).2 ?_
  simp only [gives_bind, gives_changeScratch, gives_pure]
  refine (gives_iff_of_eq hrun).2 ⟨_, rfl, ?_⟩
  exact { hnext.toFits.withDelayed (List.forall_mem_nil _) with
    running := hnext.running
    control_eq := rfl
    ran := ⟨hnext.ran.runs, hnext.ran.answers, hnext.ran.groups, hnext.ran.flags⟩
    lastEnd_eq := hnext.lastEnd_eq
    waiting_eq := rfl }

/-- The scan of the last bytes, from a pass in which nothing waits. -/
theorem exists_scanTail (h : occasion.Ready bounds pass) (hempty : pass.scratch.delayed = [])
    {matcher : EndMatcher} (hmatcher : occasion.engine.matcher? = some matcher)
    (hwidth : matcher.minWidth ≤ occasion.data.size) :
    let begun : Pass σ := { pass with caughtUpTo := occasion.dataStart }
    ∃ calls scanned made,
      matcher.table.scan (occasion.tailInput matcher) occasion.sink begun = .ok .proceed scanned
      ∧ matcher.table.scan (occasion.tailInput matcher) occasion.sink.recorded (begun, [])
        = .ok .proceed (scanned, calls.map (·.call))
      ∧ occasion.Hears begun calls scanned
      ∧ (calls.map (·.call)).Pairwise Sink.Earlier
      ∧ (∀ heard ∈ calls, occasion.KeepsOrder heard)
      ∧ scanned.InOrder ∧ occasion.RunsInOrder occasion.offset scanned
      ∧ occasion.ServesOnce calls made
      ∧ Gives (occasion.scanTail matcher) pass
        (occasion.Leads bounds pass made scanned.lastEnd []) := by
  intro begun
  have hbegun : occasion.Ready bounds begun := { h with }
  obtain ⟨made, hrecords, hmade, hascending⟩ := exists_records hsound.engine hmatcher begun
  obtain ⟨calls, scanned, rfl, hscan, hhears, hkeeps, hready, horder, hran, hwaits⟩ :=
    exists_hears hsound hquiet hknown hwrap htail hbegun (Pass.inOrder_of_nil hempty)
      hrecords.exchange hmade
  have hrecord := hrecords.recording []
  rw [hscan] at hrecord
  rw [show begun.scratch.delayed = [] from hempty] at hran hwaits
  have hinside : ∀ heard ∈ calls, occasion.dataStart + heard.matchEnd ≤ occasion.offset :=
    fun heard hheard => dataStart_add_le hsound.size (hmade _ (List.mem_map_of_mem hheard)).1
  have hserves := servesOnce hhears.makes hinside hascending
  rw [← hwaits, List.map_append] at hserves
  refine ⟨calls, scanned, _, hscan, hrecord, hhears, hascending, hkeeps, horder,
    runsInOrder hsound hquiet hknown hready horder (Nat.le_refl _), hserves, ?_⟩
  refine (leads_scanTail hsound hquiet hknown hwidth hscan hready).mono
    fun control next hnext => ?_
  have hall := hran.trans hnext.ran
  exact { hnext with ran := ⟨hall.runs, hall.answers, hall.groups, hall.flags⟩ }

end Quiet

end Occasion

end Multimatch
