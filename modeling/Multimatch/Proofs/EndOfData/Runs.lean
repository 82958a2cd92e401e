import Multimatch.Proofs.EndOfData.Cut
import Multimatch.Proofs.EndOfData.Total

/-!
# What a scan of the last bytes runs

For a caller who never halts, every step of `Occasion.scanTail` proceeds (`Occasion.Leads`), and
what it runs, reports and leaves waiting is known from what waited before and from the groups that
are live (`Occasion.leads_onLiteral`).
-/

namespace Multimatch

open PassM

namespace Occasion

variable {σ : Type}

section Definitions

variable (occasion : Occasion σ)

/-- The action of a run, if it does something there. -/
def actionOf (run : Nat × LiteralId) : Option Action :=
  (occasion.engine.actions.find? run.2).filter fun action =>
    ¬(action.onlyAtEnd ∧ run.1 ≠ occasion.offset)

/-- What a run reports. -/
def reportsOf (run : Nat × LiteralId) : List (Nat × ReportId) :=
  match occasion.actionOf run with
  | some action => action.reports.map fun id => (run.1, id)
  | none => []

def delayOf (id : LiteralId) : Nat := ((occasion.engine.actions.find? id).map (·.delay)).getD 0

/-- The groups that a run leaves live. -/
def groupsAfter (groups : Groups) (run : Nat × LiteralId) : Groups :=
  match occasion.actionOf run with
  | some action => groups.without action.squash
  | none => groups

/-- The flags that a run leaves on. -/
def flagsAfter (flags : FlagSet) (run : Nat × LiteralId) : FlagSet :=
  match occasion.actionOf run with
  | some action => action.roles.foldl occasion.flagsWith flags
  | none => flags

/-- Between two passes some actions were run. -/
structure Ran (made : List (Nat × LiteralId)) (pass next : Pass σ) : Prop where
  runs : next.runs = pass.runs ++ made
  answers : next.answers = pass.answers ++ (made.flatMap occasion.reportsOf).map proceeded
  groups : next.groups = made.foldl occasion.groupsAfter pass.groups
  flags : next.stream.roles = made.foldl occasion.flagsAfter pass.stream.roles

/-- A step proceeds to another pass. Some actions were run, and some wait now. -/
structure Leads (bounds : Bounds) (pass : Pass σ) (made : List (Nat × LiteralId)) (lastEnd : Nat)
    (waiting : List Delayed) (control : Control) (next : Pass σ) : Prop
    extends occasion.Ready bounds next where
  control_eq : control = .proceed
  ran : occasion.Ran made pass next
  lastEnd_eq : next.lastEnd = lastEnd
  waiting_eq : next.scratch.delayed = waiting

end Definitions

variable {occasion : Occasion σ} {bounds : Bounds} {pass middle next : Pass σ}
  {made more : List (Nat × LiteralId)} {lastEnd lastEnd' : Nat} {waiting waiting' : List Delayed}

theorem delayOf_eq {id : LiteralId} {action : Action}
    (hfind : occasion.engine.actions.find? id = some action) :
    occasion.delayOf id = action.delay := by
  simp [delayOf, hfind]

theorem Ran.trans (h : occasion.Ran made pass middle) (h' : occasion.Ran more middle next) :
    occasion.Ran (made ++ more) pass next where
  runs := by rw [h'.runs, h.runs, List.append_assoc]
  answers := by
    rw [h'.answers, h.answers, List.flatMap_append, List.map_append, List.append_assoc]
  groups := by rw [h'.groups, h.groups, List.foldl_append]
  flags := by rw [h'.flags, h.flags, List.foldl_append]

theorem Ran.refl (pass : Pass σ) : occasion.Ran [] pass pass :=
  ⟨(List.append_nil _).symm, (List.append_nil _).symm, rfl, rfl⟩

theorem leads_nil (h : occasion.Ready bounds pass) :
    occasion.Leads bounds pass [] pass.lastEnd pass.scratch.delayed .proceed pass :=
  { h with
    control_eq := rfl
    ran := .refl pass
    lastEnd_eq := rfl
    waiting_eq := rfl }

theorem exists_eq_of_leads {step : PassM σ Control}
    (h : Gives step pass (occasion.Leads bounds pass made lastEnd waiting)) :
    ∃ next, step pass = .ok .proceed next
      ∧ occasion.Leads bounds pass made lastEnd waiting .proceed next := by
  obtain ⟨control, next, hstep, hnext⟩ := h
  have hcontrol := hnext.control_eq
  subst hcontrol
  exact ⟨next, hstep, hnext⟩

/-- Steps that proceed follow each other. -/
theorem Leads.andThen {first second : PassM σ Control}
    (h : Gives first pass (occasion.Leads bounds pass made lastEnd waiting))
    (h' : ∀ middle, occasion.Leads bounds pass made lastEnd waiting .proceed middle →
      Gives second middle (occasion.Leads bounds middle more lastEnd' waiting')) :
    Gives (Control.andThen first second) pass
      (occasion.Leads bounds pass (made ++ more) lastEnd' waiting') := by
  obtain ⟨middle, hfirst, hmiddle⟩ := exists_eq_of_leads h
  rw [Control.andThen, gives_bind]
  refine (gives_iff_of_eq hfirst).2 ?_
  refine (h' middle hmiddle).mono fun control next hnext => ?_
  exact { hnext with ran := hmiddle.ran.trans hnext.ran }

/-- Between two passes only some calls were made. -/
structure Told (calls : List (Nat × ReportId)) (pass next : Pass σ) : Prop where
  answers : next.answers = pass.answers ++ calls.map proceeded
  runs : next.runs = pass.runs
  groups : next.groups = pass.groups
  roles : next.stream.roles = pass.stream.roles
  lastEnd : next.lastEnd = pass.lastEnd
  delayed : next.scratch.delayed = pass.scratch.delayed

section Quiet

variable (hquiet : occasion.IsQuiet)
include hquiet

/-! ## Actions -/

theorem told_report (h : occasion.Ready bounds pass) {offset : Nat}
    (hoffset : bounds.reports offset) (id : ReportId) :
    Gives (occasion.report offset id) pass fun control next =>
      control = .proceed ∧ occasion.Ready bounds next ∧ Told [(offset, id)] pass next := by
  have hreport : occasion.report offset id pass = _ := report_of_running h.running offset id
  have hends := (ends_report h id hoffset).of_eq hreport
  rw [hquiet] at hreport hends
  refine (gives_iff_of_eq hreport).2 ⟨rfl, hends, Pass.answers_note, ?_, rfl, rfl, rfl, rfl⟩
  exact Pass.runs_note.trans (List.append_nil _)

theorem told_reportAll (h : occasion.Ready bounds pass) {offset : Nat}
    (hoffset : bounds.reports offset) (ids : List ReportId) :
    Gives (Control.visitAll (occasion.report offset) ids) pass fun control next =>
      control = .proceed ∧ occasion.Ready bounds next
        ∧ Told (ids.map fun id => (offset, id)) pass next := by
  induction ids generalizing pass with
  | nil => exact gives_pure.2 ⟨rfl, h, (List.append_nil _).symm, rfl, rfl, rfl, rfl, rfl⟩
  | cons id ids ih =>
    rw [Control.visitAll_cons, Control.andThen, gives_bind]
    refine (told_report hquiet h hoffset id).mono fun control middle hmiddle => ?_
    obtain ⟨rfl, hready, htold⟩ := hmiddle
    refine (ih hready).mono fun control next hnext => ?_
    obtain ⟨hcontrol, hready', htold'⟩ := hnext
    refine ⟨hcontrol, hready', ?_, htold'.runs.trans htold.runs,
      htold'.groups.trans htold.groups, htold'.roles.trans htold.roles,
      htold'.lastEnd.trans htold.lastEnd, htold'.delayed.trans htold.delayed⟩
    rw [htold'.answers, htold.answers, List.append_assoc]
    rfl

variable (hsound : occasion.IsSound bounds)
include hsound

omit hquiet in
theorem settles_settle (h : occasion.Ready bounds pass) {offset : Nat}
    (hoffset : bounds.places offset) {id : LiteralId} {action : Action}
    (hfind : occasion.engine.actions.find? id = some action) :
    Gives (occasion.settle offset action) pass fun control next =>
      control = .proceed ∧ occasion.Ready bounds next ∧ next.answers = pass.answers
        ∧ next.runs = pass.runs ∧ next.groups = pass.groups.without action.squash
        ∧ next.stream.roles = action.roles.foldl occasion.flagsWith pass.stream.roles
        ∧ next.lastEnd = pass.lastEnd ∧ next.scratch.delayed = pass.scratch.delayed := by
  obtain ⟨hroles, hqueues⟩ := hsound.engine.action hfind
  simp only [settle, gives_bind, gives_modify, gives_pure]
  refine ((ready_switchAllOn h hroles).related
    (occasion.silent_switchAllOn occasion.callback _) pass.caller).mono fun _ middle hmiddle => ?_
  obtain ⟨⟨hmiddle, hflags⟩, hroles⟩ := hmiddle
  refine ((ready_triggerAll hsound hmiddle hoffset hqueues).related
    (occasion.sameRoles_triggerAll occasion.callback _ _) pass.caller).mono
    fun _ next hnext => ?_
  obtain ⟨hnext, hqueues⟩ := hnext
  have hstory := trans_of Pass.SameStory hroles hqueues.toSameStory
  exact ⟨trivial, { hnext with }, hstory.answers, hstory.runs, by rw [hstory.groups],
    hqueues.roles.trans hflags, hstory.lastEnd, hstory.delayed⟩

/-- An action that is run proceeds, and does what it does at its place. -/
theorem leads_runAction (h : occasion.Ready bounds pass) {offset : Nat}
    (hoffset : bounds.places offset) {id : LiteralId} {action : Action}
    (hfind : occasion.engine.actions.find? id = some action) :
    Gives (occasion.runAction offset id) pass
      (occasion.Leads bounds pass [(offset, id)] pass.lastEnd pass.scratch.delayed) := by
  have hnoted := h.note (.acted offset id) hoffset
  have hruns : ({ pass with journal := .acted offset id :: pass.journal } : Pass σ).runs
      = pass.runs ++ [(offset, id)] := Pass.runs_note
  have hanswers : ({ pass with journal := .acted offset id :: pass.journal } : Pass σ).answers
      = pass.answers := Pass.answers_note.trans (List.append_nil _)
  simp only [runAction, hfind, gives_bind, gives_note, gives_ite, gives_pure]
  refine ⟨fun hidle => ?_, fun hacts => ?_⟩
  · have hnone : occasion.actionOf (offset, id) = none := by simp [actionOf, hfind, hidle]
    refine { hnoted with
      control_eq := rfl
      ran := ⟨hruns, hanswers.trans ?_, ?_, ?_⟩
      lastEnd_eq := rfl
      waiting_eq := rfl }
    · simp [reportsOf, hnone]
    · simp [groupsAfter, hnone]
    · simp [flagsAfter, hnone]
  · have hsome : occasion.actionOf (offset, id) = some action := by
      rw [actionOf, hfind, Option.filter_some, if_pos (decide_eq_true hacts)]
    rw [Control.andThen, gives_bind]
    refine (told_reportAll hquiet hnoted (hsound.reports hoffset) action.reports).mono
      fun control middle hmiddle => ?_
    obtain ⟨rfl, hmiddle, htold⟩ := hmiddle
    refine (settles_settle hsound hmiddle hoffset hfind).mono fun control next hnext => ?_
    obtain ⟨rfl, hnext, hanswers', hruns', hgroups', hflags', hlast, hdelayed⟩ := hnext
    refine { hnext with
      control_eq := rfl
      ran := ⟨hruns'.trans (htold.runs.trans hruns), ?_, ?_, ?_⟩
      lastEnd_eq := hlast.trans htold.lastEnd
      waiting_eq := hdelayed.trans htold.delayed }
    · rw [hanswers', htold.answers, hanswers]
      simp [reportsOf, hsome]
    · rw [hgroups', htold.groups]
      simp [groupsAfter, hsome]
    · rw [hflags', htold.roles]
      simp [flagsAfter, hsome]

/-! ## What waits -/

theorem leads_runWaiting (h : occasion.Ready bounds pass) {due : List Delayed}
    (hdue : ∀ delayed ∈ due, bounds.places delayed.due
      ∧ ∃ action, occasion.engine.actions.find? delayed.id = some action) :
    Gives (Control.visitAll (fun delayed => occasion.runAction delayed.due delayed.id) due) pass
      (occasion.Leads bounds pass (due.map (·.run)) pass.lastEnd pass.scratch.delayed) := by
  induction due generalizing pass with
  | nil => exact gives_pure.2 (leads_nil h)
  | cons delayed due ih =>
    obtain ⟨⟨hplace, action, hfind⟩, hrest⟩ := List.forall_mem_cons.1 hdue
    refine Leads.andThen (leads_runAction hquiet hsound h hplace hfind) fun middle hmiddle => ?_
    have hnext := ih hmiddle.toReady hrest
    rwa [hmiddle.lastEnd_eq, hmiddle.waiting_eq] at hnext

variable (hknown : ∀ delayed, bounds.waits delayed →
  ∃ action, occasion.engine.actions.find? delayed.id = some action)
include hknown

theorem leads_runDelayed (h : occasion.Ready bounds pass) {upTo : Nat}
    (hupTo : upTo ≤ occasion.offset) :
    let due := pass.scratch.delayed.takeWhile (·.due ≤ upTo)
    Gives (occasion.runDelayed upTo) pass (occasion.Leads bounds pass (due.map (·.run)) pass.lastEnd
      (pass.scratch.delayed.drop due.length)) := by
  intro due
  simp only [runDelayed, gives_bind, gives_get, gives_changeScratch, gives_pure]
  have hdue : ∀ delayed ∈ due, bounds.places delayed.due
      ∧ ∃ action, occasion.engine.actions.find? delayed.id = some action := by
    intro delayed hdelayed
    obtain ⟨hmem, hle⟩ := Delayed.of_mem_takeWhile hdelayed
    have hwaits := h.delayed delayed hmem
    exact ⟨hsound.due hwaits (Nat.le_trans hle hupTo), hknown delayed hwaits⟩
  obtain ⟨next, hrun, hnext⟩ := exists_eq_of_leads (leads_runWaiting hquiet hsound h hdue)
  refine (gives_iff_of_eq hrun).2 ⟨_, rfl, ?_⟩
  exact { hnext.toFits.withDelayed fun d hd => hnext.delayed d (List.mem_of_mem_drop hd) with
    running := hnext.running
    control_eq := rfl
    ran := ⟨hnext.ran.runs, hnext.ran.answers, hnext.ran.groups, hnext.ran.flags⟩
    lastEnd_eq := hnext.lastEnd_eq
    waiting_eq := congrArg (List.drop due.length) hnext.waiting_eq }

omit hknown in
theorem leads_runOrDelay (h : occasion.Ready bounds pass) {offset : Nat}
    (hoffset : bounds.places offset) {id : LiteralId} {action : Action}
    (hfind : occasion.engine.actions.find? id = some action)
    (hwaits : bounds.waits ⟨dueAt offset action.delay, id⟩) :
    let isLive := action.groups.meets pass.groups
    Gives (occasion.runOrDelay offset id false) pass (occasion.Leads bounds pass
      (if isLive ∧ action.delay = 0 then [(offset, id)] else []) pass.lastEnd
      (if isLive ∧ 0 < action.delay
        then Delayed.insert ⟨dueAt offset action.delay, id⟩ pass.scratch.delayed
        else pass.scratch.delayed)) := by
  intro isLive
  simp only [runOrDelay, hfind, gives_bind, gives_get, gives_ite, gives_pure, gives_changeScratch]
  refine ⟨fun hdead => ?_, fun hlive => ?_⟩
  · have hdead : isLive = false := by simpa using hdead
    simp only [hdead, Bool.false_eq_true, false_and, if_false]
    exact leads_nil h
  · have hlive : isLive = true := by simpa using hlive
    simp only [hlive, true_and, and_true, Bool.not_false]
    refine ⟨fun hdelay => ⟨_, rfl, ?_⟩, fun hdelay => ?_⟩
    · rw [if_neg (Nat.ne_of_gt hdelay), if_pos hdelay]
      refine { h.toFits.withDelayed fun d hd => ?_ with
        running := h.running
        control_eq := rfl
        ran := ⟨(List.append_nil _).symm, (List.append_nil _).symm, rfl, rfl⟩
        lastEnd_eq := rfl
        waiting_eq := rfl }
      rcases Delayed.mem_insert_iff.1 hd with rfl | hd
      · exact hwaits
      · exact h.delayed d hd
    · rw [if_pos (Nat.eq_zero_of_not_pos hdelay), if_neg hdelay]
      exact leads_runAction hquiet hsound h hoffset hfind

/-- A literal that ended is taken in as an arrival: what is due by then runs first, and the groups
that are live then decide what becomes of it. -/
theorem leads_onLiteral (hwrap : occasion.NoWrap) (htail : occasion.AdmitsTail bounds)
    (h : occasion.Ready bounds pass) {matchEnd : Nat} (hend : matchEnd ≤ occasion.data.size)
    {id : LiteralId} {action : Action} (hfind : occasion.engine.actions.find? id = some action) :
    ∃ flushed, occasion.runDelayed (occasion.dataStart + matchEnd) pass = .ok .proceed flushed
      ∧ flushed.lastEnd = pass.lastEnd
      ∧ flushed.scratch.delayed = pass.scratch.delayed.drop
        (pass.scratch.delayed.takeWhile (·.due ≤ occasion.dataStart + matchEnd)).length
      ∧ let arrival : Arrival :=
          ⟨occasion.dataStart + matchEnd, id, action.groups.meets flushed.groups⟩
        Gives (occasion.onLiteral matchEnd id) pass (occasion.Leads bounds pass
          ((arrival.runs occasion.delayOf pass.scratch.delayed).map (·.run))
          (occasion.dataStart + matchEnd)
          (arrival.waits occasion.delayOf pass.scratch.delayed)) := by
  have hle := dataStart_add_le hsound.size hend
  obtain ⟨flushed, hrun, hflushed⟩ :=
    exists_eq_of_leads (leads_runDelayed hquiet hsound hknown h hle)
  refine ⟨flushed, hrun, hflushed.lastEnd_eq, hflushed.waiting_eq, ?_⟩
  intro arrival
  have hdelay : occasion.delayOf arrival.id = action.delay := delayOf_eq hfind
  have hslot : arrival.slot occasion.delayOf
      = ⟨dueAt (occasion.dataStart + matchEnd) action.delay, id⟩ := by
    rw [Arrival.slot, hdelay, hwrap.dueAt_eq hfind hle]
  have hmoved : occasion.Ready bounds
      { flushed with lastEnd := occasion.dataStart + matchEnd } := { hflushed with }
  have htake := leads_runOrDelay hquiet hsound hmoved (htail.ends matchEnd hend) hfind
    (htail.due matchEnd hend hfind)
  simp only [onLiteral, Control.andThen, gives_bind, gives_modify, gives_iff_of_eq hrun]
  refine htake.mono fun control next hnext => ?_
  refine { hnext with ran := ?_, waiting_eq := hnext.waiting_eq.trans ?_ }
  · have hran := hflushed.ran.trans
      ⟨hnext.ran.runs, hnext.ran.answers, hnext.ran.groups, hnext.ran.flags⟩
    rw [Arrival.runs, hdelay, List.map_append]
    by_cases hnow : arrival.isLive = true ∧ action.delay = 0
    · have hrun : (arrival.slot occasion.delayOf).run = (occasion.dataStart + matchEnd, id) := by
        rw [hslot, hwrap.dueAt_eq hfind hle, hnow.2]
        rfl
      rw [if_pos hnow, List.map_singleton, hrun]
      rwa [if_pos hnow] at hran
    · rw [if_neg hnow]
      rwa [if_neg hnow] at hran
  · rw [Arrival.waits, hdelay, hslot, ← hflushed.waiting_eq]

end Quiet

end Occasion

end Multimatch
