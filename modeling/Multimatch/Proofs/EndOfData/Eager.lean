import Mathlib
import Multimatch.Proofs.EndOfData.Phases
import Multimatch.Proofs.Groups

/-!
# Running everything when it is due

The scan of the last bytes runs an action that waited only when the next literal is reported, or at
the end. The reference here (`Occasion.eager`) visits one offset after the other: it runs what is
due there, looks which groups are live, and takes in the literals that end there.

The two differ: a scan asks for the live groups before it reports a literal, so that an action that
is due by then has not switched off its groups yet. They do the same where this does not matter
(`Occasion.Suits.scanTail_eq_eager`): if a waiting action may switch off groups of a literal, then
the action of the literal has no other groups (`Occasion.MindsGroups`).
-/

namespace Multimatch

open PassM

/-- What a scan leaves behind, as far as it depends on actions. -/
structure Ledger where
  groups : Groups
  flags : FlagSet
  waiting : List Delayed
  runs : List (Nat × LiteralId)

/-- The ledger of a pass. -/
def Pass.ledger {σ : Type} (pass : Pass σ) : Ledger :=
  ⟨pass.groups, pass.stream.roles, pass.scratch.delayed, pass.runs⟩

namespace Occasion

variable {σ : Type}

section Definitions

variable (occasion : Occasion σ)

/-- The ledger once an action was run. -/
def noteRun (ledger : Ledger) (run : Nat × LiteralId) : Ledger where
  groups := occasion.groupsAfter ledger.groups run
  flags := occasion.flagsAfter ledger.flags run
  waiting := ledger.waiting
  runs := ledger.runs ++ [run]

/-- Runs what is due at an offset, in the order of its literals. -/
def runDue (offset : Nat) (ledger : Ledger) : Ledger :=
  ((ledger.waiting.filter (·.due = offset)).map (·.run)).foldl occasion.noteRun
    { ledger with waiting := ledger.waiting.filter (·.due ≠ offset) }

/-- Takes in a literal that ends at an offset: its action is run or put off, if it is live. -/
def takeIn (offset : Nat) (ledger : Ledger) (id : LiteralId) : Ledger :=
  match occasion.engine.actions.find? id with
  | none => ledger
  | some action =>
    if !action.groups.meets ledger.groups then ledger
    else if 0 < action.delay then
      { ledger with waiting := Delayed.insert ⟨offset + action.delay, id⟩ ledger.waiting }
    else occasion.noteRun ledger (offset, id)

/-- Visits an end: what is due there is run before the live groups are asked for. -/
def visitEnd (literals : List Literal) (input : ScanInput) (ledger : Ledger) (matchEnd : Nat) :
    Ledger :=
  let ledger := occasion.runDue (occasion.dataStart + matchEnd) ledger
  (Naive.idsAt literals input matchEnd ledger.groups).foldl
    (occasion.takeIn (occasion.dataStart + matchEnd)) ledger

/-- Visits the last bytes, end by end. -/
def eager (literals : List Literal) (matcher : EndMatcher) (ledger : Ledger) : Ledger :=
  (occasion.tailInput matcher).ends.foldl
    (occasion.visitEnd literals (occasion.tailInput matcher)) ledger

/-- Where a waiting action may switch off groups of a literal, the action of the literal has no
other groups. -/
def MindsGroups (literals : List Literal) : Prop :=
  ∀ literal ∈ literals, ∀ action, occasion.engine.actions.find? literal.id = some action →
    (∀ id waiting, occasion.engine.actions.find? id = some waiting → 0 < waiting.delay →
      waiting.squash.meets literal.groups = false)
    ∨ action.groups.without literal.groups = Groups.none

/-- The ledger with everything run that is due by an offset. -/
def settleBy (upTo : Nat) (ledger : Ledger) : Ledger :=
  let due := ledger.waiting.takeWhile (·.due ≤ upTo)
  (due.map (·.run)).foldl occasion.noteRun
    { ledger with waiting := ledger.waiting.drop due.length }

end Definitions

variable {occasion : Occasion σ} {ledger : Ledger} {runs : List (Nat × LiteralId)}

/-! ## Ledgers -/

theorem foldl_noteRun : runs.foldl occasion.noteRun ledger
    = ⟨runs.foldl occasion.groupsAfter ledger.groups, runs.foldl occasion.flagsAfter ledger.flags,
      ledger.waiting, ledger.runs ++ runs⟩ := by
  induction runs generalizing ledger with
  | nil => simp
  | cons run runs ih => simp [ih, noteRun]

theorem groupsAfter_within (groups : Groups) (run : Nat × LiteralId) :
    (occasion.groupsAfter groups run).Within groups := by
  unfold groupsAfter
  split
  · exact Groups.without_within _ _
  · exact fun _ h => h

theorem foldl_groupsAfter_within (groups : Groups) (runs : List (Nat × LiteralId)) :
    (runs.foldl occasion.groupsAfter groups).Within groups := by
  induction runs generalizing groups with
  | nil => exact fun _ h => h
  | cons run runs ih => exact (ih _).trans (groupsAfter_within groups run)

/-- Settling in two steps is settling at once. -/
theorem settleBy_settleBy {upTo later : Nat} (h : upTo ≤ later) :
    occasion.settleBy later (occasion.settleBy upTo ledger) = occasion.settleBy later ledger := by
  have hsplit := Delayed.takeWhile_append_takeWhile ledger.waiting h
  simp only [settleBy, foldl_noteRun, ← hsplit, List.map_append, List.foldl_append,
    List.append_assoc, List.length_append, List.drop_drop]

theorem settleBy_eq_self {upTo : Nat} (h : ∀ delayed ∈ ledger.waiting, upTo < delayed.due) :
    occasion.settleBy upTo ledger = ledger := by
  have hnone : ledger.waiting.takeWhile (·.due ≤ upTo) = [] := by
    cases hwaiting : ledger.waiting with
    | nil => rfl
    | cons first rest =>
      have hfirst := h first (by simp [hwaiting])
      exact List.takeWhile_cons_of_neg (by simpa using hfirst)
  simp [settleBy, hnone]

/-- Once everything is settled by an offset, settling by the next one runs what is due there. -/
theorem runDue_settleBy (h : Delayed.InOrder ledger.waiting) (offset : Nat) :
    occasion.runDue (offset + 1) (occasion.settleBy offset ledger)
      = occasion.settleBy (offset + 1) ledger := by
  have hleft : (occasion.settleBy offset ledger).waiting
      = ledger.waiting.drop (ledger.waiting.takeWhile (·.due ≤ offset)).length := by
    rw [settleBy, foldl_noteRun]
  have hsorted : Delayed.InOrder (occasion.settleBy offset ledger).waiting := by
    rw [hleft]
    exact List.Pairwise.sublist (List.drop_sublist ..) h
  have hlater : ∀ delayed ∈ (occasion.settleBy offset ledger).waiting, offset < delayed.due := by
    intro delayed hdelayed
    rw [hleft] at hdelayed
    exact Delayed.lt_due_of_mem_drop h hdelayed
  have hdue : (occasion.settleBy offset ledger).waiting.filter (·.due = offset + 1)
      = (occasion.settleBy offset ledger).waiting.takeWhile (·.due ≤ offset + 1) := by
    rw [← Delayed.filter_eq_takeWhile hsorted]
    refine List.filter_congr fun delayed hdelayed => ?_
    have hlt := hlater delayed hdelayed
    exact decide_eq_decide.2 (by omega)
  have hrest : (occasion.settleBy offset ledger).waiting.filter (·.due ≠ offset + 1)
      = (occasion.settleBy offset ledger).waiting.drop
        ((occasion.settleBy offset ledger).waiting.takeWhile (·.due ≤ offset + 1)).length := by
    rw [← Delayed.filter_eq_drop hsorted]
    refine List.filter_congr fun delayed hdelayed => ?_
    have hlt := hlater delayed hdelayed
    exact decide_eq_decide.2 (by omega)
  rw [← settleBy_settleBy (Nat.le_succ offset), runDue, hdue, hrest]
  rfl

/-! ## Groups of a ledger -/

theorem settleBy_groups_within (upTo : Nat) (ledger : Ledger) :
    (occasion.settleBy upTo ledger).groups.Within ledger.groups := by
  rw [settleBy, foldl_noteRun]
  exact foldl_groupsAfter_within _ _

theorem takeIn_groups_within (offset : Nat) (ledger : Ledger) (id : LiteralId) :
    (occasion.takeIn offset ledger id).groups.Within ledger.groups := by
  unfold takeIn
  split
  · exact fun _ h => h
  · split
    · exact fun _ h => h
    · split
      · exact fun _ h => h
      · exact groupsAfter_within _ _

/-- A literal whose action is not live changes nothing. -/
theorem takeIn_of_dead {offset : Nat} {id : LiteralId} {action : Action}
    (hfind : occasion.engine.actions.find? id = some action)
    (hdead : action.groups.meets ledger.groups = false) :
    occasion.takeIn offset ledger id = ledger := by
  simp [takeIn, hfind, hdead]

/-- What is not live at first can be left out. -/
theorem foldl_takeIn_filter {offset : Nat} {ids : List LiteralId} {keep : LiteralId → Bool}
    {groups : Groups} (hwithin : ledger.groups.Within groups)
    (hdead : ∀ id ∈ ids, keep id = false → ∃ action,
      occasion.engine.actions.find? id = some action ∧ action.groups.meets groups = false) :
    (ids.filter keep).foldl (occasion.takeIn offset) ledger
      = ids.foldl (occasion.takeIn offset) ledger := by
  induction ids generalizing ledger with
  | nil => rfl
  | cons id ids ih =>
    obtain ⟨hfirst, hrest⟩ := List.forall_mem_cons.1 hdead
    cases hkeep : keep id with
    | true =>
      rw [List.filter_cons_of_pos hkeep, List.foldl_cons, List.foldl_cons]
      exact ih ((takeIn_groups_within _ _ _).trans hwithin) hrest
    | false =>
      obtain ⟨action, hfind, hgroups⟩ := hfirst hkeep
      have hnot : action.groups.meets ledger.groups = false := by
        by_contra hlive
        rw [Bool.not_eq_false] at hlive
        rw [hwithin.meets hlive] at hgroups
        cases hgroups
      rw [List.filter_cons_of_neg (by simp [hkeep]), List.foldl_cons, takeIn_of_dead hfind hnot]
      exact ih hwithin hrest

/-- Actions that wait do not switch off what they do not squash. -/
theorem meets_foldl_groupsAfter {groups : Groups} {live : Groups}
    (hspares : ∀ id waiting, occasion.engine.actions.find? id = some waiting → 0 < waiting.delay →
      waiting.squash.meets groups = false)
    (hpos : ∀ run ∈ runs, 0 < occasion.delayOf run.2) (hmeets : groups.meets live = true) :
    groups.meets (runs.foldl occasion.groupsAfter live) = true := by
  induction runs generalizing live with
  | nil => exact hmeets
  | cons run runs ih =>
    obtain ⟨hfirst, hrest⟩ := List.forall_mem_cons.1 hpos
    refine ih hrest ?_
    unfold groupsAfter
    cases haction : occasion.actionOf run with
    | none => exact hmeets
    | some action =>
      have hfind : occasion.engine.actions.find? run.2 = some action :=
        (Option.filter_eq_some_iff.1 haction).1
      rw [delayOf_eq hfind] at hfirst
      exact Groups.meets_without (hspares run.2 action hfind hfirst) hmeets

section Literals

variable {literals : List Literal} {input : ScanInput} {matchEnd : Nat}

/-- What ends while fewer groups are live is what ends, if its groups are live. -/
theorem idsAt_eq_filter {live less : Groups} (h : less.Within live) :
    Naive.idsAt literals input matchEnd less
      = (Naive.idsAt literals input matchEnd live).filter
        (· ∈ Naive.idsAt literals input matchEnd less) := by
  refine eq_of_ascending Naive.pairwise_idsAt (Naive.pairwise_idsAt.filter _) fun id => ?_
  rw [List.mem_filter, decide_eq_true_eq]
  refine ⟨fun hid => ⟨?_, hid⟩, fun hid => hid.2⟩
  obtain ⟨literal, hliteral, hsame, hmeets, hends⟩ := Naive.mem_idsAt.1 hid
  exact Naive.mem_idsAt.2 ⟨literal, hliteral, hsame, h.meets hmeets, hends⟩

/-- Looking at the live groups too early does no harm if actions mind the groups of literals. -/
theorem foldl_takeIn_settleBy (hminds : occasion.MindsGroups literals)
    (hactions : ∀ literal ∈ literals, (occasion.engine.actions.find? literal.id).isSome = true)
    (hpos : ∀ delayed ∈ ledger.waiting, 0 < occasion.delayOf delayed.id) (offset : Nat) :
    let settled := occasion.settleBy offset ledger
    (Naive.idsAt literals input matchEnd settled.groups).foldl (occasion.takeIn offset) settled
      = (Naive.idsAt literals input matchEnd ledger.groups).foldl (occasion.takeIn offset)
        settled := by
  intro settled
  rw [idsAt_eq_filter (settleBy_groups_within offset ledger)]
  refine foldl_takeIn_filter (fun _ h => h) fun id hid hkeep => ?_
  obtain ⟨literal, hliteral, rfl, hmeets, hends⟩ := Naive.mem_idsAt.1 hid
  have hoff : literal.groups.meets settled.groups = false := by
    by_contra hlive
    rw [Bool.not_eq_false] at hlive
    exact of_decide_eq_false hkeep
      (Naive.mem_idsAt.2 ⟨literal, hliteral, rfl, hlive, hends⟩)
  obtain ⟨action, hfind⟩ := Option.isSome_iff_exists.1 (hactions literal hliteral)
  refine ⟨action, hfind, ?_⟩
  by_contra hlive
  rw [Bool.not_eq_false] at hlive
  -- Either no waiting action switched the literal off, or its action is switched off with it.
  rcases hminds literal hliteral action hfind with hspares | hnone
  · have hruns : ∀ run ∈ (ledger.waiting.takeWhile (·.due ≤ offset)).map (·.run),
        0 < occasion.delayOf run.2 := by
      refine List.forall_mem_map.2 fun delayed hdelayed => ?_
      exact hpos delayed (Delayed.of_mem_takeWhile hdelayed).1
    have hstill := meets_foldl_groupsAfter hspares hruns hmeets
    have hgroups : settled.groups = ((ledger.waiting.takeWhile (·.due ≤ offset)).map
        (·.run)).foldl occasion.groupsAfter ledger.groups := by
      simp only [settled, settleBy, foldl_noteRun]
    rw [hgroups, hstill] at hoff
    cases hoff
  · obtain ⟨bit, haction, hsettled⟩ := Groups.meets_iff.1 hlive
    have hliteral := Groups.within_of_without_eq_none hnone bit haction
    rw [Groups.meets_iff.2 ⟨bit, hliteral, hsettled⟩] at hoff
    cases hoff

end Literals

/-! ## Passes and their ledgers -/

variable {bounds : Bounds} {pass next : Pass σ}

theorem ledger_of_leads {made : List (Nat × LiteralId)} {lastEnd : Nat} {waiting : List Delayed}
    {control : Control} (h : occasion.Leads bounds pass made lastEnd waiting control next) :
    next.ledger = made.foldl occasion.noteRun { pass.ledger with waiting } := by
  rw [foldl_noteRun, Pass.ledger, h.waiting_eq, h.ran.runs, h.ran.groups, h.ran.flags]
  rfl

/-- What is kept from literal to literal: what waits has a delay, and is in order. -/
structure Queues (occasion : Occasion σ) (bounds : Bounds) (pass : Pass σ) : Prop
    extends occasion.Ready bounds pass where
  sorted : Delayed.InOrder pass.scratch.delayed
  delays : ∀ delayed ∈ pass.scratch.delayed, 0 < occasion.delayOf delayed.id

section Quiet

variable (hsound : occasion.IsSound bounds) (hquiet : occasion.IsQuiet)
  (hknown : ∀ delayed, bounds.waits delayed →
    ∃ action, occasion.engine.actions.find? delayed.id = some action)
  (hwrap : occasion.NoWrap) (htail : occasion.AdmitsTail bounds)
include hsound hquiet hknown hwrap htail

/-- A call settles what is due and takes its literal in. -/
theorem ledger_onLiteral (h : occasion.Queues bounds pass) {matchEnd : Nat}
    (hend : matchEnd ≤ occasion.data.size) {id : LiteralId} {action : Action}
    (hfind : occasion.engine.actions.find? id = some action) :
    Gives (occasion.onLiteral matchEnd id) pass fun control next => control = .proceed
      ∧ occasion.Queues bounds next
      ∧ occasion.settleBy (occasion.dataStart + matchEnd) next.ledger
        = occasion.takeIn (occasion.dataStart + matchEnd)
          (occasion.settleBy (occasion.dataStart + matchEnd) pass.ledger) id := by
  obtain ⟨flushed, hflush, -, -, hcall⟩ :=
    leads_onLiteral hquiet hsound hknown hwrap htail h.toReady hend hfind
  have hflushed := ledger_of_leads ((leads_runDelayed hquiet hsound hknown h.toReady
    (dataStart_add_le hsound.size hend)).of_eq hflush)
  have hsettled : flushed.ledger
      = occasion.settleBy (occasion.dataStart + matchEnd) pass.ledger := hflushed
  refine hcall.mono fun control next hnext => ⟨hnext.control_eq, ?_, ?_⟩
  · refine { hnext with sorted := ?_, delays := fun delayed hdelayed => ?_ }
    · rw [hnext.waiting_eq]
      exact Arrival.inOrder_waits h.sorted
    · rw [hnext.waiting_eq] at hdelayed
      rcases Arrival.mem_waits hdelayed with hleft | ⟨rfl, hpos⟩
      · exact h.delays delayed (List.mem_of_mem_drop hleft)
      · exact hpos
  · have hlater : ∀ delayed ∈ next.ledger.waiting,
        occasion.dataStart + matchEnd < delayed.due := by
      intro delayed hdelayed
      rw [Pass.ledger, hnext.waiting_eq] at hdelayed
      exact Arrival.lt_due_of_mem_waits h.sorted hdelayed
    have hlive : (occasion.settleBy (occasion.dataStart + matchEnd) pass.ledger).groups
        = flushed.groups := congrArg Ledger.groups hsettled.symm
    rw [settleBy_eq_self hlater, ledger_of_leads hnext, takeIn, hfind]
    simp only [hlive, Arrival.runs, Arrival.waits, delayOf_eq hfind, Arrival.slot]
    cases action.groups.meets flushed.groups with
    | false => simp [settleBy, Pass.ledger]
    | true =>
      by_cases hdelay : 0 < action.delay
      · simpa [hdelay, Nat.ne_of_gt hdelay, settleBy, Pass.ledger, foldl_noteRun] using hlive
      · simp [Nat.eq_zero_of_not_pos hdelay, settleBy, Pass.ledger, Delayed.run]

theorem ledger_deliver (h : occasion.Queues bounds pass) {matchEnd : Nat}
    (hend : matchEnd ≤ occasion.data.size) {ids : List LiteralId}
    (hids : ∀ id ∈ ids, ∃ action, occasion.engine.actions.find? id = some action) :
    Gives (occasion.sink.deliver matchEnd ids) pass fun control next => control = .proceed
      ∧ occasion.Queues bounds next
      ∧ occasion.settleBy (occasion.dataStart + matchEnd) next.ledger
        = ids.foldl (occasion.takeIn (occasion.dataStart + matchEnd))
          (occasion.settleBy (occasion.dataStart + matchEnd) pass.ledger) := by
  induction ids generalizing pass with
  | nil => exact gives_pure.2 ⟨rfl, h, rfl⟩
  | cons id ids ih =>
    obtain ⟨⟨action, hfind⟩, hrest⟩ := List.forall_mem_cons.1 hids
    have hcall := ledger_onLiteral hsound hquiet hknown hwrap htail h hend hfind
    show Gives (Control.andThen (occasion.onLiteral matchEnd id)
      (occasion.sink.deliver matchEnd ids)) pass _
    rw [Control.andThen, gives_bind]
    refine hcall.mono fun control middle hmiddle => ?_
    obtain ⟨rfl, hqueues, hledger⟩ := hmiddle
    have hnext := ih hqueues hrest
    rwa [hledger] at hnext

/-- The scan of some ends does what the reference does there, up to what is due but was not run. -/
theorem ledger_visitAll {literals : List Literal} (hminds : occasion.MindsGroups literals)
    (hactions : ∀ literal ∈ literals, (occasion.engine.actions.find? literal.id).isSome = true)
    (h : occasion.Queues bounds pass) (input : ScanInput) {start count : Nat}
    (hcount : start + count ≤ occasion.data.size) :
    Gives (Control.visitAll (occasion.sink.tell (Naive.idsAt literals input))
      (List.range' (start + 1) count)) pass fun control next => control = .proceed
      ∧ occasion.Queues bounds next
      ∧ occasion.settleBy (occasion.dataStart + (start + count)) next.ledger
        = (List.range' (start + 1) count).foldl (occasion.visitEnd literals input)
          (occasion.settleBy (occasion.dataStart + start) pass.ledger) := by
  induction count generalizing pass start with
  | zero => exact gives_pure.2 ⟨rfl, h, rfl⟩
  | succ count ih =>
    have hend : start + 1 ≤ occasion.data.size := by omega
    have hids : ∀ id ∈ Naive.idsAt literals input (start + 1) pass.groups,
        ∃ action, occasion.engine.actions.find? id = some action := by
      intro id hid
      obtain ⟨literal, hliteral, rfl, -, -⟩ := Naive.mem_idsAt.1 hid
      exact Option.isSome_iff_exists.1 (hactions literal hliteral)
    have hvisit : occasion.visitEnd literals input
          (occasion.settleBy (occasion.dataStart + start) pass.ledger) (start + 1)
        = (Naive.idsAt literals input (start + 1) pass.groups).foldl
          (occasion.takeIn (occasion.dataStart + (start + 1)))
          (occasion.settleBy (occasion.dataStart + (start + 1)) pass.ledger) := by
      have hdue := @runDue_settleBy _ occasion pass.ledger h.sorted (occasion.dataStart + start)
      have hminded := @foldl_takeIn_settleBy _ occasion pass.ledger literals input (start + 1)
        hminds hactions h.delays (occasion.dataStart + (start + 1))
      rw [visitEnd, ← Nat.add_assoc, hdue]
      exact hminded
    rw [List.range'_succ, Control.visitAll_cons, Control.andThen, gives_bind]
    have htell := ledger_deliver hsound hquiet hknown hwrap htail h hend hids
    refine Gives.mono (gives_bind.2 (gives_get.2 htell)) fun control middle hmiddle => ?_
    obtain ⟨rfl, hqueues, hledger⟩ := hmiddle
    have hnext := ih hqueues (show start + 1 + count ≤ occasion.data.size by omega)
    rw [hledger, ← hvisit, Nat.add_right_comm start 1 count] at hnext
    exact hnext

end Quiet

/-! ## The scan and the reference -/

/-- No literal ends in data that is shorter than all of them. -/
theorem eager_of_short {literals : List Literal} {matcher : EndMatcher}
    (hserves : occasion.engine.Serves matcher literals)
    (hshort : occasion.data.size < matcher.minWidth) (hempty : ledger.waiting = []) :
    occasion.eager literals matcher ledger = ledger := by
  have hnone (matchEnd : Nat) (groups : Groups) :
      Naive.idsAt literals (occasion.tailInput matcher) matchEnd groups = [] := by
    refine List.eq_nil_iff_forall_not_mem.2 fun id hid => ?_
    obtain ⟨literal, hliteral, -, -, hends⟩ := Naive.mem_idsAt.1 hid
    have hlength : matcher.minWidth ≤ literal.length := by
      rw [hserves.2.2]
      exact List.min?_getD_le_of_mem (List.mem_map_of_mem hliteral)
    obtain ⟨hdrop, -⟩ := Literal.accepts_iff.1 hends
    have hbefore : ((occasion.tailInput matcher).before literal.nocase matchEnd).length
        ≤ occasion.data.size := by
      simp [ScanInput.before, tailInput]
    rw [List.length_drop] at hdrop
    omega
  have hvisit (matchEnd : Nat) :
      occasion.visitEnd literals (occasion.tailInput matcher) ledger matchEnd = ledger := by
    rw [visitEnd, hnone]
    cases ledger
    cases hempty
    rfl
  exact List.foldl_fixed' hvisit _

namespace Suits

variable {plan : Plan} {session : Session σ} (h : occasion.Suits plan session)
  (hquiet : occasion.IsQuiet) (hwrap : occasion.NoWrap)
include h hquiet hwrap

theorem ledger_scanTail {literals : List Literal} {matcher : EndMatcher}
    (hserves : occasion.engine.Serves matcher literals) (hminds : occasion.MindsGroups literals)
    (hwidth : matcher.minWidth ≤ occasion.data.size) (hsteady : occasion.Steady pass) :
    Gives (occasion.scanTail matcher) pass fun control next => control = .proceed
      ∧ next.ledger = { occasion.eager literals matcher pass.ledger with waiting := [] } := by
  have hsound := h.isSound_known pass.journal
  have hknown (delayed : Delayed) (hwaits : (occasion.known pass.journal).waits delayed) :
      ∃ action, occasion.engine.actions.find? delayed.id = some action := hwaits
  have htail : occasion.AdmitsTail (occasion.known pass.journal) :=
    ⟨fun _ _ => trivial, fun _ _ _ action hfind => ⟨action, hfind⟩⟩
  have hqueues : occasion.Queues (occasion.known pass.journal)
      { pass with caughtUpTo := occasion.dataStart } :=
    { (hsteady.ready rfl : occasion.Ready (occasion.known pass.journal) pass) with
      sorted := by simp [hsteady.empty, Delayed.InOrder]
      delays := by simp [hsteady.empty] }
  have hagree : (occasion.tailInput matcher).HistoriesAgree := .inl List.nil_suffix
  have hsize : (occasion.tailInput matcher).start
      + (occasion.data.size - (occasion.tailInput matcher).start) = occasion.data.size :=
    Nat.add_sub_cancel' (Nat.sub_le ..)
  have hscan := ledger_visitAll hsound hquiet hknown hwrap htail hminds hserves.2.1 hqueues
    (occasion.tailInput matcher) (Nat.le_of_eq hsize)
  obtain ⟨-, scanned, hnaive, rfl, hready, hledger⟩ := hscan
  have hscan : matcher.table.scan (occasion.tailInput matcher) occasion.sink
      { pass with caughtUpTo := occasion.dataStart } = .ok .proceed scanned := by
    rw [hserves.scan_eq hagree]
    exact hnaive
  have hend : occasion.dataStart + occasion.data.size = occasion.offset :=
    Nat.sub_add_cancel h.size
  have hempty : pass.ledger.waiting = [] := hsteady.empty
  have hstart := @settleBy_eq_self _ occasion pass.ledger
    (occasion.dataStart + (occasion.tailInput matcher).start) (by simp [hempty])
  have hsettled : occasion.settleBy occasion.offset scanned.ledger
      = occasion.eager literals matcher pass.ledger := by
    rw [hsize, hend] at hledger
    exact hledger.trans (congrArg (List.foldl _ · _) hstart)
  refine (leads_scanTail hsound hquiet hknown hwidth hscan hready.toReady).mono
    fun control next hnext => ⟨hnext.control_eq, ?_⟩
  rw [← hsettled, ledger_of_leads hnext, settleBy, foldl_noteRun, foldl_noteRun]
  rfl

/-- The scan of the last bytes runs what the reference runs, where and in the order in which the
reference does, and leaves the groups and the flags of the reference behind, if what waits minds the
groups of the literals. -/
theorem scanTail_eq_eager {literals : List Literal} {region : Nat}
    (hliterals : plan.matcher? = some (literals, region)) (hminds : occasion.MindsGroups literals) :
    ∃ matcher, occasion.engine.matcher? = some matcher ∧ matcher.region = region
      ∧ ∀ pass, occasion.Steady pass → ∃ next, occasion.scanTail matcher pass = .ok .proceed next
        ∧ next.ledger = { occasion.eager literals matcher pass.ledger with waiting := [] } := by
  obtain ⟨matcher, hmatcher, hregion, hserves⟩ := Plan.exists_serves_of_build h.built hliterals
  refine ⟨matcher, hmatcher, hregion, fun pass hsteady => ?_⟩
  by_cases hshort : occasion.data.size < matcher.minWidth
  · have hempty : pass.ledger.waiting = [] := hsteady.empty
    refine ⟨pass, scanTail_of_short hshort pass, ?_⟩
    rw [eager_of_short hserves hshort hempty, ← hempty]
  · obtain ⟨control, next, hscan, rfl, hledger⟩ :=
      h.ledger_scanTail hquiet hwrap hserves hminds (Nat.le_of_not_lt hshort) hsteady
    exact ⟨next, hscan, hledger⟩

end Suits

end Occasion

theorem Plan.mindsGroups_sample {engine : Engine} (hbuild : sample.build = .ok engine)
    {mode : Mode} {callback : List ReportId → Nat → ReportId → Control × List ReportId} :
    (sampleOccasion engine mode callback).MindsGroups sampleLiterals := by
  obtain ⟨-, -, -, -, matcher?, -, -, rfl⟩ := build_eq_ok_iff.1 hbuild
  have hall : ∀ literal ∈ sampleLiterals, ∀ entry ∈ sample.actions,
      entry.2.groups.without literal.groups = Groups.none := by decide
  intro literal hliteral action hfind
  exact .inr (hall literal hliteral _ (Actions.mem_of_find? hfind))

theorem Occasion.Suits.scanTail_eq_eager_delayed :
    ∃ engine scratch, Plan.sample.build = .ok engine
      ∧ let occasion := Plan.sampleOccasion engine .block fun reports _ id =>
          (.proceed, id :: reports)
        let pass := occasion.start ⟨.initial engine, scratch, [], []⟩
        ∃ matcher next, engine.matcher? = some matcher
          ∧ occasion.scanTail matcher pass = .ok .proceed next
          ∧ next.ledger = { occasion.eager Plan.sampleLiterals matcher pass.ledger with
            waiting := [] }
          ∧ next.runs = [(5, .wrap 7), (5, .wrap 8)] := by
  obtain ⟨engine, scratch, hsuits⟩ := Plan.exists_suits_sample
  have h := hsuits .block fun reports _ id => (.proceed, id :: reports)
  obtain ⟨matcher, hmatcher, hregion, hscan⟩ := scanTail_eq_eager h (fun _ _ _ => rfl)
    (Plan.noWrap_sample h.built) rfl (Plan.mindsGroups_sample h.built)
  obtain ⟨next, hnext, hledger⟩ := hscan _ h.steady_start
  refine ⟨engine, scratch, h.built, matcher, next, hmatcher, hnext, hledger, ?_⟩
  refine (congrArg Ledger.runs hledger).trans ?_
  obtain ⟨-, -, -, -, matcher?, -, -, rfl⟩ := Plan.build_eq_ok_iff.1 h.built
  rw [eager, tailInput, hregion]
  cbv

/-! ## An action that does not mind the groups of a literal -/

namespace Plan

def lateLiterals : List Literal :=
  [{ id := .wrap 7, bytes := [97] }, { id := .wrap 8, bytes := [98], groups := 2 }]

/-- An `a` that waits for one more byte and then switches off `b`, but not its action. -/
def late : Plan :=
  { actions := [(.wrap 7, { delay := 1, squash := 2 }), (.wrap 8, {})]
    matcher? := some (lateLiterals, 8)
    matcherOptions := { scheme? := some (some 1), domain? := some (some 9) } }

theorem exists_build_late : ∃ engine, late.build = .ok engine := by
  have hfor : late.matcherOptions.schemeFor lateLiterals
      = .ok ⟨1, 32, 8, 2, .none, 1, 0, 9⟩ := by decide +kernel
  have hbuckets : Buckets.sorted lateLiterals = lateLiterals :=
    List.mergeSort_of_pairwise (by decide)
  have hflood : FloodIndex.sorted lateLiterals = lateLiterals :=
    List.mergeSort_of_pairwise (by decide)
  have htable : ∃ table, LiteralTable.build late.matcherOptions lateLiterals = .ok table := by
    refine ⟨_, LiteralTable.build_of_schemeFor hfor ?_⟩
    simp only [Contents.bodyLength, Contents.floodOffset, Contents.ofLiterals,
      Contents.ofBuckets, Buckets.assign, FloodIndex.of, hbuckets, hflood]
    decide +kernel
  obtain ⟨table, htable⟩ := htable
  have hmatcher : late.buildMatcher lateLiterals 8 = .ok ⟨table, 1, 8⟩ :=
    buildMatcher_eq_ok_iff.2 ⟨by decide, by decide, table, htable, rfl⟩
  refine ⟨_, build_eq_ok_iff.2 ⟨?_, ?_, ?_, ?_, _, ⟨_, hmatcher, rfl⟩, rfl, rfl⟩⟩
  · exact checkAll_eq_ok_iff.1 rfl
  · exact checkAll_eq_ok_iff.1 rfl
  · exact checkAll_eq_ok_iff.1 rfl
  · intro id hid
    cases hid

end Plan

/-- In `ab`, the action of `a` is due where `b` ends. The scan asks which groups are live before it
runs the action, and so runs the action of `b` as well. -/
theorem Occasion.exists_scanTail_ne_eager :
    ∃ engine scratch, Plan.late.build = .ok engine ∧ Scratch.fresh engine = .ok scratch
      ∧ let occasion := Plan.sampleOccasion engine .block fun reports _ id =>
          (.proceed, id :: reports)
        let pass := occasion.start ⟨.initial engine, scratch, [], []⟩
        ∃ matcher next, engine.matcher? = some matcher
          ∧ occasion.scanTail matcher pass = .ok .proceed next
          ∧ next.runs = [(5, .wrap 7), (5, .wrap 8)]
          ∧ (occasion.eager Plan.lateLiterals matcher pass.ledger).runs = [(5, .wrap 7)] := by
  obtain ⟨engine, hbuild⟩ := Plan.exists_build_late
  obtain ⟨matcher, hmatcher, hregion, hserves⟩ := Plan.exists_serves_of_build hbuild rfl
  obtain ⟨-, -, -, -, matcher?, -, -, rfl⟩ := Plan.build_eq_ok_iff.1 hbuild
  refine ⟨_, _, hbuild, rfl, ?_⟩
  intro occasion pass
  have hinput : occasion.tailInput matcher = { buffer := #[97, 98] } := by
    rw [tailInput, hregion]
    rfl
  have hagree : (occasion.tailInput matcher).HistoriesAgree := .inl List.nil_suffix
  -- The table is not known, but it reports what the naive scan does.
  have hscan : occasion.scanTail matcher pass
      = Control.andThen (Naive.scan Plan.lateLiterals { buffer := #[97, 98] } occasion.sink) (do
          let control ← occasion.runDelayed occasion.offset
          PassM.changeScratch fun scratch => .ok { scratch with delayed := [] }
          return control) { pass with caughtUpTo := occasion.dataStart } := by
    rw [← hinput, ← hserves.scan_eq hagree, scanTail, hserves.2.2]
    rfl
  have hruns : EStateM.run' (do
        let control ← occasion.scanTail matcher
        return (control, (← get).runs)) pass
      = some (.proceed, [(5, .wrap 7), (5, .wrap 8)]) := by
    simp only [EStateM.run', EStateM.run, Bind.bind, EStateM.bind, hscan]
    cbv
  have heager : (occasion.eager Plan.lateLiterals matcher pass.ledger).runs = [(5, .wrap 7)] := by
    rw [eager, hinput]
    cbv
  cases hresult : occasion.scanTail matcher pass with
  | error fault next =>
    simp only [EStateM.run', EStateM.run, Bind.bind, EStateM.bind, hresult] at hruns
    cases hruns
  | ok control next =>
    simp only [EStateM.run', EStateM.run, Bind.bind, EStateM.bind, hresult] at hruns
    obtain ⟨rfl, hmade⟩ := Prod.mk.inj (Option.some.inj hruns)
    exact ⟨matcher, next, hmatcher, hresult, hmade, heager⟩

end Multimatch
