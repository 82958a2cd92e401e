import Multimatch.Proofs.EndOfData.Around
import Multimatch.Proofs.EndOfData.Pending

/-!
# Automata in turn

Automata are asked for their final reports one after the other. For a caller that never halts, what
one of them tells depends on its states only (`Occasion.askFinal_eq`), and as dealing with one
spares the others, the states of those behind are as they were before the first
(`Occasion.gives_visitAll_inTurn`). All of them have their turn, unless one ends in a halt of its
own accord (`Visits`).
-/

namespace Multimatch

open PassM

/-- Elements have their turn in order. Each tells something and ends in a signal, and those behind
the first halt are left out. -/
inductive Visits (tells : Nat → List JournalEntry → Control → Prop) :
    List Nat → List JournalEntry → Control → Prop where
  | nil : Visits tells [] [] .proceed
  | last {queue : Nat} {queues : List Nat} {entries : List JournalEntry}
      (halts : tells queue entries .halt) : Visits tells (queue :: queues) entries .halt
  | next {queue : Nat} {queues : List Nat} {entries more : List JournalEntry} {control : Control}
      (proceeds : tells queue entries .proceed) (rest : Visits tells queues more control) :
      Visits tells (queue :: queues) (entries ++ more) control

/-- Where none ends in a halt, nobody is left out. -/
theorem Visits.eq_proceed {tells : Nat → List JournalEntry → Control → Prop} {queues : List Nat}
    {entries : List JournalEntry} {control : Control} (h : Visits tells queues entries control)
    (hproceeds : ∀ queue entries control, tells queue entries control → control = .proceed) :
    control = .proceed := by
  induction h with
  | nil => rfl
  | last halts => exact hproceeds _ _ _ halts
  | next _ _ ih => exact ih

/-- Elements whose visits do nothing may be left out. -/
theorem Control.visitAll_filter {m : Type → Type} [Monad m] [LawfulMonad m] {α : Type}
    {visit : α → m Control} {xs : List α} {p : α → Bool}
    (h : ∀ x ∈ xs, p x = false → visit x = pure .proceed) :
    visitAll visit xs = visitAll visit (xs.filter p) := by
  induction xs with
  | nil => rfl
  | cons x xs ih =>
    obtain ⟨hfirst, hrest⟩ := List.forall_mem_cons.1 h
    rw [visitAll_cons, ih hrest]
    cases hx : p x with
    | true => rw [List.filter_cons_of_pos hx, visitAll_cons]
    | false => rw [hfirst hx, andThen_proceed, List.filter_cons_of_neg (by simp [hx])]

/-! ## Automata that accept at the end -/

namespace Engine

variable {engine : Engine}

/-- There is an automaton in the queue, and it accepts at the end. -/
def accepts (engine : Engine) (queue : Nat) : Bool :=
  engine.slots[queue]?.any (·.automaton.acceptsEnd)

/-- The queues in a set whose automata accept at the end, in ascending order. -/
def acceptors (engine : Engine) (set : FlagSet) : List Nat :=
  (List.range engine.slots.length).filter fun queue =>
    set.isOn queue && engine.accepts queue

theorem accepts_eq {queue : Nat} {slot : Slot} (hslot : engine.slots[queue]? = some slot) :
    engine.accepts queue = slot.automaton.acceptsEnd := by
  rw [accepts, hslot]
  rfl

theorem exists_slot_of_accepts {queue : Nat} (h : engine.accepts queue = true) :
    ∃ slot, engine.slots[queue]? = some slot ∧ slot.automaton.acceptsEnd = true :=
  (Option.any_eq_true ..).1 h

/-- A walk over a set may leave out what does not accept at the end. -/
theorem visitAll_toList {m : Type → Type} [Monad m] [LawfulMonad m] {visit : Nat → m Control}
    {set : FlagSet} (hcapacity : set.capacity = engine.slots.length)
    (h : ∀ {queue slot}, engine.slots[queue]? = some slot → engine.accepts queue = false →
      visit queue = pure .proceed) :
    Control.visitAll visit set.toList = Control.visitAll visit (engine.acceptors set) := by
  have hskip : ∀ queue ∈ set.toList, engine.accepts queue = false →
      visit queue = pure .proceed := by
    intro queue hqueue
    have hlt : queue < engine.slots.length :=
      hcapacity ▸ FlagSet.lt_capacity_of_isOn (FlagSet.mem_toList_iff.1 hqueue)
    exact h (List.getElem?_eq_getElem hlt)
  rw [Control.visitAll_filter hskip, FlagSet.toList, List.filter_filter, hcapacity]
  simp only [acceptors, Bool.and_comm]

end Engine

/-! ## States that are written over -/

theorem Bytes.extract_refill {bytes new : Bytes} {start stop : Nat} (hsize : stop ≤ bytes.size) :
    (Bytes.refill bytes start stop new).extract start stop
      = Bytes.refill (bytes.extract start stop) 0 (stop - start) new := by
  refine Array.ext_getElem? fun index => ?_
  rw [Array.getElem?_extract, Bytes.size_refill, Nat.min_eq_left hsize]
  split
  · next hlt =>
    rw [getElem?_refill_inside hsize (Nat.le_add_right ..) (by omega), Nat.add_sub_cancel_left]
  · next hge =>
    rw [Array.getElem?_eq_none]
    rw [Bytes.size_refill, Array.size_extract, Nat.min_eq_left hsize]
    omega

/-- What was made of the full state of an automaton is written over it. -/
theorem Scratch.fullOf_of_setFull {engine : Engine} {scratch next : Scratch} {queue : Nat}
    {old made : Bytes} (hold : scratch.fullOf engine queue = .ok old)
    (run : scratch.setFull engine queue made = .ok next) :
    next.fullOf engine queue = old.overwritten (.ok made) := by
  obtain ⟨slot, hslot, run⟩ := Except.bind_eq_ok_iff.1 run
  obtain ⟨_, -, run⟩ := Except.bind_eq_ok_iff.1 run
  cases run
  obtain ⟨_, hslot', hold⟩ := Except.bind_eq_ok_iff.1 hold
  cases hslot.symm.trans hslot'
  have hbounds : slot.fullStart ≤ slot.fullStop ∧ slot.fullStop ≤ scratch.full.size := by
    unfold Bytes.slice at hold
    split at hold
    · next h => exact h
    · cases hold
  obtain ⟨hordered, hinside⟩ := hbounds
  have hinside' : slot.fullStop
      ≤ (Bytes.refill scratch.full slot.fullStart slot.fullStop made).size :=
    (Bytes.size_refill ..).symm ▸ hinside
  rw [Bytes.slice_eq_ok hordered hinside] at hold
  cases hold
  rw [fullOf, hslot]
  refine (Bytes.slice_eq_ok hordered hinside').trans ?_
  rw [Bytes.extract_refill hinside, Bytes.overwritten, Array.size_extract,
    Nat.min_eq_left hinside]
  rfl

section Written

variable {engine : Engine} (hsound : engine.IsSound) {queue : Nat} {slot : Slot}
  (hslot : engine.slots[queue]? = some slot)
include hsound hslot

/-- What is made of the full state of an automaton can be written over it, and be read back. -/
theorem Scratch.Fits.exists_written {scratch : Scratch} (h : scratch.Fits engine) {old : Bytes}
    (hold : scratch.fullOf engine queue = .ok old) (made : Bytes) :
    ∃ next full, scratch.setFull engine queue made = .ok next ∧ next.Fits engine
      ∧ next.fullOf engine queue = .ok full ∧ full.size = slot.automaton.fullLength
      ∧ old.overwritten (.ok made) = .ok full := by
  obtain ⟨next, hset, hfits, -⟩ := h.setFull_eq_ok hsound hslot made
  obtain ⟨full, hfull, hsize⟩ := hfits.fullOf_eq_ok hsound hslot
  exact ⟨next, full, hset, hfits, hfull, hsize, (fullOf_of_setFull hold hset).symm.trans hfull⟩

/-- Streams with the same short states have the same one for an automaton. -/
theorem StreamState.Fits.exists_short {state other : StreamState} (h : state.Fits engine)
    (hstored : state.stored = other.stored) :
    ∃ short, state.storedOf engine queue = .ok short ∧ other.storedOf engine queue = .ok short
      ∧ short.size = slot.automaton.streamLength := by
  obtain ⟨short, hshort, hsize⟩ := h.storedOf_eq_ok hsound hslot
  exact ⟨short, hshort, (storedOf_congr hstored engine queue).symm.trans hshort, hsize⟩

end Written

/-! ## Steps that deal with no automaton -/

/-- Between two passes no automaton was switched on or off, nor did its states or what waits for it
change. -/
structure Pass.SameAutomata {σ : Type} (pass next : Pass σ) : Prop where
  leaves : next.stream.leaves = pass.stream.leaves
  stored : next.stream.stored = pass.stream.stored
  full : next.scratch.full = pass.scratch.full
  queues : next.scratch.queues = pass.scratch.queues
  triggered : next.scratch.triggered = pass.scratch.triggered

namespace Occasion

variable {σ : Type} {occasion : Occasion σ}

instance : IsPreorder (Pass σ) Pass.SameAutomata where
  refl _ := ⟨rfl, rfl, rfl, rfl, rfl⟩
  trans _ _ _ h h' :=
    ⟨h'.leaves.trans h.leaves, h'.stored.trans h.stored, h'.full.trans h.full,
      h'.queues.trans h.queues, h'.triggered.trans h.triggered⟩

theorem sameAutomata_note (entry : JournalEntry) :
    Keeps Pass.SameAutomata (note entry : PassM σ Unit) :=
  keeps_note fun _ => ⟨rfl, rfl, rfl, rfl, rfl⟩

theorem sameAutomata_changeRoles (change : FlagSet → Except Fault FlagSet) :
    Keeps Pass.SameAutomata (changeRoles change : PassM σ Unit) :=
  keeps_changeRoles fun _ _ _ => ⟨rfl, rfl, rfl, rfl, rfl⟩

theorem sameAutomata_report (offset : Nat) (id : ReportId) :
    Keeps Pass.SameAutomata (occasion.report offset id) := by
  intro pass answer next hrun
  cases hhalted : pass.halted with
  | true =>
    rw [report_of_halted hhalted] at hrun
    cases hrun
    exact refl_of Pass.SameAutomata pass
  | false =>
    rw [report_of_running hhalted] at hrun
    cases hrun
    exact ⟨rfl, rfl, rfl, rfl, rfl⟩

theorem sameAutomata_switchAllOn (ids : List RoleId) :
    Keeps Pass.SameAutomata (occasion.switchAllOn ids) := by
  induction ids with
  | nil => exact keeps_pure ()
  | cons id ids ih =>
    refine Keeps.bind (Keeps.lift_bind fun role _ => ?_) fun _ => ih
    cases role.state? with
    | none => exact keeps_pure ()
    | some state => exact sameAutomata_changeRoles _

theorem sameAutomata_switchAllOff (states : List Nat) :
    Keeps Pass.SameAutomata (switchAllOff states : PassM σ Unit) := by
  induction states with
  | nil => exact keeps_pure ()
  | cons state states ih => exact (sameAutomata_changeRoles _).bind fun _ => ih

theorem sameAutomata_dropLastByteRoles (offset : Nat) :
    Keeps Pass.SameAutomata (occasion.dropLastByteRoles offset) :=
  Keeps.get_bind fun _ => Keeps.ite (sameAutomata_switchAllOff _) (keeps_pure ())

theorem sameAutomata_catchUp (upTo : Nat) :
    Keeps Pass.SameAutomata (occasion.catchUp upTo) := by
  have hmove : Keeps Pass.SameAutomata
      (modify fun pass : Pass σ => { pass with caughtUpTo := max pass.caughtUpTo upTo }) :=
    keeps_modify fun _ => ⟨rfl, rfl, rfl, rfl, rfl⟩
  have hpull (window : Bytes) : Keeps Pass.SameAutomata (occasion.pullTriggers window) :=
    Keeps.get_bind fun _ => Keeps.lift_bind fun _ _ => sameAutomata_switchAllOn _
  exact Keeps.get_bind fun _ => Keeps.ite ((hpull _).bind fun _ => hmove) hmove

theorem sameAutomata_visitEntry (entry : WalkEntry) :
    Keeps Pass.SameAutomata (occasion.visitEntry entry) := by
  refine Keeps.get_bind fun _ => Keeps.ite (keeps_pure _) (Keeps.lift_bind fun role _ => ?_)
  have hfire : Keeps Pass.SameAutomata (do
      let marked ← (← get).scratch.handled.insert entry.role.toNat
      PassM.changeScratch fun scratch => .ok { scratch with handled := marked.2 }
      PassM.note (.fired entry.role)
      occasion.report occasion.offset role.report) := by
    refine Keeps.get_bind fun _ => Keeps.lift_bind fun marked _ => ?_
    refine (keeps_changeScratch fun pass scratch hchange => ?_).bind fun _ => ?_
    · cases hchange
      exact ⟨rfl, rfl, rfl, rfl, rfl⟩
    · exact (sameAutomata_note _).bind fun _ => sameAutomata_report _ _
  refine Keeps.ite ?_ hfire
  exact Keeps.lift_bind fun _ _ => Keeps.ite (keeps_pure _) hfire

theorem sameAutomata_walk : Keeps Pass.SameAutomata occasion.walk := by
  refine (keeps_changeScratch fun pass scratch hclear => ?_).bind fun _ => ?_
  · cases hclear
    exact ⟨rfl, rfl, rfl, rfl, rfl⟩
  · refine Keeps.visitAll fun stop _ => Keeps.get_bind fun _ => Keeps.lift_bind fun _ _ => ?_
    exact Keeps.ite (Keeps.visitAll fun entry _ => sameAutomata_visitEntry entry) (keeps_pure _)

end Occasion

/-! ## Dialogues that nobody halts -/

namespace Dialogue

/-- What a dialogue tells if every report is answered with `proceed`. -/
def telling (queue : Nat) : Dialogue → List JournalEntry
  | .done _ | .fault _ => []
  | .ask offset id next =>
    .report offset id .proceed :: .told queue .proceed :: (next .proceed).telling queue

/-- The signal that it then ends with. -/
def verdict : Dialogue → Except Fault Control
  | .done control => .ok control
  | .fault cause => .error cause
  | .ask _ _ next => (next .proceed).verdict

variable {dialogue : Dialogue}

theorem NeverFaults.exists_verdict (h : dialogue.NeverFaults) :
    ∃ control, dialogue.verdict = .ok control := by
  induction dialogue with
  | done control => exact ⟨control, rfl⟩
  | fault fault => exact h.elim
  | ask offset id next ih => exact ih .proceed (h .proceed)

theorem HaltsOnlyIfTold.eq_proceed (h : dialogue.HaltsOnlyIfTold) {control : Control}
    (hverdict : dialogue.verdict = .ok control) : control = .proceed := by
  induction dialogue with
  | done last =>
    cases hverdict
    exact h
  | fault fault => cases hverdict
  | ask offset id next ih => exact ih .proceed h hverdict

end Dialogue

namespace Occasion

variable {σ : Type} {occasion : Occasion σ}

section Quiet

variable (hquiet : occasion.IsQuiet) {control : Control} {pass : Pass σ}
  (hrunning : pass.halted = false)
include hquiet hrunning

theorem reportAll_eq (offset : Nat) (ids : List ReportId) :
    ∃ caller, Control.visitAll (occasion.report offset) ids pass = .ok .proceed { pass with
      caller
      halted := false
      journal := (ids.map (JournalEntry.report offset · .proceed)).reverse ++ pass.journal } := by
  induction ids generalizing pass with
  | nil =>
    refine ⟨pass.caller, ?_⟩
    show EStateM.Result.ok _ pass = _
    rw [← hrunning]
    rfl
  | cons id ids ih =>
    have hreport : occasion.report offset id pass = _ := report_of_running hrunning offset id
    rw [hquiet] at hreport
    let told : Pass σ := { pass with
      caller := (occasion.callback pass.caller offset id).2
      halted := false
      journal := .report offset id .proceed :: pass.journal }
    have htold : told.halted = false := rfl
    obtain ⟨caller, hrest⟩ := ih htold
    refine ⟨caller, ?_⟩
    rw [Control.visitAll_cons, Control.andThen, bind_eq hreport]
    refine hrest.trans ?_
    simp [told]

theorem converse_eq (queue : Nat) {dialogue : Dialogue}
    (hverdict : dialogue.verdict = .ok control) :
    ∃ caller, occasion.converse queue dialogue pass = .ok control { pass with
      caller
      halted := false
      journal := (dialogue.telling queue).reverse ++ pass.journal } := by
  induction dialogue generalizing pass with
  | done last =>
    cases hverdict
    refine ⟨pass.caller, ?_⟩
    show EStateM.Result.ok _ pass = _
    rw [← hrunning]
    rfl
  | fault fault => cases hverdict
  | ask offset id next ih =>
    have hreport : occasion.report offset id pass = _ := report_of_running hrunning offset id
    rw [hquiet] at hreport
    let told : Pass σ := { pass with
      caller := (occasion.callback pass.caller offset id).2
      halted := false
      journal := .told queue .proceed :: .report offset id .proceed :: pass.journal }
    have htold : told.halted = false := rfl
    obtain ⟨caller, hrest⟩ := ih .proceed htold hverdict
    refine ⟨caller, ?_⟩
    rw [converse, bind_eq hreport]
    refine hrest.trans ?_
    simp [Dialogue.telling, told]

/-- Asking for the final reports changes the caller and tells what the dialogue does. -/
theorem askFinal_eq (queue : Nat) {slot : Slot} {full short : Bytes}
    (hverdict : (slot.automaton.finalReports full short occasion.offset).verdict = .ok control) :
    ∃ caller, occasion.askFinal queue slot full short pass = .ok control { pass with
      caller
      halted := false
      journal := ((slot.automaton.finalReports full short occasion.offset).telling queue).reverse
        ++ .asked queue full short occasion.offset :: pass.journal } := by
  let asked : Pass σ :=
    { pass with journal := .asked queue full short occasion.offset :: pass.journal }
  have hasked : asked.halted = false := hrunning
  obtain ⟨caller, hconverse⟩ := converse_eq hquiet hasked queue hverdict
  refine ⟨caller, ?_⟩
  have hnote : (note (.asked queue full short occasion.offset) : PassM σ Unit) pass
      = .ok () asked := rfl
  rw [askFinal, bind_eq hnote, bind_eq hconverse]
  rfl

end Quiet

/-! ## Turns -/

/-- An automaton that does not accept at the end loses its turn. -/
theorem skip_of_not_accepts {queue : Nat} {slot : Slot}
    (hslot : occasion.engine.slots[queue]? = some slot)
    (haccepts : occasion.engine.accepts queue = false) (turn : Slot → PassM σ Control) :
    (do
      let slot ← occasion.engine.slot queue
      if !slot.automaton.acceptsEnd then return .proceed
      turn slot : PassM σ Control) = pure .proceed := by
  rw [Engine.accepts_eq hslot] at haccepts
  have hlift : (liftM (occasion.engine.slot queue) : PassM σ Slot) = pure slot := by
    rw [Engine.slot_eq_ok hslot]
    rfl
  rw [hlift, pure_bind, haccepts]
  rfl

/-- A pass at the turn of an automaton: nobody has halted, and the stream is as given. -/
structure Stands (occasion : Occasion σ) (stream : StreamState) (pass : Pass σ) : Prop where
  running : pass.halted = false
  stream : pass.stream = stream
  scratch : pass.scratch.Fits occasion.engine

/-- What comes of a turn: something was told, and only the working space and the caller changed. -/
structure Turn (occasion : Occasion σ) (stream : StreamState)
    (tells : List JournalEntry → Control → Prop) (pass : Pass σ) (control : Control)
    (next : Pass σ) : Prop extends occasion.Stands stream next where
  told : ∃ entries, tells entries control ∧ next.journal = entries.reverse ++ pass.journal

/-- Asking for the final reports ends a turn in which some entries were told before. -/
theorem turn_askFinal (hquiet : occasion.IsQuiet) {slot : Slot} (hsafe : slot.automaton.IsSafe)
    {stream : StreamState} {pass start : Pass σ} (h : occasion.Stands stream pass) {queue : Nat}
    {full short : Bytes} (hfull : full.size = slot.automaton.fullLength)
    (hshort : short.size = slot.automaton.streamLength) (before : List JournalEntry)
    (hbefore : pass.journal = before.reverse ++ start.journal)
    {tells : List JournalEntry → Control → Prop} (htells : ∀ control,
      (slot.automaton.finalReports full short occasion.offset).verdict = .ok control →
      tells (before ++ .asked queue full short occasion.offset
        :: (slot.automaton.finalReports full short occasion.offset).telling queue) control) :
    Gives (occasion.askFinal queue slot full short) pass
      (occasion.Turn stream tells start) := by
  obtain ⟨control, hverdict⟩ :=
    (hsafe.finalReports occasion.offset hfull hshort).exists_verdict
  obtain ⟨caller, hask⟩ := askFinal_eq hquiet h.running queue hverdict
  refine (gives_iff_of_eq hask).2
    { running := rfl
      stream := h.stream
      scratch := h.scratch
      told := ⟨_, htells control hverdict, ?_⟩ }
  simp [hbefore]

section Turns

variable {stream : StreamState} {visit : Nat → PassM σ Control} {inv : Nat → Pass σ → Prop}
  {tells : Nat → List JournalEntry → Control → Prop} {queues : List Nat} {pass : Pass σ}

/-- Automata have their turn one after the other. What is known of one of them before the first turn
is known at its own turn, since turns spare other automata. -/
theorem gives_visitAll_inTurn (hinv : ∀ queue, occasion.Persists queue (inv queue) fun _ => True)
    (hspares : ∀ {queue other}, other ≠ queue → occasion.Spares queue (visit other))
    (hvisit : ∀ queue ∈ queues, ∀ pass, occasion.Stands stream pass → inv queue pass →
      Gives (visit queue) pass (occasion.Turn stream (tells queue) pass))
    (hnodup : queues.Nodup) (hstands : occasion.Stands stream pass)
    (hknown : ∀ queue ∈ queues, inv queue pass) :
    Gives (Control.visitAll visit queues) pass fun control next =>
      ∃ entries, next.journal = entries.reverse ++ pass.journal
        ∧ Visits tells queues entries control := by
  induction queues generalizing pass with
  | nil => exact gives_pure.2 ⟨[], rfl, .nil⟩
  | cons queue queues ih =>
    obtain ⟨hfresh, hnodup⟩ := List.nodup_cons.1 hnodup
    obtain ⟨hfirst, hrest⟩ := List.forall_mem_cons.1 hvisit
    obtain ⟨hqueue, hothers⟩ := List.forall_mem_cons.1 hknown
    obtain ⟨control, middle, hrun, hturn⟩ := hfirst pass hstands hqueue
    obtain ⟨entries, htells, hjournal⟩ := hturn.told
    rw [Control.visitAll_cons, Control.andThen, gives_bind, gives_iff_of_eq hrun]
    cases control with
    | halt => exact gives_pure.2 ⟨entries, hjournal, .last htells⟩
    | proceed =>
      have hknown' : ∀ other ∈ queues, inv other middle := by
        intro other hother
        have hne : queue ≠ other := fun heq => hfresh (heq ▸ hother)
        exact ((hspares hne).upholds (hinv other)).of_eq (hothers other hother) hrun
      refine (ih hrest hnodup hturn.toStands hknown').mono fun control next hnext => ?_
      obtain ⟨more, hmore, hvisits⟩ := hnext
      refine ⟨entries ++ more, ?_, .next htells hvisits⟩
      rw [hmore, hjournal, List.reverse_append, List.append_assoc]

end Turns

end Occasion

/-! ## An automaton that takes the turn of another -/

namespace Plan

/-- Literals as in the sample and two automata, both of which a `b` triggers. The first one always
ends in a halt. -/
def quittingFirst : Plan :=
  { actions := [(.wrap 7, {}), (.wrap 8, { suffixes := [.wrap 0, .wrap 1] })]
    automata := [.quitter, .latch (.wrap 4)]
    matcher? := some (sampleLiterals, 8)
    matcherOptions := sample.matcherOptions }

theorem exists_build_quittingFirst : ∃ engine, quittingFirst.build = .ok engine := by
  obtain ⟨table, htable⟩ := exists_table_sample
  have hmatcher : quittingFirst.buildMatcher sampleLiterals 8 = .ok ⟨table, 1, 8⟩ :=
    buildMatcher_eq_ok_iff.2 ⟨by decide, by decide, table, htable, rfl⟩
  refine ⟨_, build_eq_ok_iff.2 ⟨?_, ?_, ?_, nofun, _, ⟨_, hmatcher, rfl⟩, rfl, rfl⟩⟩
  · exact checkAll_eq_ok_iff.1 rfl
  · exact checkAll_eq_ok_iff.1 rfl
  · exact checkAll_eq_ok_iff.1 rfl

end Plan

end Multimatch
