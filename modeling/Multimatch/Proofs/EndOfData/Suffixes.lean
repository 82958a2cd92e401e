import Multimatch.Proofs.EndOfData.Charges

/-!
# Triggered automata at the end of the data

When the literals in the last bytes and the second walk are done, the automata that the scan has
triggered and that accept at the end have their turn in ascending order
(`Occasion.finishes_of_built`). Each is run from its prepared state over exactly what the scan has
triggered it with and the end, and is asked for its final reports if it is alive there. Nothing that
an earlier call or the action of the end has left waits for it. One that ends in a halt of its own
accord is the last (`Occasion.exists_triggered_left`).
-/

namespace Multimatch

open PassM

/-- The full state of an automaton once it is prepared. -/
def Scratch.preparedOf (scratch : Scratch) (engine : Engine) (queue : Nat) :
    Except Fault Bytes := do
  let slot ← engine.slot queue
  let old ← scratch.fullOf engine queue
  old.overwritten (slot.automaton.prepare old)

namespace Occasion

variable {σ : Type} {occasion : Occasion σ}

/-! ## The passes before -/

section Passes

variable {bounds : Bounds} {pass walked scanned settled next : Pass σ} {matcher : EndMatcher}

theorem ends_opening (hsound : occasion.IsSound bounds) (h : occasion.Ready bounds pass) :
    Gives occasion.opening pass (occasion.Ends bounds) := by
  unfold opening
  rw [gives_bind]
  refine (ready_settleFirst hsound h).mono fun _ settled hsettled => ?_
  refine (ends_runEndEvent hsound hsettled).andThen fun ran hran => ?_
  exact (ends_askAllActive hsound hran).andThen fun asked hasked => ends_walk hsound hasked

theorem SecondWalk.ready (h : occasion.SecondWalk matcher walked scanned settled .proceed next)
    (hsound : occasion.IsSound bounds) (htail : occasion.AdmitsTail bounds)
    (hmatcher : occasion.engine.matcher? = some matcher) (hwalked : occasion.Ready bounds walked) :
    occasion.Ready bounds next := by
  obtain ⟨_, forgotten, hforget, hscan⟩ := exists_of_bind h.scan
  obtain ⟨_, dropped, hdrop, hcatch⟩ := exists_of_bind h.settle
  have hforgotten := (ready_forget hwalked).of_eq hforget
  have hscanned : occasion.Ready bounds scanned :=
    (ends_scanTail hsound htail hforgotten hmatcher).of_eq hscan
  have hdropped := (ready_dropLastByteRoles hsound hscanned _).of_eq hdrop
  have hsettled := (ready_catchUp hsound hdropped _).of_eq hcatch
  exact (ends_walk hsound hsettled).of_eq h.walk

/-- Since everything that was triggered was forgotten, every automaton got the events of some runs,
and nothing else was done with it. -/
structure Recharged (occasion : Occasion σ) (made : List (Nat × LiteralId)) (walked next : Pass σ) :
    Prop where
  stored : next.stream.stored = walked.stream.stored
  charge : ∀ {queue slot}, occasion.engine.slots[queue]? = some slot →
    next.chargeOf occasion.engine queue
      = (occasion.topsAt made queue).foldl (Charge.push slot.automaton) ⟨false, false,
        walked.scratch.queue queue, walked.scratch.fullOf occasion.engine queue⟩

/-- Automata get events by the actions that the scan runs only. -/
theorem SecondWalk.exists_recharged
    (h : occasion.SecondWalk matcher walked scanned settled .proceed next)
    (hapart : occasion.engine.IsApart) (hquiet : occasion.IsQuiet)
    (hsound : occasion.engine.IsSound) (hmatcher : occasion.engine.matcher? = some matcher)
    (hwalked : walked.halted = false) :
    ∃ made, scanned.runs = walked.runs ++ made ∧ occasion.Recharged made walked next := by
  obtain ⟨_, forgotten, hforget, hscan⟩ := exists_of_bind h.scan
  obtain ⟨_, dropped, hdrop, hcatch⟩ := exists_of_bind h.settle
  have hsame : Pass.SameAutomata scanned next :=
    trans_of Pass.SameAutomata (sameAutomata_dropLastByteRoles _ hdrop)
      (trans_of Pass.SameAutomata (sameAutomata_catchUp _ hcatch) (sameAutomata_walk h.walk))
  rw [forget_eq] at hforget
  cases hforget
  obtain ⟨made, hruns, hcharged⟩ :=
    (charged_scanTail hapart hquiet hsound hmatcher hscan).exists_made hwalked
  refine ⟨made, hruns, hsame.stored.trans hcharged.stored, fun {queue _} hslot => ?_⟩
  rw [hsame.chargeOf_eq, hcharged.charge hslot]
  refine congrArg (List.foldl _ · _) ?_
  exact congrArg₂ (Charge.mk · · _ _) (FlagSet.isOn_clear _ queue)
    (FlagSet.isOn_clear _ queue)

end Passes

/-! ## Events in order -/

/-- The events that an automaton is run over: those that some runs have for it, and the end. -/
def eventsFor (occasion : Occasion σ) (made : List (Nat × LiteralId)) (queue : Nat) :
    List QueueEvent :=
  occasion.topsAt made queue ++ [⟨.finish, .ofNat occasion.bufferLength⟩]

/-- The automata that some runs trigger and that accept at the end, in ascending order. -/
def triggeredBy (occasion : Occasion σ) (made : List (Nat × LiteralId)) : List Nat :=
  (List.range occasion.engine.slots.length).filter fun queue =>
    !(occasion.topsAt made queue).isEmpty && occasion.engine.accepts queue

theorem location_of_mem_topsAt {run : Nat × LiteralId} {queue : Nat} {event : QueueEvent}
    (h : event ∈ occasion.topsAt [run] queue) :
    event.location = occasion.locate run.1 := by
  cases haction : occasion.actionOf run with
  | none =>
    rw [topsAt_of_idle haction] at h
    cases h
  | some action =>
    rw [topsAt_of_acts haction] at h
    obtain ⟨_, -, rfl⟩ := List.mem_map.1 h
    rfl

/-- If runs lie in the data and none is after a later one, no event is after a later one. -/
theorem pairwise_eventsFor (hsize : occasion.data.size ≤ occasion.offset)
    (hlength : occasion.data.size < 2 ^ 63) {made : List (Nat × LiteralId)}
    (hsorted : made.Pairwise fun run later => run.1 ≤ later.1)
    (hinside : ∀ run ∈ made, occasion.dataStart ≤ run.1 ∧ run.1 ≤ occasion.offset) (queue : Nat) :
    (occasion.eventsFor made queue).Pairwise fun event later =>
      event.location ≤ later.location := by
  have hparts : occasion.topsAt made queue
      = made.flatMap fun run => occasion.topsAt [run] queue := by
    simp [topsAt]
  have hplace {run : Nat × LiteralId} (hrun : run ∈ made) :
      (occasion.locate run.1).toInt = run.1 - occasion.bufferStart :=
    toInt_locate_of_mem hsize hlength (hinside run hrun).1 (hinside run hrun).2
  rw [eventsFor, hparts]
  refine List.pairwise_append.2 ⟨List.pairwise_flatMap.2 ⟨fun run _ => ?_, ?_⟩,
    List.pairwise_singleton .., fun event hevent later hlater => ?_⟩
  · refine List.pairwise_of_forall_mem_list fun event hevent later hlater => ?_
    rw [location_of_mem_topsAt hevent, location_of_mem_topsAt hlater]
    exact Int64.le_refl _
  · refine hsorted.imp_of_mem fun {run next} hrun hnext hle event hevent later hlater => ?_
    rw [location_of_mem_topsAt hevent, location_of_mem_topsAt hlater, Int64.le_iff_toInt_le,
      hplace hrun, hplace hnext]
    omega
  · obtain ⟨run, hrun, hevent⟩ := List.mem_flatMap.1 hevent
    have hlast := (hinside run hrun).2
    have hshort := occasion.bufferLength_le
    rw [location_of_mem_topsAt hevent, List.mem_singleton.1 hlater, Int64.le_iff_toInt_le,
      hplace hrun, Int64.toInt_ofNat_of_lt (Nat.lt_of_le_of_lt hshort hlength), bufferStart]
    omega

/-- What a scan runs is in order, and in the data. -/
theorem Suits.inOrder_scan {plan : Plan} {session : Session σ}
    (hsuits : occasion.Suits plan session) (hquiet : occasion.IsQuiet) (hwrap : occasion.NoWrap)
    {matcher : EndMatcher} (hmatcher : occasion.engine.matcher? = some matcher)
    {walked scanned : Pass σ} (hsteady : occasion.Steady walked)
    (hscan : (do
      occasion.forget
      occasion.scanTail matcher) walked = .ok .proceed scanned)
    {made : List (Nat × LiteralId)} (hruns : scanned.runs = walked.runs ++ made) :
    made.Pairwise (fun run later => run.1 ≤ later.1)
      ∧ ∀ run ∈ made, occasion.dataStart ≤ run.1 ∧ run.1 ≤ occasion.offset := by
  obtain ⟨_, forgotten, hforget, hscan⟩ := exists_of_bind hscan
  have hready : occasion.Ready (occasion.known walked.journal) walked := hsteady.ready rfl
  have hforgotten := (ready_forget hready).of_eq hforget
  have hstory := (occasion.silent_forget occasion.callback).keeps hforget
  have hsteady' := hforgotten.steady (hstory.delayed.trans hsteady.empty)
  by_cases hshort : occasion.data.size < matcher.minWidth
  · cases (scanTail_of_short hshort forgotten).symm.trans hscan
    obtain rfl := List.self_eq_append_right.1 (hstory.runs.symm.trans hruns)
    exact ⟨.nil, nofun⟩
  · obtain ⟨calls, _, ran, -, -, -, -, -, -, -, hserves, htail⟩ :=
      hsuits.exists_scanTail_of_steady hquiet hwrap hmatcher hsteady' (Nat.le_of_not_lt hshort)
    have hran := (htail.of_eq hscan).ran.runs
    rw [hstory.runs, hruns] at hran
    obtain rfl := List.append_cancel_left hran
    refine ⟨hserves.sorted.imp RunsBefore.fst_le, fun run hrun => ?_⟩
    obtain ⟨heard, hheard, hlive, rfl⟩ := hserves.only run hrun
    have honce := hserves.once heard hheard hlive
    have hpos := List.count_pos_iff.2 hrun
    refine ⟨Nat.le_trans (Nat.le_add_right ..) (Nat.le_add_right ..), ?_⟩
    by_contra hafter
    rw [honce, if_neg hafter] at hpos
    exact Nat.lt_irrefl 0 hpos

/-! ## Running a triggered automaton -/

/-- What running a triggered automaton tells if nobody halts, and the signal that it ends with. It
is run from its prepared state over the events of some runs and the end, and asked for its final
reports only if it is alive there. -/
inductive Finishes (occasion : Occasion σ) (walked : Pass σ) (made : List (Nat × LiteralId))
    (queue : Nat) : List JournalEntry → Control → Prop where
  | alive {slot : Slot} {prepared out full short : Bytes} {control : Control}
      (slot_eq : occasion.engine.slots[queue]? = some slot)
      (prepared_eq : walked.scratch.preparedOf occasion.engine queue = .ok prepared)
      (run_eq : slot.automaton.run (occasion.eventsFor made queue) prepared = .ok (out, true))
      (full_eq : prepared.overwritten (.ok out) = .ok full)
      (short_eq : walked.stream.storedOf occasion.engine queue = .ok short)
      (verdict : (slot.automaton.finalReports full short occasion.offset).verdict = .ok control) :
      Finishes occasion walked made queue
        (.executed queue (occasion.eventsFor made queue) full true
          :: .asked queue full short occasion.offset
          :: (slot.automaton.finalReports full short occasion.offset).telling queue) control
  | dead {slot : Slot} {prepared out full : Bytes}
      (slot_eq : occasion.engine.slots[queue]? = some slot)
      (prepared_eq : walked.scratch.preparedOf occasion.engine queue = .ok prepared)
      (run_eq : slot.automaton.run (occasion.eventsFor made queue) prepared = .ok (out, false))
      (full_eq : prepared.overwritten (.ok out) = .ok full) :
      Finishes occasion walked made queue
        [.executed queue (occasion.eventsFor made queue) full false] .proceed

/-- Exactly what some runs have for the automaton waits for it, and it is prepared. -/
structure Awaits (occasion : Occasion σ) (walked : Pass σ) (made : List (Nat × LiteralId))
    (queue : Nat) (pass : Pass σ) : Prop where
  events : pass.scratch.queue queue = .ok (occasion.topsAt made queue)
  full : pass.scratch.fullOf occasion.engine queue
    = walked.scratch.preparedOf occasion.engine queue

section Finish

variable {walked : Pass σ} {made : List (Nat × LiteralId)} {queue : Nat}

theorem Finishes.eq_proceed {entries : List JournalEntry} {control : Control}
    (h : occasion.Finishes walked made queue entries control)
    (honest : ∀ slot ∈ occasion.engine.slots, slot.automaton.IsHonest) : control = .proceed := by
  cases h with
  | alive slot_eq _ _ _ _ verdict =>
    exact (honest _ (List.mem_of_getElem? slot_eq) _ _ _).eq_proceed verdict
  | dead => rfl

theorem persists_awaits (walked : Pass σ) (made : List (Nat × LiteralId)) (queue : Nat) :
    occasion.Persists queue (occasion.Awaits walked made queue) fun _ => True where
  around h hawaits := ⟨h.scratch.events.trans hawaits.events, h.scratch.full.trans hawaits.full⟩
  broken _ _ := trivial

variable {slot : Slot} (hslot : occasion.engine.slots[queue]? = some slot)
include hslot

theorem turn_finishSuffix (hsound : occasion.engine.IsSound) (hsafe : slot.automaton.IsSafe)
    (hquiet : occasion.IsQuiet) {stream : StreamState} (hstream : stream.Fits occasion.engine)
    (hstored : stream.stored = walked.stream.stored)
    (haccepts : occasion.engine.accepts queue = true) {pass : Pass σ}
    (h : occasion.Stands stream pass) (hawaits : occasion.Awaits walked made queue pass) :
    Gives (occasion.finishSuffix queue) pass
      (occasion.Turn stream (occasion.Finishes walked made queue) pass) := by
  rw [Engine.accepts_eq hslot] at haccepts
  obtain ⟨pushed, hpush, hfits, -⟩ :=
    h.scratch.pushEvent_eq_ok hslot ⟨.finish, .ofNat occasion.bufferLength⟩
  obtain ⟨tops, htops, hevents⟩ := Scratch.queue_of_pushEvent hpush
  cases htops.symm.trans hawaits.events
  obtain ⟨prepared, hprepared, hsize⟩ := hfits.fullOf_eq_ok hsound hslot
  have hfull : walked.scratch.preparedOf occasion.engine queue = .ok prepared := by
    obtain ⟨queues, rfl⟩ := Scratch.exists_queues_of_pushEvent hpush
    exact hawaits.full.symm.trans hprepared
  obtain ⟨out, alive, hrun⟩ := hsafe.run (occasion.eventsFor made queue) hsize
  obtain ⟨last, full, hset, hfits', hfull', hfullSize, hwritten⟩ :=
    hfits.exists_written hsound hslot hprepared out
  obtain ⟨short, hshort, hshort', hshortSize⟩ := hstream.exists_short hsound hslot hstored
  rw [← h.stream] at hshort
  simp only [finishSuffix, gives_bind, gives_lift, gives_get, gives_ite, gives_pure,
    gives_changeScratch, gives_note]
  refine ⟨slot, Engine.slot_eq_ok hslot, fun hnot => by simp [haccepts] at hnot, fun _ =>
    ⟨pushed, hpush, prepared, hprepared, _, hevents, (out, alive), hrun, last, hset, full, hfull',
      fun hdead => ?_, fun halive => ?_⟩⟩
  · have hdead : alive = false := by simpa using hdead
    subst hdead
    exact
      { h with
        scratch := hfits'
        told := ⟨_, .dead hslot hfull hrun hwritten, rfl⟩ }
  · have halive : alive = true := by simpa using halive
    subst halive
    have hstands : occasion.Stands stream { pass with
        scratch := last
        journal := .executed queue (occasion.eventsFor made queue) full true :: pass.journal } :=
      { h with scratch := hfits' }
    exact ⟨short, hshort, turn_askFinal hquiet hsafe hstands hfullSize hshortSize
      [.executed queue (occasion.eventsFor made queue) full true] rfl
      fun control => .alive hslot hfull hrun hwritten hshort'⟩

end Finish

/-! ## All triggered automata -/

section Built

variable {walked scanned settled next : Pass σ} {matcher : EndMatcher}

/-- For an automaton without an event nothing waits that was triggered in this scan, and an
automaton with events is prepared. -/
theorem Recharged.contains_and_awaits {made : List (Nat × LiteralId)}
    (h : occasion.Recharged made walked next) {queue : Nat} {slot : Slot}
    (hslot : occasion.engine.slots[queue]? = some slot) :
    next.stream.leaves.isOn queue = !(occasion.topsAt made queue).isEmpty
      ∧ (occasion.topsAt made queue ≠ [] → occasion.Awaits walked made queue next) := by
  have hcharge := h.charge hslot
  by_cases hnone : occasion.topsAt made queue = []
  · rw [hnone] at hcharge ⊢
    exact ⟨congrArg Charge.active hcharge, fun hne => absurd rfl hne⟩
  · rw [Charge.foldl_push_of_fresh rfl hnone] at hcharge
    refine ⟨?_, fun _ => ⟨congrArg Charge.events hcharge, ?_⟩⟩
    · rw [List.isEmpty_eq_false_iff.2 hnone]
      exact congrArg Charge.active hcharge
    · rw [Scratch.preparedOf, Engine.slot_eq_ok hslot]
      exact congrArg Charge.full hcharge

/-- In ascending order, the triggered automata that accept at the end are run. -/
theorem gives_finishSuffixes (hsound : occasion.engine.IsSound) (hapart : occasion.engine.IsApart)
    (hsafe : ∀ slot ∈ occasion.engine.slots, slot.automaton.IsSafe) (hquiet : occasion.IsQuiet)
    (hrunning : next.halted = false) (hstream : next.stream.Fits occasion.engine)
    (hscratch : next.scratch.Fits occasion.engine) {made : List (Nat × LiteralId)}
    (hrecharged : occasion.Recharged made walked next) :
    Gives occasion.finishSuffixes next fun control last => ∃ entries,
      last.journal = entries.reverse ++ next.journal
        ∧ Visits (occasion.Finishes walked made) (occasion.triggeredBy made) entries control := by
  have hmembers : occasion.engine.acceptors next.stream.leaves = occasion.triggeredBy made := by
    refine List.filter_congr fun queue hqueue => ?_
    have hslot := List.getElem?_eq_getElem (List.mem_range.1 hqueue)
    rw [(hrecharged.contains_and_awaits hslot).1]
  have hskip {queue : Nat} {slot : Slot} (hslot : occasion.engine.slots[queue]? = some slot)
      (haccepts : occasion.engine.accepts queue = false) :
      occasion.finishSuffix queue = pure .proceed := skip_of_not_accepts hslot haccepts _
  rw [finishSuffixes, gives_bind, gives_get, gives_bind, gives_lift]
  refine ⟨_, hstream.leaves_sized.members_eq, ?_⟩
  rw [Engine.visitAll_toList hstream.leaves hskip, hmembers]
  have hturn {queue : Nat} (hqueue : queue ∈ occasion.triggeredBy made) :
      ∃ slot, occasion.engine.slots[queue]? = some slot ∧ occasion.engine.accepts queue = true
        ∧ occasion.topsAt made queue ≠ [] := by
    obtain ⟨htops, haccepts⟩ := Bool.and_eq_true_iff.1 (List.mem_filter.1 hqueue).2
    obtain ⟨slot, hslot, -⟩ := Engine.exists_slot_of_accepts haccepts
    exact ⟨slot, hslot, haccepts, by simpa using htops⟩
  refine gives_visitAll_inTurn (fun queue => persists_awaits walked made queue)
    (fun hne => spares_finishSuffix hne hapart) ?_ (List.nodup_range.filter _)
    ⟨hrunning, rfl, hscratch⟩ fun queue hqueue => ?_
  · intro queue hqueue pass hstands hawaits
    obtain ⟨slot, hslot, haccepts, -⟩ := hturn hqueue
    exact turn_finishSuffix hslot hsound (hsafe slot (List.mem_of_getElem? hslot)) hquiet hstream
      hrecharged.stored haccepts hstands hawaits
  · obtain ⟨slot, hslot, -, htops⟩ := hturn hqueue
    exact (hrecharged.contains_and_awaits hslot).2 htops

/-- Where the second walk has come to its end, the automata that the scan of the last bytes has
triggered and that accept at the end are run in ascending order, and no others. Each is run from its
prepared state over one event for every time that an action that the scan ran lists it, at the place
of the run, and over the end; these are in the order of their places. It is asked for its final
reports if and only if it is alive then. The first that ends in a halt of its own accord is the
last, if there is one. A pass comes this far if its offset is not past the last that counts, and
automata halt only if told. -/
theorem finishes_of_built {plan : Plan} (hbuild : plan.build = .ok occasion.engine)
    (hmatcher : occasion.engine.matcher? = some matcher) (hquiet : occasion.IsQuiet)
    (hsafe : ∀ automaton ∈ plan.automata, automaton.IsSafe)
    (hsize : occasion.data.size ≤ occasion.offset) {session : Session σ}
    (hsuited : session.Suited occasion.engine) :
    (∀ walked scanned settled next,
      occasion.opening (occasion.start session) = .ok .proceed walked →
      occasion.SecondWalk matcher walked scanned settled .proceed next →
      ∃ made control last entries, scanned.runs = walked.runs ++ made
        ∧ occasion.finishSuffixes next = .ok control last
        ∧ last.journal = entries.reverse ++ next.journal
        ∧ Visits (occasion.Finishes walked made) (occasion.triggeredBy made) entries control
        ∧ (occasion.NoWrap → occasion.data.size < 2 ^ 63 →
          (∀ run ∈ made, (occasion.locate run.1).toInt = run.1 - occasion.bufferStart)
          ∧ ∀ queue, (occasion.eventsFor made queue).Pairwise
            fun event later => event.location ≤ later.location)
        ∧ ((∀ automaton ∈ plan.automata, automaton.IsHonest) → control = .proceed))
    ∧ ((∀ automaton ∈ plan.automata, automaton.IsHonest) →
      (∀ width, occasion.engine.maxWidth? = some width → occasion.offset ≤ width) →
      ∃ walked scanned settled next last,
        occasion.opening (occasion.start session) = .ok .proceed walked
        ∧ occasion.SecondWalk matcher walked scanned settled .proceed next
        ∧ occasion.finishSuffixes next = .ok .proceed last
        ∧ occasion.perform session = .ok .proceed last.toSession) := by
  have hsuits := suits_of_suited hbuild hsafe hsize hsuited
  have hapart := Plan.isApart_of_build hbuild
  have hsound := hsuits.isSound_anywhere session.journal
  have hslot {slot : Slot} (hslot : slot ∈ occasion.engine.slots) :
      slot.automaton ∈ plan.automata := Plan.automaton_mem_of_build hbuild hslot
  refine ⟨fun walked scanned settled next hopening hsecond => ?_, fun honest hwidth => ?_⟩
  · have hstart : occasion.Ready (anywhere session.journal) (occasion.start session) :=
      ready_start hsuits.stream hsuits.scratch rfl
    have hwalked : occasion.Ready _ walked := (ends_opening hsound hstart).of_eq hopening
    have hnext := hsecond.ready hsound (occasion.admitsTail_anywhere _) hmatcher hwalked
    obtain ⟨made, hruns, hrecharged⟩ := hsecond.exists_recharged hapart hquiet hsound.engine
      hmatcher hwalked.running
    obtain ⟨control, last, hfinish, entries, hjournal, hvisits⟩ :=
      gives_finishSuffixes hsound.engine hapart (fun slot hmem => hsafe _ (hslot hmem)) hquiet
        hnext.running hnext.stream hnext.scratch hrecharged
    refine ⟨made, control, last, entries, hruns, hfinish, hjournal, hvisits, ?_, ?_⟩
    · intro hwrap hlength
      have hempty : walked.scratch.delayed = [] := delayed_opening hopening
      obtain ⟨hsorted, hinside⟩ := hsuits.inOrder_scan hquiet hwrap hmatcher
        (hwalked.steady hempty) hsecond.scan hruns
      refine ⟨fun run hrun => ?_, pairwise_eventsFor hsize hlength hsorted hinside⟩
      exact toInt_locate_of_mem hsize hlength (hinside run hrun).1 (hinside run hrun).2
    · intro honest
      refine hvisits.eq_proceed fun queue entries control htells => ?_
      exact htells.eq_proceed fun slot hmem => honest _ (hslot hmem)
  · have hautomata (automaton : Automaton) (hautomaton : automaton ∈ plan.automata) :
        automaton.IsSafe ∧ automaton.IsHonest :=
      ⟨hsafe automaton hautomaton, honest automaton hautomaton⟩
    exact exists_whole_pass hbuild hmatcher hquiet hwidth hsize hautomata hsuited

end Built

section Sample

variable {matcher : EndMatcher} {scratch : Scratch}
  (hfresh : Scratch.fresh (Plan.sample.engineWith (some matcher)) = .ok scratch)
include hfresh

/-- When the first walk in the sample has come to its end, the `b` was run as it ends the data. -/
theorem opening_sample :
    let occasion := Plan.sampleOccasion (Plan.sample.engineWith (some matcher)) .streaming
      fun reports _ id => (.proceed, id :: reports)
    let session : Session (List ReportId) := ⟨.initial occasion.engine, scratch, [], []⟩
    (after (occasion.opening (occasion.start session))).runs = [(5, .wrap 8)]
      ∧ (after (occasion.opening (occasion.start session))).scratch.preparedOf occasion.engine 0
        = .ok #[0]
      ∧ (after (occasion.opening (occasion.start session))).stream.storedOf occasion.engine 0
        = .ok #[0] := by
  cases hfresh
  refine ⟨?_, ?_, ?_⟩
  · cbv
  · cbv
  · cbv

/-- The scan in the sample runs the `a`, which has waited, and then the `b`. -/
theorem runs_scan_sample (hregion : matcher.region = 8)
    (hserves : (Plan.sample.engineWith (some matcher)).Serves matcher Plan.sampleLiterals) :
    let occasion := Plan.sampleOccasion (Plan.sample.engineWith (some matcher)) .streaming
      fun reports _ id => (.proceed, id :: reports)
    let session : Session (List ReportId) := ⟨.initial occasion.engine, scratch, [], []⟩
    (after ((do
      occasion.forget
      occasion.scanTail matcher) (after (occasion.opening (occasion.start session))))).runs
        = [(5, .wrap 8)] ++ [(5, .wrap 7), (5, .wrap 8)] := by
  cases hfresh
  intro occasion session
  have hinput : occasion.tailInput matcher = { buffer := #[97, 98] } := by
    rw [tailInput, hregion]
    rfl
  rw [scanTail_eq_naive hserves, hserves.2.2, hinput]
  cbv

end Sample

/-- In the sample a `b` triggers the automaton, once as it ends the data and once where the scan
finds it. The automaton is run over the latter only, and the end. -/
theorem finishes_of_built_triggered_twice :
    ∃ engine scratch matcher, Plan.sample.build = .ok engine ∧ Scratch.fresh engine = .ok scratch
      ∧ engine.matcher? = some matcher
      ∧ let occasion := Plan.sampleOccasion engine .streaming fun reports _ id =>
          (.proceed, id :: reports)
        let session : Session (List ReportId) := ⟨.initial engine, scratch, [], []⟩
        ∃ walked scanned settled next last,
          occasion.opening (occasion.start session) = .ok .proceed walked
            ∧ occasion.SecondWalk matcher walked scanned settled .proceed next
            ∧ walked.runs = [(5, .wrap 8)]
            ∧ scanned.runs = walked.runs ++ [(5, .wrap 7), (5, .wrap 8)]
            ∧ occasion.finishSuffixes next = .ok .proceed last
            ∧ last.journal = [.told 0 .proceed, .report 5 (.wrap 4) .proceed,
              .asked 0 #[1] #[0] 5, .executed 0 [⟨.top, 0⟩, ⟨.finish, 0⟩] #[1] true]
              ++ next.journal := by
  obtain ⟨engine, hbuild⟩ := Plan.exists_build_sample
  obtain ⟨matcher, hmatcher, hregion, hserves⟩ := Plan.exists_serves_of_build hbuild rfl
  obtain ⟨-, -, -, -, matcher?, -, -, rfl⟩ := Plan.build_eq_ok_iff.1 hbuild
  obtain rfl := hmatcher
  refine ⟨_, _, matcher, hbuild, rfl, rfl, ?_⟩
  intro occasion session
  have hwidth (width : Nat) (hmax : occasion.engine.maxWidth? = some width) :
      occasion.offset ≤ width := by cases hmax
  have hquiet : occasion.IsQuiet := fun _ _ _ => rfl
  have hsize : occasion.data.size ≤ occasion.offset := show 2 ≤ 5 by decide
  have hsafe (automaton : Automaton) (hautomaton : automaton ∈ Plan.sample.automata) :
      automaton.IsSafe := (Plan.isSafe_and_isHonest_sample _ hautomaton).1
  have honest (automaton : Automaton) (hautomaton : automaton ∈ Plan.sample.automata) :
      automaton.IsHonest := (Plan.isSafe_and_isHonest_sample _ hautomaton).2
  obtain ⟨hfinishes, hruns⟩ := @finishes_of_built _ occasion _ _ hbuild rfl hquiet hsafe hsize
    session (Session.suited_initial hbuild (by decide) rfl)
  obtain ⟨walked, scanned, settled, next, -, hopening, hsecond, -⟩ := hruns honest hwidth
  obtain ⟨made, control, last, entries, hmade, hfinish, hjournal, hvisits, horder, hproceeds⟩ :=
    hfinishes walked scanned settled next hopening hsecond
  obtain rfl := hproceeds honest
  obtain rfl : walked = after (occasion.opening (occasion.start session)) := by
    rw [hopening]
    rfl
  obtain ⟨hbefore, hprepared, hstored⟩ := @opening_sample matcher _ rfl
  have hafter : (after ((do
      occasion.forget
      occasion.scanTail matcher) (after (occasion.opening (occasion.start session))))).runs
      = [(5, .wrap 8)] ++ [(5, .wrap 7), (5, .wrap 8)] :=
    @runs_scan_sample matcher _ rfl hregion hserves
  rw [hsecond.scan] at hafter
  obtain rfl : made = [(5, .wrap 7), (5, .wrap 8)] :=
    List.append_cancel_left ((hbefore ▸ hmade).symm.trans hafter)
  have hevents : occasion.eventsFor [(5, .wrap 7), (5, .wrap 8)] 0
      = [⟨.top, 0⟩, ⟨.finish, 0⟩] := by cbv
  have htriggered : occasion.triggeredBy [(5, .wrap 7), (5, .wrap 8)] = [0] := by cbv
  refine ⟨_, scanned, settled, next, last, hopening, hsecond, hbefore, hmade, hfinish,
    hjournal.trans ?_⟩
  rw [htriggered] at hvisits
  cases hvisits with
  | next proceeds rest =>
    cases rest
    cases proceeds with
    | alive slot_eq prepared_eq run_eq full_eq short_eq _ =>
      cases slot_eq
      cases hstored.symm.trans short_eq
      cases hprepared.symm.trans prepared_eq
      rw [hevents] at run_eq
      cases run_eq
      cases full_eq
      rw [hevents]
      rfl
    | dead slot_eq prepared_eq run_eq =>
      cases slot_eq
      cases run_eq

/-- Both automata are triggered by the `b`, but the second is not run, since the first ends in a
halt. -/
theorem exists_triggered_left :
    ∃ engine scratch, Plan.quittingFirst.build = .ok engine ∧ Scratch.fresh engine = .ok scratch
      ∧ let occasion : Occasion (List ReportId) :=
          { engine, mode := .block, data := #[98], offset := 1,
            callback := fun reports _ id => (.proceed, id :: reports) }
        let session : Session (List ReportId) := ⟨.initial engine, scratch, [], []⟩
        engine.accepts 0 = true ∧ engine.accepts 1 = true
        ∧ (let ended := Outcome.of (occasion.perform session)
          ended.answer = .ok .halt
            ∧ ended.journal = [.asked 0 #[] #[] 1,
              .executed 0 [⟨.top, 1⟩, ⟨.finish, 1⟩] #[] true,
              .triggered 1 1, .prepared 1 #[0], .triggered 0 1, .prepared 0 #[],
              .acted 1 (.wrap 8)]) := by
  obtain ⟨engine, hbuild⟩ := Plan.exists_build_quittingFirst
  obtain ⟨matcher, hmatcher, hregion, hserves⟩ := Plan.exists_serves_of_build hbuild rfl
  obtain ⟨-, -, -, -, matcher?, -, -, rfl⟩ := Plan.build_eq_ok_iff.1 hbuild
  refine ⟨_, _, hbuild, rfl, ?_⟩
  intro occasion session
  have hinput : occasion.tailInput matcher = { buffer := #[98] } := by
    rw [tailInput, hregion]
    rfl
  have hidle : occasion.isIdle = false := by
    obtain rfl := hmatcher
    rfl
  have hsize : occasion.data.size ≤ occasion.offset := show 1 ≤ 1 by decide
  refine ⟨rfl, rfl, ?_⟩
  rw [perform_eq_closed hidle hsize, body_eq_opening hmatcher]
  unfold resolveTail
  rw [scanTail_eq_naive hserves, hserves.2.2, hinput]
  constructor
  · cbv
  · cbv

end Occasion

end Multimatch
