import Multimatch.Proofs.EndOfData.Keeps
import Multimatch.Proofs.EndOfData.Reuse

/-!
# One buffer, or the end of a stream

A whole buffer and a stream whose history is that buffer end alike, if no automaton is active and no
role needs the last byte (`Occasion.sameEnd_of_built`). Events are counted from the start of the
buffer in the one case and from its end in the other, so that their places differ by its length.
-/

namespace Multimatch

open PassM

variable {σ : Type}

/-- Two results have the same answer, stream and caller after the same calls, and what is in the
journal is the same up to the place that events are counted from. -/
structure SameEnd (distance : Int64) (before : List JournalEntry)
    (buffered streamed : EStateM.Result Fault (Session σ) Control) : Prop where
  answer : (Outcome.of buffered).answer = (Outcome.of streamed).answer
  stream : (Outcome.of buffered).stream = (Outcome.of streamed).stream
  caller : (Outcome.of buffered).caller = (Outcome.of streamed).caller
  calls : (Session.ended buffered).answers = (Session.ended streamed).answers
  journal : ∃ entries, (Outcome.of streamed).journal = entries ++ before
    ∧ (Outcome.of buffered).journal = entries.map (·.moved distance) ++ before

/-- Where events are counted from does not change what is reported. -/
theorem Session.answers_congr {a b : Session σ} {distance : Int64}
    {entries before : List JournalEntry}
    (ha : a.journal = entries.map (·.moved distance) ++ before)
    (hb : b.journal = entries ++ before) : a.answers = b.answers := by
  have hmoved : (fun entry : JournalEntry => (entry.moved distance).answer?)
      = JournalEntry.answer? := funext (JournalEntry.answer?_moved distance)
  rw [answers, answers, ha, hb, List.reverse_append, List.reverse_append, List.filterMap_append,
    List.filterMap_append, ← List.map_reverse, List.filterMap_map]
  exact congrArg (_ ++ ·) (congrArg (List.filterMap · entries.reverse) hmoved)

theorem Automaton.ignoresStart_latch (report : ReportId) (distance : Int64) :
    (latch report).IgnoresStart distance := by
  intro events full
  have hkind : ∀ event : QueueEvent, (event.moved distance).kind = event.kind := fun _ => rfl
  simp only [latch, List.any_map, Function.comp_def, hkind]

/-- The action of the end triggers no automaton. -/
def Engine.EndIsStill (engine : Engine) : Prop :=
  ∀ id action, engine.endEvent? = some id → engine.actions.find? id = some action →
    action.suffixes = []

namespace PassM

variable {α : Type}

/-- What the steps leave alone, besides what they lead to. -/
theorem Agree.and_keeps {E R S T : Pass σ → Pass σ → Prop} {a b : PassM σ α} {p q : Pass σ}
    (h : Agree E R (a p) (b q)) (ha : Keeps S a) (hb : Keeps T b) :
    Agree E (fun p' q' => R p' q' ∧ S p p' ∧ T q q') (a p) (b q) := by
  generalize hfirst : a p = first at h
  generalize hsecond : b q = second at h
  cases h with
  | ok hnext => exact .ok ⟨hnext, ha hfirst, hb hsecond⟩
  | error hstopped => exact .error hstopped

theorem andThen_eq {first second : PassM σ Control} {pass middle : Pass σ}
    (h : first pass = .ok .proceed middle) :
    Control.andThen first second pass = second middle := bind_eq h

end PassM

namespace Occasion

variable {occasion : Occasion σ}

/-! ## What does not depend on the mode -/

/-- An action that triggers no automaton leaves alone which ones are active. -/
theorem leaves_runEndEvent (hstill : occasion.engine.EndIsStill) :
    Keeps (fun pass next => next.stream.leaves = pass.stream.leaves) occasion.runEndEvent := by
  have hkeeps : Keeps (Pass.Lights (fun _ => True) True) occasion.runEndEvent := by
    unfold runEndEvent
    cases hevent : occasion.engine.endEvent? with
    | none => exact keeps_pure _
    | some id =>
      simp only [runOrDelay, runAction]
      cases hfind : occasion.engine.actions.find? id with
      | none => exact keeps_pure _
      | some action =>
        have hnone := hstill id action hevent hfind
        refine Keeps.get_bind fun _ => Keeps.ite (keeps_pure _) (Keeps.ite ?_ ?_)
        · refine (lights_changeScratch fun scratch next h => ?_).bind fun _ => keeps_pure _
          cases h
          rfl
        · refine (keeps_note Pass.lights_note).bind fun _ => Keeps.ite (keeps_pure _) ?_
          refine (lights_reports_settle _ action).mono fun _ _ h => ?_
          exact { h with
            roles := fun flag hflag => (h.roles flag hflag).imp_right fun _ => trivial
            leaves := fun _ => h.leaves hnone }
  exact hkeeps.mono fun _ _ h => h.leaves trivial

/-- Where no automaton is active, none is asked. -/
theorem askAllActive_of_none {pass : Pass σ} {active : List Nat}
    (hactive : pass.stream.leaves.members = .ok active)
    (hnone : ∀ queue, pass.stream.leaves.isOn queue = false) :
    occasion.askAllActive pass = .ok .proceed pass := by
  rw [FlagSet.eq_toList_of_members hactive, FlagSet.toList_eq_nil hnone] at hactive
  exact bind_eq (lift_eq hactive)

theorem agree_askAllActive_of_none (mode : Mode) {link : Link} {stage : Stage} {p q : Pass σ}
    (htwins : Pass.Twins occasion.engine link stage p q)
    (hsame : q.stream.leaves = p.stream.leaves)
    (hnone : ∀ queue, p.stream.leaves.isOn queue = false) :
    Agree (Pass.Stopped occasion.engine link) (Pass.Twins occasion.engine link stage)
      (occasion.askAllActive p) ((occasion.inMode mode).askAllActive q) := by
  cases hactive : p.stream.leaves.members with
  | error fault =>
    have hleft : occasion.askAllActive p = .error fault p :=
      (bind_eq rfl).trans (bind_eq_error (lift_eq_error hactive))
    have hright : (occasion.inMode mode).askAllActive q = .error fault q :=
      (bind_eq rfl).trans (bind_eq_error (lift_eq_error (hsame ▸ hactive)))
    rw [hleft, hright]
    exact .error htwins.stopped
  | ok active =>
    have hright : (occasion.inMode mode).askAllActive q = .ok .proceed q :=
      askAllActive_of_none (hsame ▸ hactive) (hsame ▸ hnone)
    rw [askAllActive_of_none hactive hnone, hright]
    exact .ok htwins

/-- Without roles that need the last byte, settling a buffer only moves the end of the last
literal. -/
theorem settleBuffer_eq (hlast : occasion.engine.lastByteStates = [])
    (hcatches : occasion.engine.catchesUpTriggers = false) (pass : Pass σ) :
    occasion.settleBuffer pass = .ok () { pass with lastEnd := occasion.offset } := by
  have hdrop : occasion.dropLastByteRoles occasion.offset pass = .ok () pass := by
    rw [dropLastByteRoles, hlast]
    exact congrFun (ite_self (pure () : PassM σ Unit)) pass
  refine (bind_eq hdrop).trans ?_
  rw [hcatches]
  rfl

/-! ## Side by side -/

/-- Two passes over the same states, in a buffer and after it. -/
def modeLink (occasion : Occasion σ) (journal : List JournalEntry) : Link where
  same := True
  whole := True
  distance := .ofNat occasion.data.size
  first := journal
  second := journal

variable {journal : List JournalEntry} {session : Session σ}

theorem compares_streaming (hsound : occasion.engine.IsSound) (hmode : occasion.mode = .block)
    (hsize : occasion.data.size ≤ occasion.offset)
    (hrun : ∀ slot ∈ occasion.engine.slots, slot.automaton.IgnoresStart (.ofNat occasion.data.size)) :
    occasion.Compares .streaming (occasion.modeLink journal) := by
  have hblock : occasion.bufferLength = occasion.data.size := by
    unfold bufferLength
    rw [hmode]
  have hstream : (occasion.inMode .streaming).bufferLength = 0 := rfl
  refine
    { engine := hsound
      start := ?_
      length := ?_
      calls := .inl trivial
      prepares := .inl trivial
      run := hrun }
  · rw [bufferStart, bufferStart, hblock, hstream]
    show Int64.ofNat (occasion.offset - occasion.data.size) + .ofNat occasion.data.size = _
    rw [← Int64.ofNat_add, Nat.sub_add_cancel hsize]
    rfl
  · rw [hblock, hstream]
    exact (Int64.zero_add _).symm

/-- A buffer whose last literal is taken to end at its end is the twin of a stream. -/
theorem twins_modes (hsuited : session.scratch.Suited occasion.engine) :
    Pass.Twins occasion.engine (occasion.modeLink session.journal) Stage.last
      { occasion.start session with lastEnd := occasion.offset }
      ((occasion.inMode .streaming).start session) where
  same _ := ⟨rfl, rfl⟩
  journal := ⟨[], rfl, rfl⟩
  roles := .refl _
  leaves := .refl _
  near _ := ⟨rfl, rfl⟩
  stored := rfl
  halted := rfl
  groups := rfl
  lastEnd := rfl
  caughtUpTo := False.elim
  scratch := twins_start hsuited hsuited (fun _ => rfl) _
  heard := False.elim
  marked := False.elim
  triggered _ := False.elim

theorem agree_modes (hcompares : occasion.Compares .streaming (occasion.modeLink session.journal))
    (hmode : occasion.mode = .block) (hlast : occasion.engine.lastByteStates = [])
    (hcatches : occasion.engine.catchesUpTriggers = false)
    (hnone : ∀ queue, session.stream.leaves.isOn queue = false)
    (hsuited : session.scratch.Suited occasion.engine) (hstill : occasion.engine.EndIsStill)
    (hwidth : ∀ matcher, occasion.engine.matcher? = some matcher →
      matcher.minWidth ≤ occasion.data.size) :
    Agree (Pass.Stopped occasion.engine (occasion.modeLink session.journal))
      (Pass.Twins occasion.engine (occasion.modeLink session.journal) Stage.last)
      (occasion.body (occasion.start session))
      ((occasion.inMode .streaming).body ((occasion.inMode .streaming).start session)) := by
  have hbody : occasion.body (occasion.start session)
      = occasion.resolve { occasion.start session with lastEnd := occasion.offset } := by
    rw [body, hmode]
    exact bind_eq (settleBuffer_eq hlast hcatches _)
  rw [hbody]
  have hevent := (matched_runEndEvent hcompares (twins_modes hsuited)).and_keeps
    (leaves_runEndEvent hstill) (leaves_runEndEvent hstill)
  refine hevent.bind fun control p q hends => ?_
  obtain ⟨hnext, hp, hq⟩ := hends
  cases control with
  | halt => exact .ok hnext
  | proceed =>
    have hask := agree_askAllActive_of_none .streaming hnext (hq.trans hp.symm) fun queue =>
      hp ▸ hnone queue
    refine hask.bind fun control p q hnext => ?_
    cases control with
    | halt => exact .ok hnext
    | proceed =>
      exact matched_resolveRoles hcompares trivial (fun matcher hmatcher =>
        .inr (hwidth matcher hmatcher)) hnext

theorem shown_modes {p q : Pass σ} (h : Pass.Shown (occasion.modeLink journal) p q) :
    p.stream = q.stream ∧ p.caller = q.caller ∧ p.answers = q.answers
      ∧ ∃ entries, q.journal = entries ++ journal
        ∧ p.journal = entries.map (·.moved (.ofNat occasion.data.size)) ++ journal := by
  obtain ⟨entries, hfirst, hsecond⟩ := h.journal
  exact ⟨(h.same trivial).1, (h.same trivial).2, Session.answers_congr hfirst hsecond, entries,
    hsecond, hfirst⟩

/-- A whole buffer and a stream with that buffer as its history end alike: with the same answer, the
same calls and the same stream, and with the same queues but for the place that their events are
counted from. No role may need the last byte, and triggers may not be looked for in the buffer
first; no automaton may be active or be triggered by the end itself, and the data may not be shorter
than every literal. -/
theorem sameEnd_of_built {plan : Plan} {engine : Engine} (session : Session σ)
    (hbuild : plan.build = .ok engine) {data : Bytes} {offset : Nat}
    {callback : σ → Nat → ReportId → Control × σ} {search : ByteSearch}
    (hlast : engine.lastByteStates = []) (hcatches : engine.catchesUpTriggers = false)
    (hnone : ∀ queue, session.stream.leaves.isOn queue = false)
    (hsuited : session.scratch.Suited engine) (hstill : engine.EndIsStill)
    (hsize : data.size ≤ offset)
    (hwidth : ∀ matcher, engine.matcher? = some matcher → matcher.minWidth ≤ data.size)
    (hrun : ∀ automaton ∈ plan.automata, automaton.IgnoresStart (.ofNat data.size)) :
    SameEnd (.ofNat data.size) session.journal
      (finishBuffer engine data offset callback search session)
      (finishStream engine data offset callback search session) := by
  let occasion : Occasion σ := { engine, mode := .block, data, offset, callback, search }
  have hcompares : occasion.Compares .streaming (occasion.modeLink session.journal) :=
    compares_streaming (Plan.isSound_of_build hbuild) rfl hsize fun slot hslot =>
      hrun _ (Plan.automaton_mem_of_build hbuild hslot)
  have hagree := agree_modes hcompares rfl hlast hcatches hnone hsuited hstill hwidth
  show SameEnd _ _ (occasion.perform session) ((occasion.inMode .streaming).perform session)
  by_cases hidle : occasion.isIdle = true
  · have hleft : occasion.perform session = .ok .proceed session := perform_eq_of_isIdle hidle
    have hright : (occasion.inMode .streaming).perform session = .ok .proceed session :=
      perform_eq_of_isIdle hidle
    rw [hleft, hright]
    exact ⟨rfl, rfl, rfl, rfl, [], rfl, rfl⟩
  have hidle : occasion.isIdle = false := Bool.eq_false_iff.2 hidle
  have hleft : occasion.perform session = closed (occasion.body (occasion.start session)) :=
    perform_eq_closed hidle hsize
  have hright : (occasion.inMode .streaming).perform session
      = closed ((occasion.inMode .streaming).body ((occasion.inMode .streaming).start session)) :=
    perform_eq_closed hidle hsize
  rw [hleft, hright]
  generalize occasion.body (occasion.start session) = first at hagree ⊢
  generalize (occasion.inMode .streaming).body
    ((occasion.inMode .streaming).start session) = second at hagree ⊢
  cases hagree with
  | ok hnext =>
    obtain ⟨hstream, hcaller, hcalls, hjournal⟩ := shown_modes hnext.toShown
    exact ⟨rfl, hstream, hcaller, hcalls, hjournal⟩
  | error hstopped =>
    obtain ⟨hstream, hcaller, hcalls, hjournal⟩ := shown_modes hstopped.toShown
    exact ⟨rfl, hstream, hcaller, hcalls, hjournal⟩

end Occasion

/-! ## A plan whose end is still -/

namespace Plan

/-- The sample plan with another action at the end, and perhaps with a last offset that counts. -/
def sampleWith (endEvent? : Option LiteralId) (maxWidth? : Option Nat) : Plan :=
  { sample with endEvent?, maxWidth? }

variable {endEvent? : Option LiteralId} {maxWidth? : Option Nat}

theorem exists_build_sampleWith
    (hevent : ∀ id, endEvent? = some id → (sample.actions.find? id).isSome = true) :
    ∃ engine, (sampleWith endEvent? maxWidth?).build = .ok engine := by
  obtain ⟨table, htable⟩ := exists_table_sample
  have hactions : ∀ literal ∈ sampleLiterals, (sample.actions.find? literal.id).isSome = true := by
    decide
  have hmatcher : (sampleWith endEvent? maxWidth?).buildMatcher sampleLiterals 8
      = .ok ⟨table, 1, 8⟩ :=
    buildMatcher_eq_ok_iff.2 ⟨by decide, hactions, table, htable, rfl⟩
  refine ⟨_, build_eq_ok_iff.2 ⟨?_, ?_, ?_, hevent, _, ⟨_, hmatcher, rfl⟩, rfl, rfl⟩⟩
  · exact checkAll_eq_ok_iff.1 rfl
  · exact checkAll_eq_ok_iff.1 rfl
  · exact checkAll_eq_ok_iff.1 rfl

theorem minWidth_sampleWith {engine : Engine} {matcher : EndMatcher}
    (hbuild : (sampleWith endEvent? maxWidth?).build = .ok engine)
    (hmatcher : engine.matcher? = some matcher) : matcher.minWidth = 1 := by
  obtain ⟨found, hfound, -, hserves⟩ := exists_serves_of_build hbuild rfl
  cases hmatcher.symm.trans hfound
  exact hserves.2.2

end Plan

/-- The end of `ab` as a buffer and as the end of a stream: its `b` triggers the automaton, whose
event is at 2 in the buffer and at 0 after it. -/
theorem Occasion.sameEnd_of_built_shifted :
    ∃ engine scratch, (Plan.sampleWith (some (.wrap 7)) none).build = .ok engine
      ∧ Scratch.fresh engine = .ok scratch
      ∧ let callback (reports : List ReportId) (_ : Nat) (id : ReportId) :=
          (Control.proceed, id :: reports)
        SameEnd 2 []
          (finishBuffer engine #[97, 98] 5 callback .plain ⟨.initial engine, scratch, [], []⟩)
          (finishStream engine #[97, 98] 5 callback .plain ⟨.initial engine, scratch, [], []⟩) := by
  have hevent : ∀ id, some (.wrap 7) = some id → (Plan.sample.actions.find? id).isSome = true := by
    rintro id ⟨⟩
    decide
  obtain ⟨engine, hbuild⟩ := @Plan.exists_build_sampleWith _ none hevent
  obtain ⟨-, -, -, -, matcher?, -, -, hengine⟩ := Plan.build_eq_ok_iff.1 hbuild
  have hroles : engine.roles.length ≤ MarkerSet.maxCapacity := by
    rw [hengine]
    exact show 1 ≤ MarkerSet.maxCapacity by decide
  obtain ⟨scratch, hfresh⟩ := Scratch.exists_fresh_eq_ok hroles
  have hstill : engine.EndIsStill := by
    rw [hengine]
    rintro id action ⟨⟩ ⟨⟩
    rfl
  have hlast : engine.lastByteStates = [] := by
    rw [hengine]
    rfl
  have hcatches : engine.catchesUpTriggers = false := by
    rw [hengine]
    rfl
  have hwidth (matcher : EndMatcher) (hmatcher : engine.matcher? = some matcher) :
      matcher.minWidth ≤ (#[97, 98] : Bytes).size :=
    Nat.le_trans (Nat.le_of_eq (Plan.minWidth_sampleWith hbuild hmatcher)) (by decide)
  have hrun (automaton : Automaton) (hautomaton : automaton ∈ Plan.sample.automata) :
      automaton.IgnoresStart (.ofNat (#[97, 98] : Bytes).size) := by
    rw [List.mem_singleton.1 hautomaton]
    exact Automaton.ignoresStart_latch _ _
  have hnone (queue : Nat) : (StreamState.initial engine).leaves.isOn queue = false :=
    FlagSet.isOn_empty _ queue
  have hsize : (#[97, 98] : Bytes).size ≤ 5 := by decide
  refine ⟨engine, scratch, hbuild, hfresh, ?_⟩
  intro callback
  exact sameEnd_of_built ⟨.initial engine, scratch, [], []⟩ hbuild hlast hcatches hnone
    (Scratch.suited_of_fresh (Plan.isSound_of_build hbuild) hfresh) hstill hsize hwidth hrun

end Multimatch
