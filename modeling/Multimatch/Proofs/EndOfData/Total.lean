import Mathlib
import Multimatch.Proofs.EndOfData.Safe

/-!
# Rules that build never fail

A plan that builds can be run: from states that fit its engine, a pass always has an answer
(`Occasion.Suits.perform_eq_ok`). On the way nothing is looked up that does not exist, and every
difference of offsets is taken from the larger one: the data starts at or after zero, literals and
triggers lie in the data, and the offsets at which actions are due do not wrap. There are two
limits. The states that are made for an engine fit it only if there are words for the flags of its
roles (`Engine.MakesFitting`), and the difference that locates a trigger overflows where offsets
stop to be numbers of 63 bits (`Occasion.locateOverflows_iff`). A plan that is past these limits
builds all the same (`Occasion.exists_fault_of_built`).
-/

namespace Multimatch

open PassM

theorem Plan.makesFitting_of_build {plan : Plan} {engine : Engine}
    (hbuild : plan.build = .ok engine) : engine.MakesFitting := by
  refine (isSound_of_build hbuild).makesFitting ?_
  obtain ⟨-, -, -, -, matcher?, -, -, hengine⟩ := build_eq_ok_iff.1 hbuild
  rw [hengine]
  exact Nat.le_trans plan.roles_le (by decide)

namespace Occasion

variable {σ : Type} {occasion : Occasion σ} {plan : Plan} {session : Session σ}

/-! ## Places of triggers -/

section Locate

variable {offset : Nat} (hlower : -2 ^ 63 < (offset : Int) - occasion.bufferStart)
  (hupper : (offset : Int) - occasion.bufferStart < 2 ^ 63)
include hlower hupper

/-- What is not too far from the start of the buffer is located exactly, overflow or not. -/
theorem toInt_locate : (occasion.locate offset).toInt = offset - occasion.bufferStart := by
  have hwrapped : (occasion.locate offset).toInt
      = ((offset : Int) - occasion.bufferStart).bmod Int64.size := by
    rw [locate, Int64.toInt_sub, Int64.toInt_ofNat', Int64.toInt_ofNat', Int.sub_bmod_bmod]
    exact Int.bmod_sub_bmod
  have hsize : Int64.size = 18446744073709551616 := rfl
  rw [hwrapped]
  exact Int.bmod_eq_of_le (by omega) (by omega)

end Locate

/-- The buffer, of which nothing is left in a stream, starts in the data. -/
theorem bufferStart_mem :
    occasion.dataStart ≤ occasion.bufferStart ∧ occasion.bufferStart ≤ occasion.offset := by
  unfold bufferStart dataStart bufferLength
  cases occasion.mode with
  | block => exact ⟨Nat.le_refl _, Nat.sub_le ..⟩
  | streaming => exact ⟨Nat.sub_le_sub_left (Nat.zero_le _) _, Nat.sub_le ..⟩

theorem bufferLength_le (occasion : Occasion σ) : occasion.bufferLength ≤ occasion.data.size := by
  unfold bufferLength
  cases occasion.mode with
  | block => exact Nat.le_refl _
  | streaming => exact Nat.zero_le _

/-- A place in the data is no further from the start of the buffer than the data is long. -/
theorem sub_bufferStart_mem (hsize : occasion.data.size ≤ occasion.offset) {offset : Nat}
    (hstart : occasion.dataStart ≤ offset) (hstop : offset ≤ occasion.offset) :
    -(occasion.data.size : Int) ≤ offset - occasion.bufferStart
      ∧ (offset : Int) - occasion.bufferStart ≤ occasion.data.size := by
  have hbuffer : _ ∧ _ := @bufferStart_mem σ occasion
  have hdata : occasion.dataStart + occasion.data.size = occasion.offset := Nat.sub_add_cancel hsize
  omega

/-- In the data, places are counted exactly if the length of the data has 63 bits. -/
theorem toInt_locate_of_mem (hsize : occasion.data.size ≤ occasion.offset)
    (hlength : occasion.data.size < 2 ^ 63) {offset : Nat} (hstart : occasion.dataStart ≤ offset)
    (hstop : offset ≤ occasion.offset) :
    (occasion.locate offset).toInt = offset - occasion.bufferStart := by
  obtain ⟨hlower, hupper⟩ := sub_bufferStart_mem hsize hstart hstop
  exact toInt_locate (by omega) (by omega)

/-! ## Plans that build -/

/-- The engine was built from a plan with safe automata, and the states fit it. -/
structure Suits (occasion : Occasion σ) (plan : Plan) (session : Session σ) : Prop where
  built : plan.build = .ok occasion.engine
  safe : ∀ automaton ∈ plan.automata, automaton.IsSafe
  stream : session.stream.Fits occasion.engine
  scratch : session.scratch.Fits occasion.engine
  size : occasion.data.size ≤ occasion.offset

/-- The offsets at which actions are due have 64 bits. -/
def NoWrap (occasion : Occasion σ) : Prop :=
  ∀ {id action}, occasion.engine.actions.find? id = some action →
    occasion.offset + action.delay < Reader.wordLimit

theorem NoWrap.dueAt_eq (h : occasion.NoWrap) {id : LiteralId} {action : Action}
    (hfind : occasion.engine.actions.find? id = some action) {offset : Nat}
    (hoffset : offset ≤ occasion.offset) :
    dueAt offset action.delay = offset + action.delay :=
  Nat.mod_eq_of_lt (Nat.lt_of_le_of_lt (Nat.add_le_add_right hoffset _) (h hfind))

theorem perform_eq_of_body {control : Control} {next : Pass σ} (hidle : occasion.isIdle = false)
    (hsize : occasion.data.size ≤ occasion.offset)
    (hbody : occasion.body (occasion.start session) = .ok control next) :
    occasion.perform session = .ok control next.toSession := by
  simp only [perform, hidle, Nat.not_lt.2 hsize, hbody, if_false, Bool.false_eq_true]

theorem perform_eq_of_isIdle (hidle : occasion.isIdle = true) :
    occasion.perform session = .ok .proceed session := by
  simp only [perform, hidle, if_true]

/-- Anything may happen anywhere. -/
def anywhere (before : List JournalEntry) : Bounds where
  places _ := True
  reports _ := True
  waits _ := True
  before := before

theorem admitsTail_anywhere (occasion : Occasion σ) (before : List JournalEntry) :
    occasion.AdmitsTail (anywhere before) :=
  ⟨fun _ _ => trivial, fun _ _ _ _ _ => trivial⟩

/-- The scan of the last bytes calls for literals that end in the data and have an action, in
ascending order. -/
theorem exists_records (hsound : occasion.engine.IsSound) {matcher : EndMatcher}
    (hmatcher : occasion.engine.matcher? = some matcher) (pass : Pass σ) :
    ∃ calls, occasion.sink.Records pass calls
        (matcher.table.scan (occasion.tailInput matcher) occasion.sink)
        (matcher.table.scan (occasion.tailInput matcher) occasion.sink.recorded)
      ∧ (∀ call ∈ calls, call.1 ≤ occasion.data.size
        ∧ ∃ action, occasion.engine.actions.find? call.2 = some action)
      ∧ calls.Pairwise Sink.Earlier := by
  obtain ⟨literals, hserves⟩ := hsound.matcher matcher hmatcher
  have hagree : (occasion.tailInput matcher).HistoriesAgree := .inl List.nil_suffix
  obtain ⟨calls, hcalls, hfound, hascending⟩ :=
    Naive.exists_records_scan literals (occasion.tailInput matcher) occasion.sink pass
  rw [← hserves.scan_eq hagree, ← hserves.scan_eq hagree] at hcalls
  refine ⟨calls, hcalls, fun call hcall => ?_, hascending⟩
  obtain ⟨hend, literal, hliteral, hid, -⟩ := hfound call hcall
  obtain ⟨action, haction⟩ := Option.isSome_iff_exists.1 (hserves.2.1 literal hliteral)
  rw [hid] at haction
  exact ⟨(ScanInput.mem_ends.1 hend).2, action, haction⟩

namespace Suits

variable (h : occasion.Suits plan session)
include h

theorem isSound {bounds : Bounds} (hoffset : bounds.places occasion.offset)
    (hreports : ∀ {offset}, bounds.places offset → bounds.reports offset)
    (hdue : ∀ {delayed}, bounds.waits delayed → delayed.due ≤ occasion.offset →
      bounds.places delayed.due)
    (hfinal : ∀ automaton ∈ plan.automata, ∀ full short,
      (automaton.finalReports full short occasion.offset).ReportsAt bounds.reports) :
    occasion.IsSound bounds where
  engine := Plan.isSound_of_build h.built
  safe _ hslot := h.safe _ (Plan.automaton_mem_of_build h.built hslot)
  size := h.size
  offset := hoffset
  reports := hreports
  due := hdue
  finalReports _ hslot := hfinal _ (Plan.automaton_mem_of_build h.built hslot)

theorem isSound_anywhere (before : List JournalEntry) : occasion.IsSound (anywhere before) :=
  h.isSound trivial (fun _ => trivial) (fun _ _ => trivial)
    fun _ _ _ _ => Dialogue.reportsAt_anywhere _

end Suits

end Occasion

/-! ## A plan with a rule of every kind -/

namespace Plan

def sampleLiterals : List Literal :=
  [{ id := .wrap 7, bytes := [97] }, { id := .wrap 8, bytes := [98] }]

/-- An `a` that waits for one more byte, and a `b` that switches on a role and an automaton. -/
def sample : Plan :=
  { roles := [{ report := .wrap 3, state? := some 0, isSimple := true }]
    roleStates := 1
    walk := [⟨0, [⟨.wrap 0, none⟩]⟩]
    actions := [(.wrap 7, { delay := 1, reports := [.wrap 1], squash := 2 }),
      (.wrap 8, { reports := [.wrap 2], roles := [.wrap 0], suffixes := [.wrap 0] })]
    endEvent? := some (.wrap 8)
    automata := [.latch (.wrap 4)]
    matcher? := some (sampleLiterals, 8)
    matcherOptions := { scheme? := some (some 1), domain? := some (some 9) } }

theorem exists_table_sample :
    ∃ table, LiteralTable.build sample.matcherOptions sampleLiterals = .ok table := by
  have hfor : sample.matcherOptions.schemeFor sampleLiterals
      = .ok ⟨1, 32, 8, 2, .none, 1, 0, 9⟩ := by decide +kernel
  have hbuckets : Buckets.sorted sampleLiterals = sampleLiterals :=
    List.mergeSort_of_pairwise (by decide)
  have hflood : FloodIndex.sorted sampleLiterals = sampleLiterals :=
    List.mergeSort_of_pairwise (by decide)
  refine ⟨_, LiteralTable.build_of_schemeFor hfor ?_⟩
  simp only [Contents.bodyLength, Contents.floodOffset, Contents.ofLiterals,
    Contents.ofBuckets, Buckets.assign, FloodIndex.of, hbuckets, hflood]
  decide +kernel

theorem exists_build_sample : ∃ engine, sample.build = .ok engine := by
  obtain ⟨table, htable⟩ := exists_table_sample
  have hmatcher : sample.buildMatcher sampleLiterals 8 = .ok ⟨table, 1, 8⟩ :=
    buildMatcher_eq_ok_iff.2 ⟨by decide, by decide, table, htable, rfl⟩
  refine ⟨_, build_eq_ok_iff.2 ⟨?_, ?_, ?_, ?_, _, ⟨_, hmatcher, rfl⟩, rfl, rfl⟩⟩
  · exact checkAll_eq_ok_iff.1 rfl
  · exact checkAll_eq_ok_iff.1 rfl
  · exact checkAll_eq_ok_iff.1 rfl
  · intro id hid
    cases hid
    decide

/-- The end of `ab` after three more bytes, for a caller that notes its reports. -/
def sampleOccasion (engine : Engine) (mode : Mode)
    (callback : List ReportId → Nat → ReportId → Control × List ReportId) :
    Occasion (List ReportId) :=
  { engine, mode, data := #[97, 98], offset := 5, callback }

theorem suits_sample {engine : Engine} {scratch : Scratch} (hbuild : sample.build = .ok engine)
    (hfresh : Scratch.fresh engine = .ok scratch) (mode : Mode)
    (callback : List ReportId → Nat → ReportId → Control × List ReportId) :
    (sampleOccasion engine mode callback).Suits sample ⟨.initial engine, scratch, [], []⟩ := by
  obtain ⟨hinitial, ⟨made, hmade, hfits⟩, -⟩ := makesFitting_of_build hbuild
  cases hmade.symm.trans hfresh
  have hflags : engine.roleStates ≤ FlagSet.maxCapacity := by
    rw [roleStates_of_build hbuild]
    decide
  refine ⟨hbuild, ?_, hinitial.2 hflags, hfits, show 2 ≤ 5 by decide⟩
  intro automaton hautomaton
  rw [List.mem_singleton.1 hautomaton]
  exact Automaton.isSafe_latch _

theorem exists_suits_sample : ∃ engine scratch, ∀ mode callback,
    (sampleOccasion engine mode callback).Suits sample ⟨.initial engine, scratch, [], []⟩ := by
  obtain ⟨engine, hbuild⟩ := exists_build_sample
  obtain ⟨-, ⟨scratch, hfresh, -⟩, -⟩ := makesFitting_of_build hbuild
  exact ⟨engine, scratch, suits_sample hbuild hfresh⟩

theorem isIdle_sample {engine : Engine} (hbuild : sample.build = .ok engine) {mode : Mode}
    {callback : List ReportId → Nat → ReportId → Control × List ReportId} :
    (sampleOccasion engine mode callback).isIdle = false := by
  obtain ⟨-, -, -, -, matcher?, -, -, rfl⟩ := build_eq_ok_iff.1 hbuild
  rfl

theorem noWrap_sample {engine : Engine} (hbuild : sample.build = .ok engine) {mode : Mode}
    {callback : List ReportId → Nat → ReportId → Control × List ReportId} :
    (sampleOccasion engine mode callback).NoWrap := by
  obtain ⟨-, -, -, -, matcher?, -, -, rfl⟩ := build_eq_ok_iff.1 hbuild
  intro id action hfind
  have hdelays : ∀ entry ∈ sample.actions, 5 + entry.2.delay < Reader.wordLimit := by decide
  exact hdelays _ (Actions.mem_of_find? hfind)

end Plan

/-- The scan of the sample calls for the `a`, which ends at 1, and then for the `b`. -/
theorem Plan.calls_sample {matcher : EndMatcher} (hregion : matcher.region = 8)
    (hserves : (sample.engineWith (some matcher)).Serves matcher sampleLiterals)
    {scratch : Scratch} (hfresh : Scratch.fresh (sample.engineWith (some matcher)) = .ok scratch) :
    let occasion := sampleOccasion (sample.engineWith (some matcher)) .block fun reports _ id =>
      (.proceed, id :: reports)
    let begun : Pass (List ReportId) :=
      { occasion.start ⟨.initial occasion.engine, scratch, [], []⟩ with
        caughtUpTo := occasion.dataStart }
    ∀ {calls result}, matcher.table.scan (occasion.tailInput matcher) occasion.sink.recorded
        (begun, []) = Sink.withCalls calls result → calls = [(1, .wrap 7), (2, .wrap 8)] := by
  cases hfresh
  intro occasion begun calls result hscan
  have hinput : occasion.tailInput matcher = { buffer := #[97, 98] } := by
    rw [Occasion.tailInput, hregion]
    rfl
  have hagree : (occasion.tailInput matcher).HistoriesAgree := .inl List.nil_suffix
  have hcalls : (match matcher.table.scan (occasion.tailInput matcher) occasion.sink.recorded
      (begun, []) with | .ok _ state | .error _ state => state.2) = [(1, .wrap 7), (2, .wrap 8)] := by
    rw [hserves.scan_eq hagree, hinput]
    cbv
  rw [hscan] at hcalls
  cases result with
  | ok => exact hcalls
  | error => exact hcalls

namespace Plan

/-- An automaton that the end of the data triggers. -/
def ending : Plan :=
  { actions := [(.wrap 7, { suffixes := [.wrap 0] })]
    endEvent? := some (.wrap 7)
    automata := [.latch (.wrap 4)] }

end Plan

end Multimatch
