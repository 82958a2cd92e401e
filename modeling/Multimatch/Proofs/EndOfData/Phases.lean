import Multimatch.Proofs.EndOfData.Heard

/-!
# Phases

A pass goes through phases (`Occasion.phases`). In the scan of the last bytes, reports are where
the actions run, which is in ascending order; in every other phase they are at the end of the data.
So the offsets of reports never decrease in a phase, if no automaton makes one up.
-/

namespace Multimatch

open PassM

theorem Control.bind_andThen {m : Type → Type} [Monad m] [LawfulMonad m] {α : Type} (step : m α)
    (first : α → m Control) (next : m Control) :
    andThen (step >>= first) next = step >>= fun value => andThen (first value) next := by
  simp only [andThen, bind_assoc]

theorem Control.andThen_pure_proceed {m : Type → Type} [Monad m] [LawfulMonad m]
    (step : m Control) : andThen step (pure .proceed) = step := by
  refine Eq.trans (bind_congr fun control => ?_) (bind_pure step)
  cases control with
  | halt => rfl
  | proceed => rfl

namespace Occasion

variable {σ : Type}

section Definitions

variable (occasion : Occasion σ)

/-- What is done before the data is resolved. -/
def settleFirst : PassM σ Unit :=
  match occasion.mode with
  | .block => occasion.settleBuffer
  | .streaming => pure ()

/-- The phases of a pass: the action of the end, the active automata, the first walk, the literals
in the last bytes, the second walk, and the automata that were triggered. -/
def phases : List (PassM σ Control) :=
  (do
    occasion.settleFirst
    occasion.runEndEvent)
  :: occasion.askAllActive
  :: match occasion.engine.matcher? with
    | none => [if occasion.engine.walk.isEmpty then pure .proceed else occasion.walk]
    | some matcher => [
      occasion.walk,
      do
        occasion.forget
        occasion.scanTail matcher,
      do
        occasion.dropLastByteRoles occasion.offset
        occasion.catchUp occasion.offset
        occasion.walk,
      occasion.finishSuffixes]

theorem body_eq_resolve : occasion.body = (do
    occasion.settleFirst
    occasion.resolve) := by
  unfold body settleFirst
  cases occasion.mode with
  | block => rfl
  | streaming => exact (pure_bind () fun _ => occasion.resolve).symm

/-- A pass is its phases, one after the other. -/
theorem body_eq_visitAll : occasion.body = Control.visitAll id occasion.phases := by
  rw [body_eq_resolve]
  unfold phases resolve resolveRoles
  cases occasion.engine.matcher? with
  | none => simp only [Control.visitAll, id, Control.bind_andThen, Control.andThen_pure_proceed]
  | some matcher =>
    simp only [resolveTail, Control.visitAll, id, Control.bind_andThen,
      Control.andThen_pure_proceed]

end Definitions

/-- Phases that follow each other up to the end or to a halt, and the answers that each of them
got. -/
inductive Phased : List (PassM σ Control) → Pass σ → List (List (Nat × ReportId × Control)) →
    Control → Pass σ → Prop where
  | nil (pass : Pass σ) : Phased [] pass [] .proceed pass
  | halt {phase : PassM σ Control} {phases : List (PassM σ Control)} {pass next : Pass σ}
      {told : List (Nat × ReportId × Control)} (run : phase pass = .ok .halt next)
      (answers : next.answers = pass.answers ++ told) :
      Phased (phase :: phases) pass [told] .halt next
  | proceed {phase : PassM σ Control} {phases : List (PassM σ Control)} {pass next last : Pass σ}
      {told : List (Nat × ReportId × Control)} {more : List (List (Nat × ReportId × Control))}
      {control : Control} (run : phase pass = .ok .proceed next)
      (answers : next.answers = pass.answers ++ told)
      (rest : Phased phases next more control last) :
      Phased (phase :: phases) pass (told :: more) control last

/-- A pass between two phases: nothing waits. -/
structure Steady (occasion : Occasion σ) (pass : Pass σ) : Prop where
  stream : pass.stream.Fits occasion.engine
  scratch : pass.scratch.Fits occasion.engine
  running : pass.halted = false
  empty : pass.scratch.delayed = []

/-- A phase that can start wherever another one can end, and whose reports never go back. -/
def IsOrderly (occasion : Occasion σ) (phase : PassM σ Control) : Prop :=
  ∀ pass, occasion.Steady pass → Gives phase pass fun control next =>
    (control = .proceed → occasion.Steady next)
      ∧ ∃ told, next.answers = pass.answers ++ told ∧ told.Pairwise (·.1 ≤ ·.1)

/-- Everything happens where the data ends. -/
def atEnd (occasion : Occasion σ) (before : List JournalEntry) : Bounds where
  places := (· = occasion.offset)
  reports := (· = occasion.offset)
  waits _ := False
  before := before

/-- Anything may happen anywhere, but only to literals that have an action. -/
def known (occasion : Occasion σ) (before : List JournalEntry) : Bounds where
  places _ := True
  reports _ := True
  waits delayed := ∃ action, occasion.engine.actions.find? delayed.id = some action
  before := before

variable {occasion : Occasion σ} {bounds : Bounds} {pass next last : Pass σ} {control : Control}
  {phases : List (PassM σ Control)} {told : List (List (Nat × ReportId × Control))}

theorem Phased.visitAll_eq (h : Phased phases pass told control last) :
    Control.visitAll id phases pass = .ok control last := by
  induction h with
  | nil pass => rfl
  | halt run _ =>
    simp only [Control.visitAll, Control.andThen, Bind.bind, EStateM.bind, id, run]
    rfl
  | proceed run _ _ ih =>
    simp only [Control.visitAll, Control.andThen, Bind.bind, EStateM.bind, id, run]
    exact ih

theorem Steady.ready (h : occasion.Steady pass) (hbefore : bounds.before = pass.journal) :
    occasion.Ready bounds pass where
  stream := h.stream
  scratch := h.scratch
  delayed := by simp [h.empty]
  journal := ⟨[], hbefore.symm, nofun⟩
  running := h.running

theorem Ready.steady (h : occasion.Ready bounds pass) (hempty : pass.scratch.delayed = []) :
    occasion.Steady pass := ⟨h.stream, h.scratch, h.running, hempty⟩

/-- Orderly phases follow each other. -/
theorem exists_phased (hphases : ∀ phase ∈ phases, occasion.IsOrderly phase)
    (h : occasion.Steady pass) : ∃ told control last, Phased phases pass told control last
      ∧ ∀ phase ∈ told, phase.Pairwise (·.1 ≤ ·.1) := by
  induction phases generalizing pass with
  | nil => exact ⟨[], .proceed, pass, .nil pass, nofun⟩
  | cons phase phases ih =>
    obtain ⟨hfirst, hrest⟩ := List.forall_mem_cons.1 hphases
    obtain ⟨control, next, hrun, hsteady, told, hanswers, htold⟩ := hfirst pass h
    cases control with
    | halt => exact ⟨[told], .halt, next, .halt hrun hanswers, List.forall_mem_singleton.2 htold⟩
    | proceed =>
      obtain ⟨more, control, last, hphased, hmore⟩ := ih hrest (hsteady rfl)
      exact ⟨told :: more, control, last, .proceed hrun hanswers hphased,
        List.forall_mem_cons.2 ⟨htold, hmore⟩⟩

/-! ## Phases at the end of the data -/

/-- A phase in which nothing is put off and everything happens at the end is orderly. -/
theorem isOrderly_of_atEnd {phase : PassM σ Control}
    (h : ∀ pass, occasion.Ready (occasion.atEnd pass.journal) pass →
      Gives phase pass (occasion.Ends (occasion.atEnd pass.journal))) :
    occasion.IsOrderly phase := by
  intro pass hsteady
  refine (h pass (hsteady.ready rfl)).mono fun control next hends => ⟨?_, ?_⟩
  · rintro rfl
    have hready : occasion.Ready (occasion.atEnd pass.journal) next := hends
    exact hready.steady (List.eq_nil_iff_forall_not_mem.2 hready.delayed)
  · obtain ⟨entries, hjournal, hlogs⟩ := hends.fits.journal
    have hjournal : next.journal = entries ++ pass.journal := hjournal
    refine ⟨entries.reverse.filterMap (·.answer?), ?_, ?_⟩
    · rw [Session.answers, hjournal, List.reverse_append, List.filterMap_append]
      rfl
    · have hplace : ∀ answer ∈ entries.reverse.filterMap (·.answer?),
          answer.1 = occasion.offset := by
        intro answer hanswer
        obtain ⟨entry, hentry, hsome⟩ := List.mem_filterMap.1 hanswer
        have hlog := hlogs entry (List.mem_reverse.1 hentry)
        cases entry <;> cases hsome
        exact hlog
      refine List.pairwise_of_forall_mem_list fun a ha b hb => ?_
      rw [hplace a ha, hplace b hb]

/-! ## The scan -/

theorem pairwise_reportsOf (made : List (Nat × LiteralId))
    (hsorted : made.Pairwise (RunsBefore occasion.delayOf)) :
    ((made.flatMap occasion.reportsOf).map proceeded).Pairwise (·.1 ≤ ·.1) := by
  have hplace {run : Nat × LiteralId} {call : Nat × ReportId}
      (hcall : call ∈ occasion.reportsOf run) : call.1 = run.1 := by
    unfold reportsOf at hcall
    cases haction : occasion.actionOf run with
    | none => simp [haction] at hcall
    | some action =>
      simp only [haction, List.mem_map] at hcall
      obtain ⟨id, -, rfl⟩ := hcall
      rfl
  refine List.pairwise_map.2 (List.pairwise_flatMap.2 ⟨fun run _ => ?_, hsorted.imp ?_⟩)
  · refine List.pairwise_of_forall_mem_list fun a ha b hb => ?_
    exact Nat.le_of_eq ((hplace ha).trans (hplace hb).symm)
  · intro run later hbefore a ha b hb
    exact (hplace ha).symm ▸ (hplace hb).symm ▸ hbefore.fst_le

theorem scanTail_of_short {matcher : EndMatcher} (hshort : occasion.data.size < matcher.minWidth)
    (pass : Pass σ) : occasion.scanTail matcher pass = .ok .proceed pass := by
  simp only [scanTail, if_pos hshort]
  rfl

theorem ready_settleFirst (hsound : occasion.IsSound bounds) (h : occasion.Ready bounds pass) :
    Gives occasion.settleFirst pass fun _ => occasion.Ready bounds := by
  unfold settleFirst
  cases occasion.mode with
  | block => exact ready_settleBuffer hsound h
  | streaming => exact gives_pure.2 h

namespace Suits

variable {plan : Plan} {session : Session σ} (h : occasion.Suits plan session)
include h

theorem isSound_known (before : List JournalEntry) : occasion.IsSound (occasion.known before) :=
  h.isSound trivial (fun _ => trivial) (fun _ _ => trivial)
    fun _ _ _ _ => Dialogue.reportsAt_anywhere _

theorem isSound_atEnd (keeps : ∀ automaton ∈ plan.automata, automaton.KeepsOffset)
    (before : List JournalEntry) : occasion.IsSound (occasion.atEnd before) :=
  h.isSound rfl id (fun hfalse => hfalse.elim)
    fun automaton hautomaton full short => keeps automaton hautomaton full short _

theorem steady_start : occasion.Steady (occasion.start session) := by
  have hready : occasion.Ready (occasion.known session.journal) (occasion.start session) :=
    ready_start h.stream h.scratch rfl
  exact hready.steady rfl

section Scan

variable (hquiet : occasion.IsQuiet) (hwrap : occasion.NoWrap) {matcher : EndMatcher}
  (hmatcher : occasion.engine.matcher? = some matcher)
include hquiet hwrap hmatcher

theorem exists_scanTail_of_steady (hsteady : occasion.Steady pass)
    (hwidth : matcher.minWidth ≤ occasion.data.size) :
    let begun : Pass σ := { pass with caughtUpTo := occasion.dataStart }
    ∃ calls scanned made,
      matcher.table.scan (occasion.tailInput matcher) occasion.sink begun = .ok .proceed scanned
      ∧ matcher.table.scan (occasion.tailInput matcher) occasion.sink.recorded (begun, [])
        = .ok .proceed (scanned, calls.map (·.call))
      ∧ occasion.Hears begun calls scanned
      ∧ (calls.map (·.call)).Pairwise Sink.Earlier
      ∧ (∀ heard ∈ calls, occasion.KeepsOrder heard)
      ∧ scanned.InOrder ∧ occasion.RunsInOrder occasion.offset scanned
      ∧ occasion.ServesOnce calls made
      ∧ Gives (occasion.scanTail matcher) pass
        (occasion.Leads (occasion.known pass.journal) pass made scanned.lastEnd []) := by
  have htail : occasion.AdmitsTail (occasion.known pass.journal) :=
    ⟨fun _ _ => trivial, fun _ _ _ action hfind => ⟨action, hfind⟩⟩
  exact exists_scanTail (h.isSound_known pass.journal) hquiet (fun _ hwaits => hwaits) hwrap htail
    (hsteady.ready rfl) hsteady.empty hmatcher hwidth

theorem isOrderly_scanTail : occasion.IsOrderly (do
    occasion.forget
    occasion.scanTail matcher) := by
  intro pass hsteady
  have hready : occasion.Ready (occasion.known pass.journal) pass := hsteady.ready rfl
  rw [gives_bind]
  refine ((ready_forget hready).related (occasion.silent_forget occasion.callback)
    pass.caller).mono fun _ middle hmiddle => ?_
  obtain ⟨hready, hstory⟩ := hmiddle
  have hmiddle := hready.steady (hstory.delayed.trans hsteady.empty)
  by_cases hshort : occasion.data.size < matcher.minWidth
  · refine (gives_iff_of_eq (scanTail_of_short hshort middle)).2 ⟨fun _ => hmiddle, [], ?_, .nil⟩
    rw [hstory.answers, List.append_nil]
  · obtain ⟨calls, scanned, made, -, -, -, -, -, -, -, hserves, hscan⟩ :=
      h.exists_scanTail_of_steady hquiet hwrap hmatcher hmiddle (Nat.le_of_not_lt hshort)
    refine hscan.mono fun control next hnext =>
      ⟨fun _ => ?_, (made.flatMap occasion.reportsOf).map proceeded, ?_, ?_⟩
    · exact hnext.toReady.steady hnext.waiting_eq
    · rw [hnext.ran.answers, hstory.answers]
    · exact pairwise_reportsOf made hserves.sorted

end Scan

theorem isOrderly_of_mem_phases (hquiet : occasion.IsQuiet) (hwrap : occasion.NoWrap)
    (keeps : ∀ automaton ∈ plan.automata, automaton.KeepsOffset) :
    ∀ phase ∈ occasion.phases, occasion.IsOrderly phase := by
  have hsound := h.isSound_atEnd keeps
  have hwalk : occasion.IsOrderly occasion.walk :=
    isOrderly_of_atEnd fun pass hready => ends_walk (hsound _) hready
  unfold phases
  refine List.forall_mem_cons.2 ⟨?_, List.forall_mem_cons.2 ⟨?_, ?_⟩⟩
  · refine isOrderly_of_atEnd fun pass hready => gives_bind.2 ?_
    exact (ready_settleFirst (hsound _) hready).mono fun _ _ hnext =>
      ends_runEndEvent (hsound _) hnext
  · exact isOrderly_of_atEnd fun pass hready => ends_askAllActive (hsound _) hready
  · cases hmatcher : occasion.engine.matcher? with
    | none =>
      refine List.forall_mem_singleton.2 (isOrderly_of_atEnd fun pass hready => ?_)
      rw [gives_ite]
      exact ⟨fun _ => gives_pure.2 hready, fun _ => ends_walk (hsound _) hready⟩
    | some matcher =>
      refine List.forall_mem_cons.2 ⟨hwalk, List.forall_mem_cons.2
        ⟨h.isOrderly_scanTail hquiet hwrap hmatcher, List.forall_mem_cons.2 ⟨?_,
          List.forall_mem_singleton.2 ?_⟩⟩⟩
      · refine isOrderly_of_atEnd fun pass hready => gives_bind.2 ?_
        refine (ready_dropLastByteRoles (hsound _) hready _).mono fun _ middle hmiddle => ?_
        refine gives_bind.2 ((ready_catchUp (hsound _) hmiddle _).mono fun _ next hnext => ?_)
        exact ends_walk (hsound _) hnext
      · exact isOrderly_of_atEnd fun pass hready => ends_finishSuffixes (hsound _) hready

/-- In the scan of the last bytes, every literal that ends while its action is live is acted on
exactly once, at its end or after its delay, if the data reaches that far, and otherwise never. The
runs are in order, as is at every step what waits, which is due after the last literal. So in every
phase of a pass the offsets of the reports never decrease, if automata report only at the offset
that they are given. -/
theorem serves_once (hquiet : occasion.IsQuiet) (hwrap : occasion.NoWrap) :
    (∀ matcher, occasion.engine.matcher? = some matcher → ∀ pass, occasion.Steady pass →
      (occasion.data.size < matcher.minWidth →
        occasion.scanTail matcher pass = .ok .proceed pass)
      ∧ (matcher.minWidth ≤ occasion.data.size →
        let begun : Pass σ := { pass with caughtUpTo := occasion.dataStart }
        ∃ (calls : List (Hearing σ)) (scanned next : Pass σ) (made : List (Nat × LiteralId)),
          matcher.table.scan (occasion.tailInput matcher) occasion.sink begun = .ok .proceed scanned
          ∧ matcher.table.scan (occasion.tailInput matcher) occasion.sink.recorded (begun, [])
            = .ok .proceed (scanned, calls.map (·.call))
          ∧ occasion.Hears begun calls scanned
          ∧ (calls.map (·.call)).Pairwise Sink.Earlier
          ∧ occasion.scanTail matcher pass = .ok .proceed next
          ∧ next.runs = pass.runs ++ made
          ∧ occasion.ServesOnce calls made
          ∧ (∀ heard ∈ calls, occasion.KeepsOrder heard)
          ∧ scanned.InOrder ∧ occasion.RunsInOrder occasion.offset scanned))
    ∧ ((∀ automaton ∈ plan.automata, automaton.KeepsOffset) →
      (occasion.isIdle = true → occasion.perform session = .ok .proceed session)
      ∧ (occasion.isIdle = false →
        ∃ told control last, occasion.perform session = .ok control last.toSession
          ∧ Phased occasion.phases (occasion.start session) told control last
          ∧ ∀ phase ∈ told, phase.Pairwise (·.1 ≤ ·.1))) := by
  refine ⟨fun matcher hmatcher pass hsteady => ⟨fun hshort => scanTail_of_short hshort pass,
    fun hwidth => ?_⟩, fun keeps => ⟨fun hidle => perform_eq_of_isIdle hidle, fun hidle => ?_⟩⟩
  · obtain ⟨calls, scanned, made, hscan, hrecord, hhears, hascending, hkeeps, horder, hrunning,
      hserves, htail⟩ := h.exists_scanTail_of_steady hquiet hwrap hmatcher hsteady hwidth
    obtain ⟨next, htail, hleads⟩ := exists_eq_of_leads htail
    exact ⟨calls, scanned, next, made, hscan, hrecord, hhears, hascending, htail, hleads.ran.runs,
      hserves, hkeeps, horder, hrunning⟩
  · obtain ⟨told, control, last, hphased, htold⟩ :=
      exists_phased (h.isOrderly_of_mem_phases hquiet hwrap keeps) h.steady_start
    have hbody : occasion.body (occasion.start session) = .ok control last := by
      rw [body_eq_visitAll]
      exact hphased.visitAll_eq
    exact ⟨told, control, last, perform_eq_of_body hidle h.size hbody, hphased, htold⟩

end Suits

end Occasion

/-- The scan of `ab` in the sample calls for the `a`, which ends at 1, and then for the `b`. Both are
acted on at 5, where the data ends: the `a` waits for one more byte. -/
theorem Occasion.Suits.serves_once_delayed :
    ∃ engine scratch matcher, Plan.sample.build = .ok engine
      ∧ Scratch.fresh engine = .ok scratch ∧ engine.matcher? = some matcher
      ∧ let occasion := Plan.sampleOccasion engine .block fun reports _ id =>
          (.proceed, id :: reports)
        let session : Session (List ReportId) := ⟨.initial engine, scratch, [], []⟩
        let begun : Pass (List ReportId) :=
          { occasion.start session with caughtUpTo := occasion.dataStart }
        (∃ calls scanned next,
          matcher.table.scan (occasion.tailInput matcher) occasion.sink.recorded (begun, [])
            = .ok .proceed (scanned, calls.map (·.call))
          ∧ calls.map (·.call) = [(1, .wrap 7), (2, .wrap 8)]
          ∧ occasion.scanTail matcher (occasion.start session) = .ok .proceed next
          ∧ next.runs = [(5, .wrap 7), (5, .wrap 8)] ∧ occasion.ServesOnce calls next.runs)
        ∧ ∃ told control last, occasion.perform session = .ok control last.toSession
          ∧ Phased occasion.phases (occasion.start session) told control last
          ∧ ∀ phase ∈ told, phase.Pairwise (·.1 ≤ ·.1) := by
  obtain ⟨engine, hbuild⟩ := Plan.exists_build_sample
  obtain ⟨matcher, hmatcher, hregion, hserves⟩ := Plan.exists_serves_of_build hbuild rfl
  obtain ⟨-, -, -, -, matcher?, -, -, rfl⟩ := Plan.build_eq_ok_iff.1 hbuild
  obtain rfl := hmatcher
  refine ⟨_, _, matcher, hbuild, rfl, rfl, ?_⟩
  intro occasion session begun
  have h : occasion.Suits Plan.sample session := Plan.suits_sample hbuild rfl ..
  obtain ⟨hscan, hphases⟩ := serves_once h (fun _ _ _ => rfl) (Plan.noWrap_sample hbuild)
  obtain ⟨-, hlong⟩ := hscan matcher rfl _ h.steady_start
  have hminWidth : matcher.minWidth = 1 := hserves.2.2
  have hwidth : matcher.minWidth ≤ occasion.data.size := by
    rw [hminWidth]
    exact (by decide : 1 ≤ 2)
  obtain ⟨calls, scanned, next, made, -, hrecord, -, -, htail, hruns, hserved, -⟩ := hlong hwidth
  have hinput : occasion.tailInput matcher = { buffer := #[97, 98] } := by
    rw [tailInput, hregion]
    rfl
  have hcalls : calls.map (·.call) = [(1, .wrap 7), (2, .wrap 8)] :=
    @Plan.calls_sample matcher hregion hserves _ rfl _ (.ok .proceed scanned) hrecord
  have hmade : (after (occasion.scanTail matcher (occasion.start session))).runs
      = [(5, .wrap 7), (5, .wrap 8)] := by
    rw [scanTail_eq_naive hserves, hserves.2.2, hinput]
    cbv
  rw [htail] at hmade
  obtain rfl : next.runs = made := hruns
  obtain ⟨-, hbusy⟩ := hphases fun automaton hautomaton => by
    rw [List.mem_singleton.1 hautomaton]
    exact Automaton.keepsOffset_latch _
  exact ⟨⟨calls, scanned, next, hrecord, hcalls, htail, hmade, hserved⟩,
    hbusy (Plan.isIdle_sample hbuild)⟩

end Multimatch
