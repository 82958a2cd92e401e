import Multimatch.Proofs.EndOfData.Cut
import Multimatch.Proofs.EndOfData.Total

/-!
# Halting cuts a pass short

Every step of a pass is cut short by the first halt of the caller (`Occasion.cut_body`). So a caller
who halts at its `n`-th call gets the first `n` calls of one who never halts, and no call follows
one that was answered with a halt, even if an automaton goes on reporting
(`Occasion.Suits.perform_of_halt`).
-/

namespace Multimatch

open PassM

namespace Occasion

variable {σ τ : Type} {occasion : Occasion σ} {callback : τ → Nat → ReportId → Control × τ}

/-! ## Reports -/

theorem cut_report (hquiet : occasion.IsQuiet) (offset : Nat) (id : ReportId) :
    CutControl callback (occasion.report offset id)
      ((occasion.withCallback callback).report offset id) := by
  intro pass caller hrunning
  have hrunning' : (pass.withCaller caller).halted = false := hrunning
  rw [report_of_running hrunning, report_of_running hrunning', hquiet]
  refine ⟨[(offset, id)], Pass.answers_note, rfl, ?_⟩
  cases hcontrol : (callback caller offset id).1 with
  | proceed =>
    refine .inl ⟨⟨hcontrol, trivial⟩, ?_⟩
    have hcontrol' : ((occasion.withCallback callback).callback (pass.withCaller caller).caller
      offset id).1 = .proceed := hcontrol
    rw [hcontrol']
    rfl
  | halt =>
    have hcontrol' : ((occasion.withCallback callback).callback (pass.withCaller caller).caller
      offset id).1 = .halt := hcontrol
    rw [hcontrol']
    exact .inr ⟨[], (offset, id), [], rfl, trivial, hcontrol, _, _, rfl, rfl, rfl,
      Pass.answers_note, rfl⟩

/-- Nothing that an automaton reports after a halt gets through. -/
theorem absorbs_converse {occasion : Occasion τ} (queue : Nat) {dialogue : Dialogue}
    (hsafe : dialogue.NeverFaults) :
    Absorbs (fun _ => True) (occasion.converse queue dialogue) := by
  induction dialogue with
  | done control => exact absorbs_pure trivial
  | fault fault => exact hsafe.elim
  | ask offset id next ih =>
    intro pass hhalted
    obtain ⟨answer, last, hlast, -, hon, hanswers, hcaller⟩ := ih .halt (hsafe .halt)
      { pass with journal := .told queue .halt :: pass.journal } hhalted
    refine ⟨answer, last, ?_, trivial, hon, hanswers.trans ?_, hcaller⟩
    · simp only [converse, Bind.bind, EStateM.bind, report_of_halted hhalted]
      exact hlast
    · exact Pass.answers_note.trans (List.append_nil _)

theorem cut_converse (hquiet : occasion.IsQuiet) (queue : Nat) {dialogue : Dialogue}
    (hsafe : dialogue.NeverFaults) :
    Cut callback (fun _ => True) (occasion.converse queue dialogue)
      ((occasion.withCallback callback).converse queue dialogue) := by
  induction dialogue with
  | done control => exact cut_pure control
  | fault fault => exact hsafe.elim
  | ask offset id next ih =>
    refine (cut_report hquiet offset id).bind (fun control => ?_) fun control _ => ?_
    · exact (sameRoles_note rfl rfl).silent.muted.cut_bind fun _ => ih control (hsafe control)
    · intro pass hhalted
      obtain ⟨answer, last, hlast, hanswer, hon, hanswers, hcaller⟩ := absorbs_converse queue
        (hsafe control) { pass with journal := .told queue control :: pass.journal } hhalted
      exact ⟨answer, last, hlast, hanswer, hon,
        hanswers.trans (Pass.answers_note.trans (List.append_nil _)), hcaller⟩

/-- The slot of a queue and its states have what the automaton expects. -/
theorem size_of_fullOf {engine : Engine} {scratch : Scratch} {queue : Nat} {slot : Slot}
    {full : Bytes} (hslot : engine.slot queue = .ok slot)
    (h : scratch.fullOf engine queue = .ok full) : full.size = slot.automaton.fullLength := by
  rw [Scratch.fullOf, hslot] at h
  have h : scratch.full.slice slot.fullStart slot.fullStop = .ok full := h
  unfold Bytes.slice at h
  split at h
  · next hin =>
    cases h
    rw [Array.size_extract, Nat.min_eq_left hin.2, Slot.fullStop, Nat.add_sub_cancel_left]
  · cases h

theorem size_of_storedOf {engine : Engine} {state : StreamState} {queue : Nat} {slot : Slot}
    {short : Bytes} (hslot : engine.slot queue = .ok slot)
    (h : state.storedOf engine queue = .ok short) : short.size = slot.automaton.streamLength := by
  rw [StreamState.storedOf, hslot] at h
  have h : state.stored.slice slot.streamStart slot.streamStop = .ok short := h
  unfold Bytes.slice at h
  split at h
  · next hin =>
    cases h
    rw [Array.size_extract, Nat.min_eq_left hin.2, Slot.streamStop, Nat.add_sub_cancel_left]
  · cases h

section Steps

variable (hquiet : occasion.IsQuiet)
include hquiet

/-! ## Automata -/

theorem cut_askFinal {queue : Nat} {slot : Slot} (hsafe : slot.automaton.IsSafe)
    {full short : Bytes} (hfull : full.size = slot.automaton.fullLength)
    (hshort : short.size = slot.automaton.streamLength) :
    CutControl callback (occasion.askFinal queue slot full short)
      ((occasion.withCallback callback).askFinal queue slot full short) := by
  refine (sameRoles_note rfl rfl).silent.muted.cut_bind fun _ => ?_
  refine (cut_converse hquiet queue (hsafe.finalReports _ hfull hshort)).bind (fun control => ?_) ?_
  · refine Cut.get_bind fun pass caller => ?_
    exact cut_pure _
  · -- The signal of the dialogue does not matter once the caller has halted.
    intro control _ pass hhalted
    refine ⟨.halt, pass, ?_, rfl, hhalted, rfl, rfl⟩
    simp [Bind.bind, EStateM.bind, PassM.get_eq, hhalted, pure, EStateM.pure]

variable (hsafe : ∀ slot ∈ occasion.engine.slots, slot.automaton.IsSafe)
include hsafe

theorem cut_askActive (queue : Nat) :
    CutControl callback (occasion.askActive queue)
      ((occasion.withCallback callback).askActive queue) := by
  refine Cut.lift_bind fun slot hslot => ?_
  have hmem := List.mem_of_getElem? (elementAt_eq_ok_iff.1 hslot)
  refine Cut.ite (cut_pure _) ?_
  refine Cut.get_bind fun pass caller => Cut.lift_bind fun _ _ => ?_
  refine Cut.get_bind fun pass caller => Cut.lift_bind fun short hshort => ?_
  have hask : CutControl callback
      (do
        let full ← (← get).scratch.fullOf occasion.engine queue
        occasion.askFinal queue slot full short)
      (do
        let full ← (← get).scratch.fullOf occasion.engine queue
        (occasion.withCallback callback).askFinal queue slot full short) := by
    refine Cut.get_bind fun pass caller => Cut.lift_bind fun full hfull => ?_
    exact cut_askFinal hquiet (hsafe slot hmem) (size_of_fullOf hslot hfull)
      (size_of_storedOf hslot hshort)
  have hexpand := (occasion.sameRoles_expand callback queue slot).silent.muted
  exact Cut.ite (hexpand.cut_bind fun _ => hask) hask

theorem cut_finishSuffix (queue : Nat) :
    CutControl callback (occasion.finishSuffix queue)
      ((occasion.withCallback callback).finishSuffix queue) := by
  refine Cut.lift_bind fun slot hslot => ?_
  have hmem := List.mem_of_getElem? (elementAt_eq_ok_iff.1 hslot)
  refine Cut.ite (cut_pure _) ?_
  refine (muted_changeScratch _).cut_bind fun _ => ?_
  refine Cut.get_bind fun pass caller => Cut.lift_bind fun full _ => ?_
  refine Cut.get_bind fun pass caller => Cut.lift_bind fun events _ => ?_
  refine Cut.lift_bind fun ran _ => ?_
  refine (muted_changeScratch _).cut_bind fun _ => ?_
  refine Cut.get_bind fun pass caller => Cut.lift_bind fun full hfull => ?_
  refine (sameRoles_note rfl rfl).silent.muted.cut_bind fun _ => Cut.ite (cut_pure _) ?_
  refine Cut.get_bind fun pass caller => Cut.lift_bind fun short hshort => ?_
  exact cut_askFinal hquiet (hsafe slot hmem) (size_of_fullOf hslot hfull)
    (size_of_storedOf hslot hshort)

theorem cut_askAllActive :
    CutControl callback occasion.askAllActive (occasion.withCallback callback).askAllActive :=
  Cut.get_bind fun _ _ => Cut.lift_bind fun _ _ =>
    Cut.visitAll fun queue _ => cut_askActive hquiet hsafe queue

theorem cut_finishSuffixes :
    CutControl callback occasion.finishSuffixes
      (occasion.withCallback callback).finishSuffixes :=
  Cut.get_bind fun _ _ => Cut.lift_bind fun _ _ =>
    Cut.visitAll fun queue _ => cut_finishSuffix hquiet hsafe queue

omit hsafe

/-! ## Actions -/

omit hquiet in
theorem cut_settle (offset : Nat) (action : Action) :
    CutControl callback (occasion.settle offset action)
      ((occasion.withCallback callback).settle offset action) := by
  refine (occasion.silent_switchAllOn callback _).muted.cut_bind fun _ => ?_
  refine (occasion.sameRoles_triggerAll callback _ _).silent.muted.cut_bind fun _ => ?_
  have hsquash : Muted (modify fun pass : Pass σ =>
        { pass with groups := pass.groups.without action.squash })
      (modify fun pass : Pass τ => { pass with groups := pass.groups.without action.squash }) :=
    fun _ _ => ⟨rfl, rfl, rfl⟩
  exact hsquash.cut_bind fun _ => cut_pure _

theorem cut_runAction (offset : Nat) (id : LiteralId) :
    CutControl callback (occasion.runAction offset id)
      ((occasion.withCallback callback).runAction offset id) := by
  simp only [runAction, engine_withCallback]
  cases occasion.engine.actions.find? id with
  | none => exact cut_pure _
  | some action =>
    have hnote : Muted (note (.acted offset id) : PassM σ Unit)
        (note (.acted offset id) : PassM τ Unit) :=
      fun _ _ => ⟨rfl, rfl, Pass.answers_note.trans (List.append_nil _)⟩
    refine hnote.cut_bind fun _ => Cut.ite (cut_pure _) (Cut.andThen ?_ ?_)
    · exact Cut.visitAll fun id _ => cut_report hquiet offset id
    · exact cut_settle offset action

theorem cut_runOrDelay (offset : Nat) (id : LiteralId) (isEndEvent : Bool) :
    CutControl callback (occasion.runOrDelay offset id isEndEvent)
      ((occasion.withCallback callback).runOrDelay offset id isEndEvent) := by
  simp only [runOrDelay, engine_withCallback]
  cases occasion.engine.actions.find? id with
  | none => exact cut_pure _
  | some action =>
    refine Cut.get_bind fun pass caller => Cut.ite (cut_pure _) (Cut.ite ?_ ?_)
    · exact (muted_changeScratch _).cut_bind fun _ => cut_pure _
    · exact cut_runAction hquiet offset id

omit hquiet in
/-- A change of working space does not forget a halt. -/
theorem absorbs_changeScratch (change : Scratch → Scratch) {control : Control}
    (h : control = .halt) : Absorbs (τ := τ) (· = .halt) (do
      PassM.changeScratch fun scratch => .ok (change scratch)
      return control) :=
  fun pass hhalted => ⟨control, { pass with scratch := change pass.scratch }, rfl, h, hhalted, rfl,
    rfl⟩

theorem cut_runDelayed (upTo : Nat) :
    CutControl callback (occasion.runDelayed upTo)
      ((occasion.withCallback callback).runDelayed upTo) := by
  refine Cut.get_bind fun pass caller => ?_
  refine Cut.bind (Cut.visitAll fun delayed _ => cut_runAction hquiet delayed.due delayed.id)
    (fun control => (muted_changeScratch _).cut_bind fun _ => cut_pure _) ?_
  intro control hhalt
  exact absorbs_changeScratch _ hhalt

theorem cut_onLiteral (matchEnd : Nat) (id : LiteralId) :
    CutControl callback (occasion.onLiteral matchEnd id)
      ((occasion.withCallback callback).onLiteral matchEnd id) := by
  refine Cut.andThen (cut_runDelayed hquiet _) ?_
  have hmove : Muted (modify fun pass : Pass σ =>
        { pass with lastEnd := occasion.dataStart + matchEnd })
      (modify fun pass : Pass τ => { pass with lastEnd := occasion.dataStart + matchEnd }) :=
    fun _ _ => ⟨rfl, rfl, rfl⟩
  exact hmove.cut_bind fun _ => cut_runOrDelay hquiet _ id false

theorem cut_scanTail (hsound : occasion.engine.IsSound) {matcher : EndMatcher}
    (hmatcher : occasion.engine.matcher? = some matcher) :
    CutControl callback (occasion.scanTail matcher)
      ((occasion.withCallback callback).scanTail matcher) := by
  obtain ⟨literals, hserves⟩ := hsound.matcher matcher hmatcher
  have hagree : (occasion.tailInput matcher).HistoriesAgree := .inl List.nil_suffix
  have hscan : CutControl callback
      (matcher.table.scan (occasion.tailInput matcher) occasion.sink)
      (matcher.table.scan (occasion.tailInput matcher) (occasion.withCallback callback).sink) := by
    rw [hserves.scan_eq hagree, hserves.scan_eq hagree]
    -- Both scans ask for the groups at an end, which do not depend on the caller.
    refine Cut.visitAll fun matchEnd _ => Cut.get_bind fun pass caller => ?_
    exact Cut.visitAll fun id _ => cut_onLiteral hquiet matchEnd id
  have hmove : Muted (modify fun pass : Pass σ => { pass with caughtUpTo := occasion.dataStart })
      (modify fun pass : Pass τ => { pass with caughtUpTo := occasion.dataStart }) :=
    fun _ _ => ⟨rfl, rfl, rfl⟩
  refine Cut.ite (cut_pure _) (hmove.cut_bind fun _ => Cut.andThen hscan ?_)
  refine Cut.bind (cut_runDelayed hquiet _)
    (fun control => (muted_changeScratch _).cut_bind fun _ => cut_pure _) ?_
  intro control hhalt
  exact absorbs_changeScratch _ hhalt

/-! ## Walks -/

theorem cut_visitEntry (entry : WalkEntry) :
    CutControl callback (occasion.visitEntry entry)
      ((occasion.withCallback callback).visitEntry entry) := by
  refine Cut.get_bind fun pass caller => Cut.ite (cut_pure _) ?_
  refine Cut.lift_bind fun role _ => ?_
  have hfire : CutControl callback
      (do
        let marked ← (← get).scratch.handled.insert entry.role.toNat
        PassM.changeScratch fun scratch => .ok { scratch with handled := marked.2 }
        PassM.note (.fired entry.role)
        occasion.report occasion.offset role.report)
      (do
        let marked ← (← get).scratch.handled.insert entry.role.toNat
        PassM.changeScratch fun scratch => .ok { scratch with handled := marked.2 }
        PassM.note (.fired entry.role)
        (occasion.withCallback callback).report occasion.offset role.report) := by
    refine Cut.get_bind fun pass caller => Cut.lift_bind fun marked _ => ?_
    refine (muted_changeScratch _).cut_bind fun _ => ?_
    exact (sameRoles_note rfl rfl).silent.muted.cut_bind fun _ => cut_report hquiet _ _
  refine Cut.ite ?_ hfire
  exact Cut.lift_bind fun holds _ => Cut.ite (cut_pure _) hfire

theorem cut_walk : CutControl callback occasion.walk (occasion.withCallback callback).walk := by
  refine (muted_changeScratch _).cut_bind fun _ => Cut.visitAll fun stop _ => ?_
  refine Cut.get_bind fun pass caller => Cut.lift_bind fun isOn _ => Cut.ite ?_ (cut_pure _)
  exact Cut.visitAll fun entry _ => cut_visitEntry hquiet entry

/-! ## The whole pass -/

theorem cut_runEndEvent :
    CutControl callback occasion.runEndEvent (occasion.withCallback callback).runEndEvent := by
  simp only [runEndEvent, engine_withCallback]
  cases occasion.engine.endEvent? with
  | none => exact cut_pure _
  | some id => exact cut_runOrDelay hquiet _ id true

include hsafe

theorem cut_resolveTail (hsound : occasion.engine.IsSound) {matcher : EndMatcher}
    (hmatcher : occasion.engine.matcher? = some matcher) :
    CutControl callback (occasion.resolveTail matcher)
      ((occasion.withCallback callback).resolveTail matcher) := by
  refine (occasion.silent_forget callback).muted.cut_bind fun _ => ?_
  refine (cut_scanTail hquiet hsound hmatcher).andThen ?_
  refine (occasion.silent_dropLastByteRoles callback _).muted.cut_bind fun _ => ?_
  refine (occasion.silent_catchUp callback _).muted.cut_bind fun _ => ?_
  exact (cut_walk hquiet).andThen (cut_finishSuffixes hquiet hsafe)

theorem cut_resolve (hsound : occasion.engine.IsSound) :
    CutControl callback occasion.resolve (occasion.withCallback callback).resolve := by
  refine (cut_runEndEvent hquiet).andThen ((cut_askAllActive hquiet hsafe).andThen ?_)
  simp only [resolveRoles, engine_withCallback]
  cases hmatcher : occasion.engine.matcher? with
  | none => exact Cut.ite (cut_pure _) (cut_walk hquiet)
  | some matcher => exact (cut_walk hquiet).andThen (cut_resolveTail hquiet hsafe hsound hmatcher)

theorem cut_body (hsound : occasion.engine.IsSound) :
    CutControl callback occasion.body (occasion.withCallback callback).body := by
  have hmode : (occasion.withCallback callback).mode = occasion.mode := rfl
  simp only [body, hmode]
  have hresolve : CutControl callback occasion.resolve (occasion.withCallback callback).resolve :=
    cut_resolve hquiet hsafe hsound
  cases occasion.mode with
  | streaming => exact hresolve
  | block =>
    have hmove : Muted (modify fun pass : Pass σ => { pass with lastEnd := occasion.offset })
        (modify fun pass : Pass τ => { pass with lastEnd := occasion.offset }) :=
      fun _ _ => ⟨rfl, rfl, rfl⟩
    simp only [settleBuffer, bind_assoc, engine_withCallback]
    refine (occasion.silent_dropLastByteRoles callback _).muted.cut_bind fun _ => ?_
    refine hmove.cut_bind fun _ => ?_
    exact (Silent.muted (Alike.ite (occasion.silent_catchUp callback _) (alike_pure ()))).cut_bind
      fun _ => hresolve

end Steps

end Occasion

/-- The same session with another caller. -/
def Session.withCaller {σ τ : Type} (session : Session σ) (caller : τ) : Session τ where
  stream := session.stream
  scratch := session.scratch
  caller := caller
  journal := session.journal

namespace Occasion

variable {σ τ : Type} {occasion : Occasion σ} {plan : Plan} {session : Session σ}
  {callback : τ → Nat → ReportId → Control × τ}

/-- What stands nowhere before the last place stands last. -/
theorem eq_nil_of_append_singleton {α : Type} {xs first later : List α} {last x : α}
    (h : xs ++ [last] = first ++ x :: later) (hnew : x ∉ xs) : later = [] := by
  rcases List.eq_nil_or_concat later with rfl | ⟨later, y, rfl⟩
  · rfl
  · have hsplit : xs ++ [last] = (first ++ x :: later) ++ [y] := by simpa using h
    have hxs := (List.append_inj' hsplit rfl).1
    exact absurd (by simp [hxs]) hnew

namespace Suits

variable (h : occasion.Suits plan session)
  (honest : ∀ automaton ∈ plan.automata, automaton.IsHonest) (hquiet : occasion.IsQuiet)
include h honest hquiet

/-- Two callers get the same calls until one of them halts, and this ends its pass. -/
theorem exists_calls_of_callers (caller : τ) :
    ∃ (next : Session σ) (calls : List (Nat × ReportId)),
      occasion.perform session = .ok .proceed next
      ∧ next.answers = session.answers ++ calls.map proceeded
      ∧ ((IsContent callback caller calls ∧ ∃ last,
          (occasion.withCallback callback).perform (session.withCaller caller) = .ok .proceed last
            ∧ last.answers = session.answers ++ calls.map proceeded
            ∧ last.caller = hear callback caller calls)
        ∨ ∃ first call later, calls = first ++ call :: later ∧ IsContent callback caller first
          ∧ (callback (hear callback caller first) call.1 call.2).1 = .halt ∧ ∃ last,
          (occasion.withCallback callback).perform (session.withCaller caller) = .ok .halt last
            ∧ last.answers = session.answers
              ++ (first.map proceeded ++ [(call.1, call.2, .halt)])
            ∧ last.caller = hear callback caller (first ++ [call])) := by
  cases hidle : occasion.isIdle with
  | true =>
    have hidle' : (occasion.withCallback callback).isIdle = true := hidle
    exact ⟨session, [], perform_eq_of_isIdle hidle, (List.append_nil _).symm, .inl ⟨trivial,
      session.withCaller caller, perform_eq_of_isIdle hidle', (List.append_nil _).symm, rfl⟩⟩
  | false =>
    have hidle' : (occasion.withCallback callback).isIdle = false := hidle
    have hsound := h.isSound_anywhere session.journal
    obtain ⟨control, next, hbody, hends⟩ := ends_body hsound (admitsTail_anywhere ..)
      (ready_start h.stream h.scratch rfl)
    have hcut : CutControl callback occasion.body (occasion.withCallback callback).body :=
      cut_body hquiet hsound.safe hsound.engine
    obtain ⟨calls, hanswers, hhalted, hcases⟩ := hcut (occasion.start session) caller rfl
    rw [hbody] at hanswers hhalted hcases
    have hproceed : control = .proceed := by
      cases control with
      | proceed => rfl
      | halt =>
        have hon := hends.2 fun slot hslot =>
          honest _ (Plan.automaton_mem_of_build h.built hslot)
        rw [show next.halted = false from hhalted] at hon
        cases hon
    subst hproceed
    refine ⟨next.toSession, calls, perform_eq_of_body hidle h.size hbody, hanswers, ?_⟩
    rcases hcases with ⟨hcontent, hsame⟩ | ⟨first, call, later, hcalls, hcontent, hhalt, answer,
      last, hstop, rfl, -, hlog, hcaller⟩
    · exact .inl ⟨hcontent, _, perform_eq_of_body hidle' h.size hsame, hanswers, rfl⟩
    · exact .inr ⟨first, call, later, hcalls, hcontent, hhalt, last.toSession,
        perform_eq_of_body hidle' h.size hstop, hlog, hcaller⟩

/-- A pass for a caller who never halts makes some calls. A caller who halts at its `n`-th call gets
the first `n` of them, and the answer is a halt if there are so many. No caller gets a call after
one that it answered with a halt. -/
theorem perform_of_halt (caller : τ) :
    ∃ (next : Session σ) (calls : List (Nat × ReportId)),
      occasion.perform session = .ok .proceed next
      ∧ next.answers = session.answers ++ calls.map proceeded
      ∧ ∃ control last answers,
        (occasion.withCallback callback).perform (session.withCaller caller) = .ok control last
          ∧ last.answers = session.answers ++ answers
          ∧ last.caller = hear callback caller (answers.map callOf)
          ∧ (∀ first offset id later, answers = first ++ (offset, id, .halt) :: later → later = [])
          ∧ ∀ n, 1 ≤ n → HaltsAt callback caller n →
            answers.map callOf = calls.take n
              ∧ control = if n ≤ calls.length then .halt else .proceed := by
  obtain ⟨next, calls, hquietly, hanswers, hcases⟩ :=
    @exists_calls_of_callers _ _ _ _ _ callback h honest hquiet caller
  refine ⟨next, calls, hquietly, hanswers, ?_⟩
  rcases hcases with ⟨hcontent, last, hlast, hlog, hcaller⟩ | ⟨first, call, later, hcalls,
    hcontent, hhalt, last, hlast, hlog, hcaller⟩
  · refine ⟨.proceed, last, calls.map proceeded, hlast, hlog, ?_, ?_, ?_⟩
    · rwa [map_callOf_proceeded]
    · intro first offset id later hsplit
      have hmem : (offset, id, .halt) ∈ calls.map proceeded := by simp [hsplit]
      exact absurd rfl (ne_halt_of_mem_proceeded hmem)
    · intro n hpos hhalts
      have hlt := hcontent.length_lt hpos hhalts
      rw [map_callOf_proceeded, List.take_of_length_le (Nat.le_of_lt hlt),
        if_neg (Nat.not_le.2 hlt)]
      exact ⟨rfl, rfl⟩
  · have hmap : (first.map proceeded ++ [(call.1, call.2, Control.halt)]).map callOf
        = first ++ [call] := by
      rw [List.map_append, map_callOf_proceeded]
      rfl
    refine ⟨.halt, last, _, hlast, hlog, ?_, ?_, ?_⟩
    · rwa [hmap]
    · intro before offset id after hsplit
      refine eq_nil_of_append_singleton hsplit fun hmem => ?_
      exact ne_halt_of_mem_proceeded hmem rfl
    · intro n hpos hhalts
      have hlt := hcontent.length_lt hpos hhalts
      have hn : first.length + 1 = n := (hhalts first call.1 call.2 hlt).1 hhalt
      have htake : calls.take n = first ++ [call] := by
        rw [hcalls, ← hn, List.take_length_add_append]
        rfl
      have hle : n ≤ calls.length := by
        rw [hcalls, ← hn]
        simp
      rw [hmap, htake, if_pos hle]
      exact ⟨rfl, rfl⟩

end Suits

end Occasion

theorem Occasion.Suits.perform_of_halt_at_second_call :
    ∃ engine scratch, Plan.sample.build = .ok engine
      ∧ let quiet := Plan.sampleOccasion engine .block fun reports _ id => (.proceed, id :: reports)
        let second := quiet.withCallback fun (count : Nat) _ _ =>
          (if count = 1 then .halt else .proceed, count + 1)
        ∃ (next : Session (List ReportId)) (last : Session Nat) (calls : List (Nat × ReportId)),
          quiet.perform ⟨.initial engine, scratch, [], []⟩ = .ok .proceed next
          ∧ next.answers = calls.map proceeded
          ∧ second.perform ⟨.initial engine, scratch, 0, []⟩
            = .ok (if 2 ≤ calls.length then .halt else .proceed) last
          ∧ last.answers.map callOf = calls.take 2 := by
  obtain ⟨engine, scratch, hsuits⟩ := Plan.exists_suits_sample
  have h := hsuits .block fun reports _ id => (.proceed, id :: reports)
  have honest : ∀ automaton ∈ Plan.sample.automata, automaton.IsHonest := by
    intro automaton hautomaton
    rw [List.mem_singleton.1 hautomaton]
    exact Automaton.isHonest_latch _
  let callback (count _ : Nat) (_ : ReportId) : Control × Nat :=
    (if count = 1 then .halt else .proceed, count + 1)
  have hcount (calls : List (Nat × ReportId)) (count : Nat) :
      hear callback count calls = count + calls.length := by
    induction calls generalizing count with
    | nil => rfl
    | cons call calls ih => exact (ih (count + 1)).trans (by rw [List.length_cons]; omega)
  have hhalts : HaltsAt callback 0 2 := by
    intro calls offset id hlt
    rw [hcount, Nat.zero_add]
    by_cases hone : calls.length = 1 <;> simp [callback, hone]
  obtain ⟨next, calls, hquiet, hnext, control, last, answers, hperform, hanswers, -, -, hcut⟩ :=
    @perform_of_halt _ _ _ _ _ callback h honest (fun _ _ _ => rfl) 0
  obtain ⟨htake, hcontrol⟩ := hcut 2 (by decide) hhalts
  refine ⟨engine, scratch, h.built, next, last, calls, hquiet, hnext, ?_, ?_⟩
  · rw [← hcontrol]
    exact hperform
  · rw [hanswers]
    exact htake

end Multimatch
