import Mathlib
import Multimatch.Proofs.EndOfData.SecondWalk

/-!
# Roles that need the last byte

A role that needs the last byte is to be on, where a walk starts, only if the last byte switched it
on. Whether these roles are switched off depends on where the last literal ended, whichever it was,
and at the end of a stream this is not asked before the first walk. So the first walk finds such a
role on if the action of the end has switched it on, or else as it was, which counts in a whole
buffer only if the last literal ended with it; and the second walk finds it on if some action of the
scan has switched it on and some literal, maybe another one, ended where the data does
(`Occasion.lastByte_of_built`). Both walks can fire a role that the last byte did not switch on
(`Occasion.exists_stale_roles`).
-/

namespace Multimatch

open PassM

variable {σ : Type}

/-- Between two passes no literal ended. -/
structure Pass.SameLast (pass next : Pass σ) : Prop where
  lastEnd : next.lastEnd = pass.lastEnd

/-- Nor was any action put off or due. -/
structure Pass.Prompt (pass next : Pass σ) : Prop extends Pass.SameLast pass next where
  delayed : next.scratch.delayed = pass.scratch.delayed

instance : IsPreorder (Pass σ) Pass.SameLast where
  refl _ := ⟨rfl⟩
  trans _ _ _ h h' := ⟨h'.lastEnd.trans h.lastEnd⟩

instance : IsPreorder (Pass σ) Pass.Prompt where
  refl _ := ⟨⟨rfl⟩, rfl⟩
  trans _ _ _ h h' := ⟨⟨h'.lastEnd.trans h.lastEnd⟩, h'.delayed.trans h.delayed⟩

theorem Pass.SameStory.prompt {pass next : Pass σ} (h : Pass.SameStory pass next) :
    Pass.Prompt pass next := ⟨⟨h.lastEnd⟩, h.delayed⟩

theorem Pass.Aside.prompt {occasion : Occasion σ} {may : RoleId → Prop} {pass next : Pass σ}
    (h : Pass.Aside occasion may pass next) : Pass.Prompt pass next := ⟨⟨h.lastEnd⟩, h.delayed⟩

namespace PassM

/-- What a step does whoever the caller is, it keeps. -/
theorem Alike.keeps {α : Type} {R : Pass σ → Pass σ → Prop} {a b : PassM σ α} (h : Alike R a b) :
    Keeps R a := by
  intro pass answer next hrun
  obtain ⟨-, hrelated⟩ := h pass pass.caller
  rwa [hrun] at hrelated

end PassM

namespace Occasion

variable {occasion : Occasion σ}

/-! ## What an action leaves alone -/

theorem prompt_runAction (offset : Nat) (id : LiteralId) :
    Keeps Pass.Prompt (occasion.runAction offset id) := by
  unfold runAction
  cases occasion.engine.actions.find? id with
  | none => exact keeps_pure _
  | some action =>
    refine (keeps_note fun _ => ⟨⟨rfl⟩, rfl⟩).bind fun _ => Keeps.ite (keeps_pure _) ?_
    refine Keeps.andThen (Keeps.visitAll fun id _ => ?_) ?_
    · have hreport : Keeps (Pass.Aside occasion fun _ => False) (occasion.report offset id) :=
        aside_report offset id
      exact hreport.mono fun _ _ h => h.prompt
    · have hroles := (occasion.silent_switchAllOn occasion.callback action.roles).keeps
      have hqueues :=
        (occasion.sameRoles_triggerAll occasion.callback offset action.suffixes).keeps
      refine (hroles.mono fun _ _ h => h.prompt).bind fun _ => ?_
      refine (hqueues.mono fun _ _ h => h.toSameStory.prompt).bind fun _ => ?_
      exact (keeps_modify fun _ => ⟨⟨rfl⟩, rfl⟩).bind fun _ => keeps_pure _

/-- The action of the end is never put off. -/
theorem prompt_runEndEvent : Keeps Pass.Prompt occasion.runEndEvent := by
  unfold runEndEvent
  cases occasion.engine.endEvent? with
  | none => exact keeps_pure _
  | some id =>
    simp only [runOrDelay]
    cases occasion.engine.actions.find? id with
    | none => exact keeps_pure _
    | some action =>
      refine Keeps.get_bind fun _ => Keeps.ite (keeps_pure _) ?_
      rw [if_neg (by simp)]
      exact prompt_runAction _ id

theorem traced_runEndEvent : Keeps (Pass.Traced occasion) occasion.runEndEvent :=
  keeps_runEndEvent traced_runAction overlooks_traced.delayed

/-- While the roles are brought up to the end, nothing is put off and no group is switched off. -/
theorem sameDelayed_settleFirst {pass settled : Pass σ} {answer : Unit}
    (h : occasion.settleFirst pass = .ok answer settled) :
    settled.scratch.delayed = pass.scratch.delayed ∧ settled.groups = pass.groups := by
  unfold settleFirst settleBuffer at h
  cases hmode : occasion.mode with
  | streaming =>
    rw [hmode] at h
    cases h
    exact ⟨rfl, rfl⟩
  | block =>
    rw [hmode] at h
    obtain ⟨_, dropped, hdrop, h⟩ := exists_of_bind h
    obtain ⟨_, moved, hmove, hcatch⟩ := exists_of_bind h
    cases hmove
    have hdropped := (occasion.silent_dropLastByteRoles occasion.callback _).keeps hdrop
    have hsilent : Keeps Pass.SameStory
        (if occasion.engine.catchesUpTriggers then occasion.catchUp occasion.offset
          else pure ()) :=
      Keeps.ite (occasion.silent_catchUp occasion.callback _).keeps (keeps_pure ())
    have hcaught := hsilent hcatch
    exact ⟨hcaught.delayed.trans hdropped.delayed, hcaught.groups.trans hdropped.groups⟩

/-- The action of the end does not count as a literal, and is never put off. -/
theorem delayed_opening {pass walked : Pass σ}
    (h : occasion.opening pass = .ok .proceed walked) :
    walked.scratch.delayed = pass.scratch.delayed := by
  obtain ⟨settled, ran, hsettle, hrun, haside⟩ := exists_of_opening h
  have hsettled := (sameDelayed_settleFirst hsettle).1
  exact haside.delayed.trans ((prompt_runEndEvent hrun).delayed.trans hsettled)

/-! ## Where the last literal ended -/

theorem sameLast_runAction (offset : Nat) (id : LiteralId) :
    Keeps Pass.SameLast (occasion.runAction offset id) :=
  (prompt_runAction offset id).mono fun _ _ h => h.toSameLast

theorem sameLast_runDelayed (upTo : Nat) :
    Keeps Pass.SameLast (occasion.runDelayed upTo) :=
  keeps_runDelayed sameLast_runAction (fun _ _ => ⟨rfl⟩) upTo

theorem lastEnd_of_onLiteral {matchEnd : Nat} {id : LiteralId} {pass next : Pass σ}
    (h : occasion.onLiteral matchEnd id pass = .ok .proceed next) :
    next.lastEnd = occasion.dataStart + matchEnd := by
  obtain ⟨flushed, -, h⟩ := exists_of_andThen h
  obtain ⟨_, moved, hmove, h⟩ := exists_of_bind h
  cases hmove
  have hsame : Keeps Pass.SameLast (occasion.runOrDelay (occasion.dataStart + matchEnd) id false) :=
    keeps_runOrDelay sameLast_runAction (fun _ _ => ⟨rfl⟩) _ id false
  exact (hsame h).lastEnd

/-- After calls that were all taken in, the last literal ended with one of them. -/
theorem exists_call_of_exchange {pass last : Pass σ} {calls : List (Nat × LiteralId)}
    (h : occasion.sink.Exchange pass calls (.ok .proceed last)) :
    last = pass ∨ ∃ call ∈ calls, last.lastEnd = occasion.dataStart + call.1 := by
  generalize hend : (EStateM.Result.ok Control.proceed last :
    EStateM.Result Fault (Pass σ) Control) = result at h
  induction h with
  | silent pass =>
    cases hend
    exact .inl rfl
  | halted call => cases hend
  | faulted call => cases hend
  | next call _ ih =>
    right
    rcases ih hend with rfl | ⟨later, hlater, hlast⟩
    · exact ⟨_, List.mem_cons_self, lastEnd_of_onLiteral call⟩
    · exact ⟨later, List.mem_cons_of_mem _ hlater, hlast⟩

/-! ## What is switched off -/

theorem not_contains_of_switchAllOff {states : List Nat} {pass next : Pass σ} {answer : Unit}
    (h : switchAllOff states pass = .ok answer next) {flag : Nat} (hflag : flag ∈ states) :
    next.stream.roles.isOn flag = false := by
  induction states generalizing pass with
  | nil => cases hflag
  | cons state states ih =>
    obtain ⟨_, middle, herase, hrest⟩ := exists_of_bind h
    rcases List.mem_cons.1 hflag with rfl | hmem
    · have hoff : middle.stream.roles.isOn flag = false := by
        obtain ⟨roles, hroles, hset⟩ := exists_of_lift_bind herase
        cases hset
        exact FlagSet.isOn_eq_false_of_erase hroles
      have hlights : Pass.Lights (fun _ => False) True middle next :=
        lights_switchAllOff states hrest
      exact Bool.eq_false_iff.2 fun hon =>
        absurd ((hlights.roles flag hon).resolve_right id) (Bool.eq_false_iff.1 hoff)
    · exact ih hrest hmem

/-- A role that needs the last byte stays on only if the last literal ended at the offset. -/
theorem lastEnd_eq_of_dropLastByteRoles {offset : Nat} {pass next : Pass σ} {answer : Unit}
    (h : occasion.dropLastByteRoles offset pass = .ok answer next) {flag : Nat}
    (hflag : flag ∈ occasion.engine.lastByteStates)
    (hon : next.stream.roles.isOn flag = true) : pass.lastEnd = offset := by
  by_contra hne
  obtain ⟨_, _, hget, h⟩ := exists_of_bind h
  cases hget
  rw [if_pos hne] at h
  exact Bool.false_ne_true ((not_contains_of_switchAllOff h hflag).symm.trans hon)

/-- Without triggers, looking for them switches nothing on. -/
theorem contains_of_catchUp (hnone : occasion.engine.triggers = []) {upTo : Nat}
    {pass next : Pass σ} {answer : Unit} (h : occasion.catchUp upTo pass = .ok answer next)
    {flag : Nat} (hon : next.stream.roles.isOn flag = true) :
    pass.stream.roles.isOn flag = true := by
  have henabled : pass.scratch.enabled
      = occasion.enabledTriggers pass.groups pass.scratch.enabled := by
    simp [enabledTriggers, hnone]
  refine ((lights_catchUp henabled h).roles flag hon).resolve_right ?_
  rintro ⟨trigger, htrigger, -⟩
  rw [hnone] at htrigger
  cases htrigger

/-! ## The first walk -/

/-- The passes up to a first walk: where the roles were brought up to the end, where the action of
the end has been run, and where the active automata have been asked. -/
structure FirstWalk (occasion : Occasion σ) (session : Session σ) (settled ran asked : Pass σ) :
    Prop where
  settle : occasion.settleFirst (occasion.start session) = .ok () settled
  run : occasion.runEndEvent settled = .ok .proceed ran
  ask : occasion.askAllActive ran = .ok .proceed asked

section Walks

variable {session : Session σ} {settled ran asked : Pass σ}
  (hnone : occasion.engine.triggers = []) {flag : Nat}
include hnone

theorem contains_of_settleFirst
    (h : occasion.settleFirst (occasion.start session) = .ok () settled)
    (hflag : flag ∈ occasion.engine.lastByteStates)
    (hon : settled.stream.roles.isOn flag = true) :
    session.stream.roles.isOn flag = true
      ∧ (occasion.mode = .block → session.stream.lastEnd = occasion.offset) := by
  unfold settleFirst settleBuffer at h
  cases hmode : occasion.mode with
  | streaming =>
    rw [hmode] at h
    cases h
    exact ⟨hon, nofun⟩
  | block =>
    rw [hmode] at h
    obtain ⟨_, dropped, hdrop, h⟩ := exists_of_bind h
    obtain ⟨_, moved, hmove, hcatch⟩ := exists_of_bind h
    cases hmove
    have hdropped : Pass.Lights (fun _ => False) True (occasion.start session) dropped :=
      lights_dropLastByteRoles _ hdrop
    have hlit : dropped.stream.roles.isOn flag = true := by
      cases hcatches : occasion.engine.catchesUpTriggers with
      | false =>
        rw [hcatches] at hcatch
        cases hcatch
        exact hon
      | true =>
        rw [hcatches, if_pos rfl] at hcatch
        exact contains_of_catchUp hnone hcatch hon
    have hlast := lastEnd_eq_of_dropLastByteRoles hdrop hflag hlit
    rw [start, hmode] at hlast
    exact ⟨(hdropped.roles flag hlit).resolve_right id, fun _ => hlast⟩

theorem FirstWalk.lit_or_contains (h : occasion.FirstWalk session settled ran asked) :
    ∃ entries, ran.journal = entries ++ settled.journal
      ∧ ∀ flag ∈ occasion.engine.lastByteStates, asked.stream.roles.isOn flag = true →
        occasion.LitBy entries flag
        ∨ session.stream.roles.isOn flag = true
          ∧ (occasion.mode = .block → session.stream.lastEnd = occasion.offset) := by
  obtain ⟨entries, hjournal, hlit⟩ := (traced_runEndEvent h.run).lit
  have hasked : Pass.Aside occasion (fun _ => False) ran asked := aside_askAllActive h.ask
  refine ⟨entries, hjournal, fun flag hflag hon => ?_⟩
  rw [hasked.stream] at hon
  exact (hlit flag hon).symm.imp_right (contains_of_settleFirst hnone h.settle hflag)

end Walks

/-! ## The second walk -/

/-- The pass that the scan of the last bytes starts from, after a first walk. -/
def tailStart (occasion : Occasion σ) (walked : Pass σ) : Pass σ :=
  { walked with
    stream := { walked.stream with
      roles := walked.stream.roles.clear
      leaves := walked.stream.leaves.clear }
    scratch := occasion.cleared walked.groups walked.scratch
    caughtUpTo := occasion.dataStart }

theorem runDelayed_of_nil {upTo : Nat} {pass : Pass σ} (h : pass.scratch.delayed = []) :
    occasion.runDelayed upTo pass = .ok .proceed pass := by
  obtain ⟨⟨stream, scratch, caller, journal⟩, halted, groups, lastEnd, caughtUpTo⟩ := pass
  cases scratch
  subst h
  rfl

/-- A role that a scan of the last bytes leaves on was switched on after a literal had ended, and
the scan has told where the last one did. -/
theorem exists_call_of_scanTail {matcher : EndMatcher} (hsound : occasion.engine.IsSound)
    (hmatcher : occasion.engine.matcher? = some matcher) {walked scanned : Pass σ}
    (hempty : walked.scratch.delayed = [])
    (h : (do
      occasion.forget
      occasion.scanTail matcher) walked = .ok .proceed scanned) {flag : Nat}
    (hon : scanned.stream.roles.isOn flag = true) :
    ∃ calls, occasion.sink.Records (occasion.tailStart walked) calls
        (matcher.table.scan (occasion.tailInput matcher) occasion.sink)
        (matcher.table.scan (occasion.tailInput matcher) occasion.sink.recorded)
      ∧ ∃ call ∈ calls, scanned.lastEnd = occasion.dataStart + call.1 := by
  have hoff : (walked.stream.roles.clear).isOn flag = false := FlagSet.isOn_clear _ flag
  obtain ⟨_, forgotten, hforget, h⟩ := exists_of_bind h
  rw [forget_eq] at hforget
  cases hforget
  unfold scanTail at h
  split at h
  · cases h
    exact absurd (hoff.symm.trans hon) Bool.false_ne_true
  · obtain ⟨_, begun, hbegin, h⟩ := exists_of_bind h
    cases hbegin
    obtain ⟨middle, hscan, h⟩ := exists_of_andThen h
    obtain ⟨calls, hcalls, -, -⟩ :=
      exists_records hsound hmatcher (occasion.tailStart walked)
    have hscanned : matcher.table.scan (occasion.tailInput matcher) occasion.sink
      (occasion.tailStart walked) = .ok .proceed middle := hscan
    refine ⟨calls, hcalls, ?_⟩
    have hexchange := hcalls.exchange
    rw [hscanned] at hexchange
    obtain ⟨control, flushed, hflush, h⟩ := exists_of_bind h
    obtain ⟨_, emptied, hchange, h⟩ := exists_of_bind h
    cases hchange
    cases h
    rcases exists_call_of_exchange hexchange with rfl | ⟨call, hcall, hlast⟩
    · have hidle : occasion.runDelayed occasion.offset (occasion.tailStart walked)
          = .ok .proceed (occasion.tailStart walked) := runDelayed_of_nil hempty
      cases hidle.symm.trans hflush
      exact absurd (hoff.symm.trans hon) Bool.false_ne_true
    · exact ⟨call, hcall, (sameLast_runDelayed _ hflush).lastEnd.trans hlast⟩

/-- A role that needs the last byte is on before the second walk only if the scan ran an action
that switched it on, and some literal ended where the data does. -/
theorem SecondWalk.lit_and_exists_call {matcher : EndMatcher} (hsound : occasion.engine.IsSound)
    (hmatcher : occasion.engine.matcher? = some matcher) (hnone : occasion.engine.triggers = [])
    {walked scanned settled next : Pass σ} {control : Control}
    (hempty : walked.scratch.delayed = [])
    (h : occasion.SecondWalk matcher walked scanned settled control next) :
    ∃ entries, scanned.journal = entries ++ walked.journal
      ∧ ∀ flag ∈ occasion.engine.lastByteStates, settled.stream.roles.isOn flag = true →
        occasion.LitBy entries flag
        ∧ ∃ calls, occasion.sink.Records (occasion.tailStart walked) calls
            (matcher.table.scan (occasion.tailInput matcher) occasion.sink)
            (matcher.table.scan (occasion.tailInput matcher) occasion.sink.recorded)
          ∧ ∃ call ∈ calls, occasion.dataStart + call.1 = occasion.offset := by
  obtain ⟨entries, hjournal, hlit⟩ := h.exists_lit hsound hmatcher
  refine ⟨entries, hjournal, fun flag hflag hon => ⟨(hlit flag hon).resolve_right ?_, ?_⟩⟩
  · rintro ⟨trigger, htrigger, -⟩
    rw [hnone] at htrigger
    cases htrigger
  · obtain ⟨_, dropped, hdrop, hcatch⟩ := exists_of_bind h.settle
    have hstays := contains_of_catchUp hnone hcatch hon
    have hlast := lastEnd_eq_of_dropLastByteRoles hdrop hflag hstays
    have hdropped : Pass.Lights (fun _ => False) True scanned dropped :=
      lights_dropLastByteRoles _ hdrop
    have hscanned := (hdropped.roles flag hstays).resolve_right id
    obtain ⟨calls, hcalls, call, hcall, hend⟩ :=
      exists_call_of_scanTail hsound hmatcher hempty h.scan hscanned
    exact ⟨calls, hcalls, call, hcall, hend.symm.trans hlast⟩

end Occasion

/-! ## A role that lags behind -/

/-- A role that needs the last byte, which an `a` switches on. A `b` switches on nothing. -/
def Plan.lagging : Plan := { sampleWith none none with
  roles := [{ report := .wrap 3, state? := some 0, needsLastByte := true }]
  predicates := [⟨.lastByte⟩]
  walk := [⟨0, [⟨.wrap 0, some (.wrap 0)⟩]⟩]
  actions := [(.wrap 7, { roles := [.wrap 0] }), (.wrap 8, {})]
  roles_le := by decide
  predicates_le := by decide }

theorem Plan.exists_build_lagging : ∃ engine, lagging.build = .ok engine := by
  obtain ⟨table, htable⟩ := exists_table_sample
  have hmatcher : lagging.buildMatcher sampleLiterals 8 = .ok ⟨table, 1, 8⟩ :=
    buildMatcher_eq_ok_iff.2 ⟨by decide, by decide, table, htable, rfl⟩
  refine ⟨_, build_eq_ok_iff.2 ⟨?_, ?_, ?_, nofun, _, ⟨_, hmatcher, rfl⟩, rfl, rfl⟩⟩
  · exact checkAll_eq_ok_iff.1 rfl
  · exact checkAll_eq_ok_iff.1 rfl
  · exact checkAll_eq_ok_iff.1 rfl

/-- The end of `ab` in a stream of five bytes. -/
def Plan.laggingOccasion (engine : Engine) : Occasion (List ReportId) :=
  sampleOccasion engine .streaming fun reports _ id => (.proceed, id :: reports)

theorem Plan.exists_secondWalk_lagging {engine : Engine} (hbuild : lagging.build = .ok engine)
    {scratch : Scratch} (hfresh : Scratch.fresh engine = .ok scratch) {matcher : EndMatcher}
    (hmatcher : engine.matcher? = some matcher) :
    let occasion := laggingOccasion engine
    ∃ walked scanned settled next,
      occasion.opening (occasion.start ⟨.initial engine, scratch, [], []⟩) = .ok .proceed walked
        ∧ occasion.SecondWalk matcher walked scanned settled .proceed next := by
  intro occasion
  have hwidth (width : Nat) (hmax : engine.maxWidth? = some width) : occasion.offset ≤ width := by
    obtain ⟨-, -, -, -, matcher?, -, -, rfl⟩ := build_eq_ok_iff.1 hbuild
    cases hmax
  have hsize : occasion.data.size ≤ occasion.offset := show 2 ≤ 5 by decide
  obtain ⟨walked, scanned, settled, next, -, hopening, hsecond, -⟩ :=
    @Occasion.exists_whole_pass _ occasion _ hbuild _ hmatcher (fun _ _ _ => rfl) hwidth hsize
      isSafe_and_isHonest_sample _ (Session.suited_initial hbuild (by decide) hfresh)
  exact ⟨walked, scanned, settled, next, hopening, hsecond⟩

namespace Occasion

variable {occasion : Occasion σ}

/-! ## What a walk finds on -/

/-- For an engine without triggers, a role that needs the last byte is on where the first walk
starts only if the action of the end has switched it on, or if it was on before, and the last
literal ended with a whole buffer. It is on where the second walk starts only if the scan of the
last bytes ran an action that switched it on, and called for some literal that ends where the data
does. -/
theorem lastByte_of_built {plan : Plan} (hbuild : plan.build = .ok occasion.engine)
    (hnone : occasion.engine.triggers = []) (session : Session σ) :
    (∀ settled ran asked, occasion.FirstWalk session settled ran asked →
      ∃ entries, ran.journal = entries ++ settled.journal
        ∧ ∀ flag ∈ occasion.engine.lastByteStates, asked.stream.roles.isOn flag = true →
          occasion.LitBy entries flag
          ∨ session.stream.roles.isOn flag = true
            ∧ (occasion.mode = .block → session.stream.lastEnd = occasion.offset))
    ∧ (∀ matcher, occasion.engine.matcher? = some matcher →
      ∀ walked, occasion.opening (occasion.start session) = .ok .proceed walked →
      ∀ scanned settled control next,
        occasion.SecondWalk matcher walked scanned settled control next →
        ∃ entries, scanned.journal = entries ++ walked.journal
          ∧ ∀ flag ∈ occasion.engine.lastByteStates, settled.stream.roles.isOn flag = true →
            occasion.LitBy entries flag
            ∧ ∃ calls, occasion.sink.Records (occasion.tailStart walked) calls
                (matcher.table.scan (occasion.tailInput matcher) occasion.sink)
                (matcher.table.scan (occasion.tailInput matcher) occasion.sink.recorded)
              ∧ ∃ call ∈ calls, occasion.dataStart + call.1 = occasion.offset) := by
  constructor
  · intro settled ran asked h
    exact h.lit_or_contains hnone
  · intro matcher hmatcher walked hopening scanned settled control next h
    exact h.lit_and_exists_call (Plan.isSound_of_build hbuild) hmatcher hnone
      (delayed_opening hopening)

/-- The walks at the end of `ab` in a stream, over states for which nothing has happened yet. -/
theorem lastByte_of_built_lagging :
    ∃ engine scratch matcher, Plan.lagging.build = .ok engine ∧ Scratch.fresh engine = .ok scratch
      ∧ engine.matcher? = some matcher ∧ engine.triggers = [] ∧ engine.lastByteStates = [0]
      ∧ let occasion := Plan.laggingOccasion engine
        let session : Session (List ReportId) := ⟨.initial engine, scratch, [], []⟩
        (∃ settled ran asked, occasion.FirstWalk session settled ran asked
          ∧ ∃ entries, ran.journal = entries ++ settled.journal
            ∧ (asked.stream.roles.isOn 0 = true →
              occasion.LitBy entries 0 ∨ session.stream.roles.isOn 0 = true))
        ∧ ∃ walked scanned settled next,
          occasion.opening (occasion.start session) = .ok .proceed walked
            ∧ occasion.SecondWalk matcher walked scanned settled .proceed next
            ∧ ∃ entries, scanned.journal = entries ++ walked.journal
              ∧ (settled.stream.roles.isOn 0 = true → occasion.LitBy entries 0
                ∧ ∃ calls, occasion.sink.Records (occasion.tailStart walked) calls
                    (matcher.table.scan (occasion.tailInput matcher) occasion.sink)
                    (matcher.table.scan (occasion.tailInput matcher) occasion.sink.recorded)
                  ∧ ∃ call ∈ calls, 3 + call.1 = 5) := by
  obtain ⟨engine, hbuild⟩ := Plan.exists_build_lagging
  obtain ⟨matcher, hmatcher, -⟩ := Plan.exists_serves_of_build hbuild rfl
  obtain ⟨-, -, -, -, matcher?, -, -, rfl⟩ := Plan.build_eq_ok_iff.1 hbuild
  refine ⟨_, _, _, hbuild, rfl, hmatcher, rfl, rfl, ?_⟩
  intro occasion session
  obtain ⟨hfirst, hsecond⟩ := @lastByte_of_built _ occasion _ hbuild rfl session
  constructor
  · have hleaves := FlagSet.isSized_empty (Plan.isSound_of_build hbuild).slots_le_maxCapacity
    have hnone := @askAllActive_of_none _ occasion (occasion.start session) _ hleaves.members_eq
      fun queue => FlagSet.isOn_empty _ queue
    have hwalk : occasion.FirstWalk session (occasion.start session) (occasion.start session)
        (occasion.start session) := ⟨rfl, rfl, hnone⟩
    obtain ⟨entries, hjournal, hlit⟩ := hfirst _ _ _ hwalk
    refine ⟨_, _, _, hwalk, entries, hjournal, fun hon => ?_⟩
    exact (hlit 0 List.mem_cons_self hon).imp_right And.left
  · obtain ⟨walked, scanned, settled, next, hopening, hwalk⟩ :=
      Plan.exists_secondWalk_lagging hbuild rfl hmatcher
    obtain ⟨entries, hjournal, hlit⟩ := hsecond _ hmatcher _ hopening _ _ _ _ hwalk
    exact ⟨walked, scanned, settled, next, hopening, hwalk, entries, hjournal,
      hlit 0 List.mem_cons_self⟩

/-- At the end of `ab` in a stream the first walk finds the role on that was on at offset 3, and the
second one finds it on as the `a` has left it, which ends at offset 4. -/
theorem exists_stale_roles :
    ∃ engine scratch matcher, Plan.lagging.build = .ok engine ∧ Scratch.fresh engine = .ok scratch
      ∧ engine.matcher? = some matcher ∧ engine.triggers = [] ∧ engine.lastByteStates = [0]
      ∧ let occasion := Plan.laggingOccasion engine
        let stream := { StreamState.initial engine with roles := ⟨1, [1]⟩, lastEnd := 3 }
        let lit : Session (List ReportId) := ⟨stream, scratch, [], []⟩
        let dark : Session (List ReportId) := ⟨.initial engine, scratch, [], []⟩
        (∃ settled ran asked, occasion.FirstWalk lit settled ran asked
          ∧ ran.journal = settled.journal ∧ asked.stream.roles.isOn 0 = true)
        ∧ ∃ walked scanned settled next,
          occasion.opening (occasion.start dark) = .ok .proceed walked
            ∧ occasion.SecondWalk matcher walked scanned settled .proceed next
            ∧ walked.journal = [] ∧ scanned.journal = [.acted 5 (.wrap 8), .acted 4 (.wrap 7)]
            ∧ (∀ action, engine.actions.find? (.wrap 8) = some action → action.roles = [])
            ∧ settled.stream.roles.isOn 0 = true := by
  obtain ⟨engine, hbuild⟩ := Plan.exists_build_lagging
  obtain ⟨matcher, hmatcher, hregion, hserves⟩ := Plan.exists_serves_of_build hbuild rfl
  obtain ⟨-, -, -, -, matcher?, -, -, rfl⟩ := Plan.build_eq_ok_iff.1 hbuild
  refine ⟨_, _, _, hbuild, rfl, hmatcher, rfl, rfl, ?_⟩
  intro occasion stream lit dark
  constructor
  · have hleaves := FlagSet.isSized_empty (Plan.isSound_of_build hbuild).slots_le_maxCapacity
    have hnone := @askAllActive_of_none _ occasion (occasion.start lit) _ hleaves.members_eq
      fun queue => FlagSet.isOn_empty _ queue
    exact ⟨_, _, _, ⟨rfl, rfl, hnone⟩, rfl, by cbv⟩
  · obtain ⟨walked, scanned, settled, next, hopening, hsecond⟩ :=
      Plan.exists_secondWalk_lagging hbuild rfl hmatcher
    have hinput : occasion.tailInput matcher = { buffer := #[97, 98] } := by
      rw [tailInput, hregion]
      rfl
    obtain ⟨_, forgotten, hforget, hscan⟩ := exists_of_bind hsecond.scan
    have hscanned : (do
        let _ ← occasion.opening
        occasion.forget
        occasion.scanTail matcher) (occasion.start dark) = .ok .proceed scanned :=
      (bind_eq hopening).trans hsecond.scan
    have hsettled : (do
        let _ ← occasion.opening
        occasion.forget
        let _ ← occasion.scanTail matcher
        occasion.dropLastByteRoles occasion.offset
        occasion.catchUp occasion.offset) (occasion.start dark) = .ok () settled :=
      (bind_eq hopening).trans ((bind_eq hforget).trans ((bind_eq hscan).trans hsecond.settle))
    -- The table is not known, but it reports what the naive scan does.
    rw [scanTail_eq_naive hserves, hserves.2.2, hinput] at hscanned hsettled
    have hwalked := congrArg (Session.journal ∘ Pass.toSession ∘ after) hopening
    have hjournal := congrArg (Session.journal ∘ Pass.toSession ∘ after) hscanned
    have hon := congrArg (fun result => (after result).stream.roles.isOn 0) hsettled
    refine ⟨walked, scanned, settled, next, hopening, hsecond, hwalked.symm.trans ?_,
      hjournal.symm.trans ?_, ?_, hon.symm.trans ?_⟩
    · cbv
    · cbv
    · rintro action ⟨⟩
      rfl
    · cbv

end Occasion

end Multimatch
