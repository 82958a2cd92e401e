import Multimatch.Proofs.EndOfData.Pending

/-!
# What the second walk fires

The second walk starts from the roles that were switched on after everything pending was forgotten.
Only two things switch roles on there: actions that the scan of the last bytes runs, and triggers of
live groups whose byte is in the data. So every role that the second walk fires can be traced back
to one of them (`Occasion.cause_of_fired`). A trigger that had its role fired by the first walk has
it fired again (`Occasion.exists_fired_twice`).
-/

namespace Multimatch

open PassM

variable {σ : Type}

namespace Occasion

/-- An action that was run switches the flag on. -/
def LitBy (occasion : Occasion σ) (entries : List JournalEntry) (flag : Nat) : Prop :=
  ∃ offset id action, .acted offset id ∈ entries
    ∧ occasion.actionOf (offset, id) = some action ∧ occasion.engine.FlagsOf action.roles flag

/-- A trigger of a live group whose byte is in the data switches the flag on. -/
def PulledBy (occasion : Occasion σ) (groups : Groups) (flag : Nat) : Prop :=
  ∃ trigger ∈ occasion.engine.triggers, trigger.groups.meets groups = true
    ∧ trigger.byte ∈ occasion.data ∧ occasion.engine.FlagOf trigger.role flag

/-- The passes between which a pass comes to the end of its second walk: where the first walk ended,
where the scan of the last bytes did, and where the roles were brought up to the end. -/
structure SecondWalk (occasion : Occasion σ) (matcher : EndMatcher)
    (walked scanned settled : Pass σ) (control : Control) (next : Pass σ) : Prop where
  scan : (do
    occasion.forget
    occasion.scanTail matcher) walked = .ok .proceed scanned
  settle : (do
    occasion.dropLastByteRoles occasion.offset
    occasion.catchUp occasion.offset) scanned = .ok () settled
  walk : occasion.walk settled = .ok control next

end Occasion

/-! ## Actions -/

/-- Between two passes roles were switched on only by actions that were run. -/
structure Pass.Traced (occasion : Occasion σ) (pass next : Pass σ) : Prop where
  enabled : next.scratch.enabled = pass.scratch.enabled
  lit : ∃ entries, next.journal = entries ++ pass.journal
    ∧ ∀ flag, next.stream.roles.isOn flag = true →
      pass.stream.roles.isOn flag = true ∨ occasion.LitBy entries flag

namespace Occasion

variable {occasion : Occasion σ}

theorem LitBy.mono {entries more : List JournalEntry} {flag : Nat}
    (h : occasion.LitBy entries flag) (hmore : ∀ entry ∈ entries, entry ∈ more) :
    occasion.LitBy more flag := by
  obtain ⟨offset, id, action, hacted, hlit⟩ := h
  exact ⟨offset, id, action, hmore _ hacted, hlit⟩

end Occasion

instance {occasion : Occasion σ} : IsPreorder (Pass σ) (Pass.Traced occasion) where
  refl _ := ⟨rfl, [], rfl, fun _ => .inl⟩
  trans := by
    rintro pass middle next ⟨henabled, first, hfirst, hlit⟩ ⟨henabled', second, hsecond, hlit'⟩
    refine ⟨henabled'.trans henabled, second ++ first, ?_, ?_⟩
    · rw [hsecond, hfirst, List.append_assoc]
    · intro flag hflag
      rcases hlit' flag hflag with hon | hby
      · refine (hlit flag hon).imp_right fun hby => ?_
        exact hby.mono fun _ => List.mem_append_right second
      · exact .inr (hby.mono fun _ => List.mem_append_left first)

namespace Occasion

variable {occasion : Occasion σ}

/-- An action that does something notes that it is run, and its roles are switched on after that. -/
theorem traced_runAction (offset : Nat) (id : LiteralId) :
    Keeps (Pass.Traced occasion) (occasion.runAction offset id) := by
  intro pass answer next hrun
  unfold runAction at hrun
  cases hfind : occasion.engine.actions.find? id with
  | none =>
    simp only [hfind] at hrun
    cases hrun
    exact refl_of (Pass.Traced occasion) pass
  | some action =>
    simp only [hfind] at hrun
    obtain ⟨_, noted, hnote, hrun⟩ := exists_of_bind hrun
    cases hnote
    by_cases hidle : action.onlyAtEnd ∧ offset ≠ occasion.offset
    · rw [if_pos hidle] at hrun
      cases hrun
      exact ⟨rfl, [.acted offset id], rfl, fun _ => .inl⟩
    · rw [if_neg hidle] at hrun
      have haction : occasion.actionOf (offset, id) = some action := by
        rw [actionOf, hfind, Option.filter_some, if_pos (decide_eq_true hidle)]
      have hlights := lights_reports_settle offset action hrun
      obtain ⟨entries, hjournal⟩ := hlights.journal
      refine ⟨hlights.enabled, entries ++ [.acted offset id], ?_, ?_⟩
      · rw [hjournal, List.append_assoc]
        rfl
      · intro flag hflag
        refine (hlights.roles flag hflag).imp_right fun hroles => ?_
        have hacted : .acted offset id ∈ entries ++ [.acted offset id] := List.mem_concat_self
        exact ⟨offset, id, action, hacted, haction, hroles⟩

theorem overlooks_traced : Overlooks (Pass.Traced occasion) where
  delayed _ _ := ⟨rfl, [], rfl, fun _ => .inl⟩
  lastEnd _ _ := ⟨rfl, [], rfl, fun _ => .inl⟩
  caughtUpTo _ _ := ⟨rfl, [], rfl, fun _ => .inl⟩

/-- The scan of the last bytes switches roles on only by actions that it runs. -/
theorem traced_scanTail (hsound : occasion.engine.IsSound) {matcher : EndMatcher}
    (hmatcher : occasion.engine.matcher? = some matcher) :
    Keeps (Pass.Traced occasion) (occasion.scanTail matcher) :=
  keeps_scanTail traced_runAction overlooks_traced hsound hmatcher

/-! ## Triggers -/

/-- Whether a trigger is enabled is whether some group of it is live. -/
theorem meets_of_mem_enabledTriggers {groups : Groups} {enabled : List Bool} {trigger : Trigger}
    (h : (trigger, true) ∈ occasion.engine.triggers.zip (occasion.enabledTriggers groups enabled)) :
    trigger.groups.meets groups = true := by
  unfold enabledTriggers at h
  generalize occasion.engine.triggers = triggers at h
  induction triggers generalizing enabled with
  | nil => cases h
  | cons first triggers ih =>
    cases enabled with
    | nil => cases h
    | cons on enabled =>
      rcases List.mem_cons.1 h with heq | hrest
      · obtain ⟨rfl, hmeets⟩ := Prod.mk.inj heq
        exact hmeets.symm
      · exact ih hrest

section Triggers

variable {groups : Groups} {pass next : Pass σ} {enabled : List Bool} {answer : Unit}
  (henabled : pass.scratch.enabled = occasion.enabledTriggers groups enabled)
include henabled

theorem lights_pullTriggers {start stop : Nat}
    (hrun : occasion.pullTriggers (occasion.data.extract start stop) pass = .ok answer next) :
    Pass.Lights (occasion.PulledBy groups) True pass next := by
  unfold pullTriggers at hrun
  obtain ⟨_, _, hget, hrun⟩ := exists_of_bind hrun
  cases hget
  obtain ⟨pulled, hpulled, hrun⟩ := exists_of_lift_bind hrun
  cases Engine.eq_of_pulled hpulled
  refine (lights_switchAllOn _ hrun).mono fun flag hflag => ?_
  obtain ⟨id, hid, hflag⟩ := hflag
  obtain ⟨trigger, hzip, hbyte, rfl⟩ := Engine.mem_pulledBy.1 hid
  rw [henabled] at hzip
  obtain ⟨place, _, hbyte⟩ := Array.mem_extract_iff_getElem.1 hbyte
  exact ⟨trigger, (List.of_mem_zip hzip).1, meets_of_mem_enabledTriggers hzip,
    Array.mem_of_getElem hbyte, hflag⟩

/-- Looking for triggers switches on roles of triggers of live groups whose byte is in the data. -/
theorem lights_catchUp {upTo : Nat} (hrun : occasion.catchUp upTo pass = .ok answer next) :
    Pass.Lights (occasion.PulledBy groups) True pass next := by
  have hmove : Keeps (Pass.Lights (occasion.PulledBy groups) True)
      (modify fun pass : Pass σ => { pass with caughtUpTo := max pass.caughtUpTo upTo }) := by
    refine keeps_modify fun pass => ?_
    have hrefl : Pass.Lights (occasion.PulledBy groups) True pass pass := .refl pass
    exact { hrefl with }
  unfold catchUp at hrun
  obtain ⟨_, _, hget, hrun⟩ := exists_of_bind hrun
  cases hget
  dsimp only at hrun
  split at hrun
  · obtain ⟨_, middle, hpulled, hrun⟩ := exists_of_bind hrun
    exact (lights_pullTriggers henabled hpulled).trans (hmove hrun)
  · exact hmove hrun

end Triggers

/-! ## The second walk -/

/-- What was pending is switched off, and triggers of live groups are enabled. -/
theorem forget_eq (pass : Pass σ) : occasion.forget pass = .ok () { pass with
    stream := { pass.stream with
      roles := pass.stream.roles.clear
      leaves := pass.stream.leaves.clear }
    scratch := occasion.cleared pass.groups pass.scratch } := rfl

section Walk

variable {matcher : EndMatcher} {walked scanned settled next : Pass σ} {control : Control}

/-- The roles that are on before the second walk were switched on by an action that the scan ran, or
by a trigger. -/
theorem SecondWalk.exists_lit (hsound : occasion.engine.IsSound)
    (hmatcher : occasion.engine.matcher? = some matcher)
    (h : occasion.SecondWalk matcher walked scanned settled control next) :
    ∃ entries, scanned.journal = entries ++ walked.journal
      ∧ ∀ flag, settled.stream.roles.isOn flag = true →
        occasion.LitBy entries flag ∨ occasion.PulledBy walked.groups flag := by
  obtain ⟨_, forgotten, hforget, hscan⟩ := exists_of_bind h.scan
  rw [forget_eq] at hforget
  cases hforget
  have htraced := traced_scanTail hsound hmatcher hscan
  obtain ⟨entries, hjournal, hlit⟩ := htraced.lit
  obtain ⟨_, dropped, hdrop, hcatch⟩ := exists_of_bind h.settle
  have hdropped : Pass.Lights (fun _ => False) True scanned dropped :=
    lights_dropLastByteRoles _ hdrop
  have hcaught := lights_catchUp (hdropped.enabled.trans htraced.enabled) hcatch
  refine ⟨entries, hjournal, fun flag hflag => ?_⟩
  rcases hcaught.roles flag hflag with hon | hpulled
  · rcases hlit flag ((hdropped.roles flag hon).resolve_right id) with hbefore | hby
    · exact absurd ((FlagSet.isOn_clear _ flag).symm.trans hbefore) Bool.false_ne_true
    · exact .inl hby
  · exact .inr hpulled

/-- What the second walk fires is reached from a role that an action of the scan or a trigger
switched on. -/
theorem SecondWalk.exists_cause (hsound : occasion.engine.IsSound)
    (hmatcher : occasion.engine.matcher? = some matcher)
    (h : occasion.SecondWalk matcher walked scanned settled control next) :
    ∃ entries noted, scanned.journal = entries ++ walked.journal
      ∧ next.journal = noted ++ settled.journal
      ∧ ∀ role, .fired role ∈ noted → ∃ stop ∈ occasion.engine.walk,
        (∃ entry ∈ stop.entries, entry.role = role)
          ∧ (occasion.LitBy entries stop.state ∨ occasion.PulledBy walked.groups stop.state) := by
  obtain ⟨entries, hscanned, hlit⟩ := h.exists_lit hsound hmatcher
  have hwalked : Pass.Walked occasion settled next := walked_walk h.walk
  obtain ⟨noted, hnoted, hfired⟩ := hwalked.journal
  refine ⟨entries, noted, hscanned, hnoted, fun role hrole => ?_⟩
  obtain ⟨stop, hstop, hon, hentry⟩ := hfired role hrole
  exact ⟨stop, hstop, hentry, hlit stop.state hon⟩

end Walk

theorem exists_secondWalk {matcher : EndMatcher} {walked last : Pass σ}
    (h : occasion.resolveTail matcher walked = .ok .proceed last) :
    ∃ scanned settled next, occasion.SecondWalk matcher walked scanned settled .proceed next
      ∧ occasion.finishSuffixes next = .ok .proceed last := by
  obtain ⟨_, forgotten, hforget, h⟩ := exists_of_bind h
  obtain ⟨scanned, hscan, h⟩ := exists_of_andThen h
  obtain ⟨_, dropped, hdrop, h⟩ := exists_of_bind h
  obtain ⟨_, settled, hcatch, h⟩ := exists_of_bind h
  obtain ⟨next, hwalk, hfinish⟩ := exists_of_andThen h
  exact ⟨scanned, settled, next, ⟨(bind_eq hforget).trans hscan, (bind_eq hdrop).trans hcatch,
    hwalk⟩, hfinish⟩

/-- A pass for a caller who never halts comes to the end of its second walk, if its offset is not
past the last that counts, and automata are safe and halt only if told. -/
theorem exists_whole_pass {plan : Plan} (hbuild : plan.build = .ok occasion.engine)
    {matcher : EndMatcher} (hmatcher : occasion.engine.matcher? = some matcher)
    (hquiet : occasion.IsQuiet)
    (hwidth : ∀ width, occasion.engine.maxWidth? = some width → occasion.offset ≤ width)
    (hsize : occasion.data.size ≤ occasion.offset)
    (hautomata : ∀ automaton ∈ plan.automata, automaton.IsSafe ∧ automaton.IsHonest)
    {session : Session σ} (hsuited : session.Suited occasion.engine) :
    ∃ walked scanned settled next last,
      occasion.opening (occasion.start session) = .ok .proceed walked
      ∧ occasion.SecondWalk matcher walked scanned settled .proceed next
      ∧ occasion.finishSuffixes next = .ok .proceed last
      ∧ occasion.perform session = .ok .proceed last.toSession := by
  have hidle := isIdle_eq_false hmatcher hwidth
  obtain ⟨_, hperform⟩ := exists_perform_eq_proceed hbuild hquiet hsize hsuited hautomata
  obtain ⟨walked, last, hopening, hrest, rfl⟩ := exists_opening hmatcher hidle hsize hperform
  obtain ⟨scanned, settled, next, hsecond, hfinish⟩ := exists_secondWalk hrest
  exact ⟨walked, scanned, settled, next, last, hopening, hsecond, hfinish, hperform⟩

/-- For an engine with a matcher, a role that is fired by the second walk, be it that the first walk
has fired it or not, is reached from a flag of a role that was switched on since: by an action that
the scan of the last bytes ran, or by a trigger of a live group whose byte is in the data. A pass
for a caller who never halts comes to the end of its second walk, if its offset is not past the last
that counts, and automata are safe and halt only if told. -/
theorem cause_of_fired {plan : Plan} (hbuild : plan.build = .ok occasion.engine)
    {matcher : EndMatcher} (hmatcher : occasion.engine.matcher? = some matcher) :
    (∀ walked scanned settled control next,
      occasion.SecondWalk matcher walked scanned settled control next →
      ∃ entries noted, scanned.journal = entries ++ walked.journal
        ∧ next.journal = noted ++ settled.journal
        ∧ ∀ role, .fired role ∈ noted → ∃ stop ∈ occasion.engine.walk,
          (∃ entry ∈ stop.entries, entry.role = role)
            ∧ (occasion.LitBy entries stop.state ∨ occasion.PulledBy walked.groups stop.state))
    ∧ (occasion.IsQuiet →
      (∀ width, occasion.engine.maxWidth? = some width → occasion.offset ≤ width) →
      occasion.data.size ≤ occasion.offset →
      (∀ automaton ∈ plan.automata, automaton.IsSafe ∧ automaton.IsHonest) →
      ∀ session : Session σ, session.Suited occasion.engine →
        ∃ walked scanned settled next last,
          occasion.opening (occasion.start session) = .ok .proceed walked
          ∧ occasion.SecondWalk matcher walked scanned settled .proceed next
          ∧ occasion.finishSuffixes next = .ok .proceed last
          ∧ occasion.perform session = .ok .proceed last.toSession) := by
  constructor
  · intro walked scanned settled control next h
    exact h.exists_cause (Plan.isSound_of_build hbuild) hmatcher
  · intro hquiet hwidth hsize hautomata session hsuited
    exact exists_whole_pass hbuild hmatcher hquiet hwidth hsize hautomata hsuited

/-- The second walk in the sample at the end of a stream. -/
theorem cause_of_fired_in_second_walk :
    ∃ engine scratch matcher, Plan.sample.build = .ok engine ∧ Scratch.fresh engine = .ok scratch
      ∧ engine.matcher? = some matcher
      ∧ let occasion := Plan.sampleOccasion engine .streaming fun reports _ id =>
          (.proceed, id :: reports)
        let session : Session (List ReportId) := ⟨.initial engine, scratch, [], []⟩
        ∃ walked scanned settled next,
          occasion.opening (occasion.start session) = .ok .proceed walked
            ∧ occasion.SecondWalk matcher walked scanned settled .proceed next
            ∧ ∃ entries noted, scanned.journal = entries ++ walked.journal
              ∧ next.journal = noted ++ settled.journal
              ∧ ∀ role, .fired role ∈ noted → ∃ stop ∈ engine.walk,
                (∃ entry ∈ stop.entries, entry.role = role)
                  ∧ (occasion.LitBy entries stop.state
                    ∨ occasion.PulledBy walked.groups stop.state) := by
  obtain ⟨engine, hbuild⟩ := Plan.exists_build_sample
  obtain ⟨matcher, hmatcher, -⟩ := Plan.exists_serves_of_build hbuild rfl
  obtain ⟨scratch, hfresh, -⟩ := Plan.exists_fresh_sample hbuild
  refine ⟨engine, scratch, matcher, hbuild, hfresh, hmatcher, ?_⟩
  intro occasion session
  have hwidth (width : Nat) (hmax : engine.maxWidth? = some width) : occasion.offset ≤ width := by
    rw [Plan.maxWidth_sample hbuild] at hmax
    cases hmax
  have hquiet : occasion.IsQuiet := fun _ _ _ => rfl
  have hsize : occasion.data.size ≤ occasion.offset := show 2 ≤ 5 by decide
  obtain ⟨hcause, hruns⟩ := @cause_of_fired _ occasion _ hbuild _ hmatcher
  obtain ⟨walked, scanned, settled, next, last, hopening, hsecond, -⟩ :=
    hruns hquiet hwidth hsize Plan.isSafe_and_isHonest_sample session
      (Session.suited_initial hbuild (by decide) hfresh)
  exact ⟨walked, scanned, settled, next, hopening, hsecond, hcause _ _ _ _ _ hsecond⟩

end Occasion

/-! ## A role that is fired twice -/

/-- The sample plan with a trigger, looked for in the whole buffer first, and no action at the
end. -/
def Plan.echo : Plan := { sampleWith none none with
  triggers := [⟨99, .wrap 0, Groups.all⟩]
  catchesUpTriggers := true }

theorem Plan.exists_build_echo : ∃ engine, echo.build = .ok engine := by
  have hevent : ∀ id, none = some id → (sample.actions.find? id).isSome = true := nofun
  obtain ⟨engine, hbuild⟩ := @exists_build_sampleWith _ none hevent
  obtain ⟨hroles, hwalk, hactions, hevent, matcher?, hmatcher, -, -⟩ := build_eq_ok_iff.1 hbuild
  exact ⟨_, build_eq_ok_iff.2 ⟨hroles, hwalk, hactions, hevent, matcher?, hmatcher, rfl, rfl⟩⟩

/-- In `c` no literal ends, and no action is run. But its trigger switches on its role once before
the first walk, and again before the second. -/
theorem Occasion.exists_fired_twice :
    ∃ engine scratch, Plan.echo.build = .ok engine ∧ Scratch.fresh engine = .ok scratch
      ∧ let occasion : Occasion (List ReportId) :=
          { engine, mode := .block, data := #[99], offset := 1,
            callback := fun reports _ id => (.proceed, id :: reports) }
        let session : Session (List ReportId) := ⟨.initial engine, scratch, [], []⟩
        let once : List JournalEntry := [.report 1 (.wrap 3) .proceed, .fired (.wrap 0)]
        (after (occasion.opening (occasion.start session))).journal = once
          ∧ (Outcome.of (occasion.perform session)).journal = once ++ once := by
  obtain ⟨engine, hbuild⟩ := Plan.exists_build_echo
  obtain ⟨matcher, hmatcher, hregion, hserves⟩ := Plan.exists_serves_of_build hbuild rfl
  obtain ⟨-, -, -, -, matcher?, -, -, rfl⟩ := Plan.build_eq_ok_iff.1 hbuild
  refine ⟨_, _, hbuild, rfl, ?_⟩
  intro occasion session once
  constructor
  · cbv
  · have hinput : occasion.tailInput matcher = { buffer := #[99] } := by
      rw [tailInput, hregion]
      rfl
    have hidle : occasion.isIdle = false := rfl
    have hsize : occasion.data.size ≤ occasion.offset := show 1 ≤ 1 by decide
    rw [perform_eq_closed hidle hsize, body_eq_opening hmatcher]
    unfold resolveTail
    rw [scanTail_eq_naive hserves, hserves.2.2, hinput]
    cbv

end Multimatch
