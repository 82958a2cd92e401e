import Mathlib
import Multimatch.Proofs.EndOfData.Modes
import Multimatch.Proofs.EndOfData.Phases

/-!
# What was pending is forgotten

Before the scan of the last bytes a pass forgets which roles are on and which automata are active.
So two passes that start with different roles, active automata and full states, but with the same
groups and short states, end alike from there on: with the same calls after the first walk, the same
roles and the same active automata (`Occasion.sameRest_of_pending`). Passes that do not come that
far leave what was pending as it was (`Occasion.exists_pending_left`).
-/

namespace Multimatch

open PassM

variable {σ : Type}

/-! ## Where passes start -/

/-- The states of a session have the sizes that the engine needs in every part. -/
structure Session.Suited (engine : Engine) (session : Session σ) : Prop where
  stream : session.stream.Fits engine
  scratch : session.scratch.Suited engine

theorem Session.suited_initial {plan : Plan} {engine : Engine} {scratch : Scratch} {caller : σ}
    {journal : List JournalEntry} (hbuild : plan.build = .ok engine)
    (hflags : plan.roleStates ≤ FlagSet.maxCapacity) (hfresh : Scratch.fresh engine = .ok scratch) :
    Session.Suited engine ⟨.initial engine, scratch, caller, journal⟩ := by
  have hsound := Plan.isSound_of_build hbuild
  have hstates : engine.roleStates ≤ FlagSet.maxCapacity :=
    Plan.roleStates_of_build hbuild ▸ hflags
  exact ⟨(StreamState.fits_initial_iff hsound).2 hstates, Scratch.suited_of_fresh hsound hfresh⟩

/-- Between two passes only roles were switched on or off. -/
def Pass.Rolled (pass next : Pass σ) : Prop :=
  ∃ roles, roles.SameShape pass.stream.roles
    ∧ next = { pass with stream := { pass.stream with roles } }

instance : IsPreorder (Pass σ) Pass.Rolled where
  refl pass := ⟨pass.stream.roles, .refl _, rfl⟩
  trans := by
    rintro pass _ _ ⟨roles, hroles, rfl⟩ ⟨roles', hroles', rfl⟩
    exact ⟨roles', hroles'.trans hroles, rfl⟩

/-- Nothing is known of what was pending, but triggers were looked for up to the same place. -/
def Stage.pending : Stage where
  near := False
  caught := True
  heard := False
  marked := False
  triggered _ := False

/-- Two passes that need not be over the same states, after what is in their journals. -/
def pendingLink (first second : List JournalEntry) : Link where
  same := False
  whole := False
  distance := 0
  first := first
  second := second

namespace Occasion

variable {occasion : Occasion σ} {first second : List JournalEntry}

theorem rolled_switchAllOff (states : List Nat) :
    Keeps Pass.Rolled (switchAllOff states : PassM σ Unit) := by
  induction states with
  | nil => exact keeps_pure ()
  | cons state states ih =>
    refine (keeps_changeRoles fun pass roles herase => ?_).bind fun _ => ih
    exact ⟨roles, FlagSet.sameShape_of_erase herase, rfl⟩

theorem rolled_dropLastByteRoles (offset : Nat) :
    Keeps Pass.Rolled (occasion.dropLastByteRoles offset) :=
  Keeps.get_bind fun _ => Keeps.ite (rolled_switchAllOff _) (keeps_pure ())

theorem compares_pending (hsound : occasion.engine.IsSound) (hquiet : occasion.IsQuiet)
    (hprepares : ∀ slot ∈ occasion.engine.slots, slot.automaton.PreparesAnew) :
    occasion.Compares occasion.mode (pendingLink first second) where
  engine := hsound
  start := Int64.add_zero _
  length := (Int64.add_zero _).symm
  calls := .inr hquiet
  prepares := .inr hprepares
  run slot _ := slot.automaton.ignoresStart_zero

section Start

variable {a b : Session σ} (ha : a.Suited occasion.engine) (hb : b.Suited occasion.engine)
  (hgroups : a.stream.groups = b.stream.groups) (hstored : a.stream.stored = b.stream.stored)
include ha hb hgroups hstored

/-- Passes that start with other roles are twins, once they agree on where the last literal
ended. -/
theorem twins_rolled {roles roles' : FlagSet} (hroles : roles.SameShape a.stream.roles)
    (hroles' : roles'.SameShape b.stream.roles) (lastEnd : Nat) :
    Pass.Twins occasion.engine (pendingLink a.journal b.journal) Stage.pending
      { occasion.start a with stream := { a.stream with roles }, lastEnd }
      { occasion.start b with stream := { b.stream with roles := roles' }, lastEnd } := by
  have hshape : a.stream.roles.SameShape b.stream.roles :=
    ha.stream.roles_sized.sameShape hb.stream.roles_sized
      (ha.stream.roles.trans hb.stream.roles.symm)
  have hleaves : a.stream.leaves.SameShape b.stream.leaves :=
    ha.stream.leaves_sized.sameShape hb.stream.leaves_sized
      (ha.stream.leaves.trans hb.stream.leaves.symm)
  have hscratch : (occasion.start a).scratch.Twins occasion.engine False 0
      (occasion.start b).scratch := by
    rw [start, start, hgroups]
    exact twins_start ha.scratch hb.scratch False.elim _
  exact
    { same := False.elim
      journal := ⟨[], rfl, rfl⟩
      roles := (hroles.trans hshape).trans hroles'.symm
      leaves := hleaves
      near := False.elim
      stored := hstored
      halted := rfl
      groups := hgroups
      lastEnd := rfl
      caughtUpTo := fun _ => rfl
      scratch := hscratch
      heard := False.elim
      marked := False.elim
      triggered := fun _ => False.elim }

/-- Where passes are brought up to the end of the data, whatever the last literal was, they become
twins. -/
theorem twins_settleFirst (hsound : occasion.engine.IsSound) (hquiet : occasion.IsQuiet)
    (hprepares : ∀ slot ∈ occasion.engine.slots, slot.automaton.PreparesAnew) {p q : Pass σ}
    (hp : occasion.settleFirst (occasion.start a) = .ok () p)
    (hq : occasion.settleFirst (occasion.start b) = .ok () q) :
    Pass.Twins occasion.engine (pendingLink a.journal b.journal) Stage.pending p q := by
  unfold settleFirst at hp hq
  cases hmode : occasion.mode with
  | streaming =>
    rw [hmode] at hp hq
    cases hp
    cases hq
    have htwins := @twins_rolled _ occasion _ _ ha hb hgroups hstored _ _ (.refl _) (.refl _)
      occasion.offset
    rw [start, start, hmode]
    rwa [start, start, hmode] at htwins
  | block =>
    rw [hmode] at hp hq
    obtain ⟨_, middle, hdrop, hp⟩ := exists_of_bind hp
    obtain ⟨_, middle', hdrop', hq⟩ := exists_of_bind hq
    obtain ⟨roles, hroles, rfl⟩ := rolled_dropLastByteRoles _ hdrop
    obtain ⟨roles', hroles', rfl⟩ := rolled_dropLastByteRoles _ hdrop'
    have htwins := twins_rolled ha hb hgroups hstored hroles hroles' occasion.offset
    have hcompares : occasion.Compares occasion.mode (pendingLink a.journal b.journal) :=
      compares_pending hsound hquiet hprepares
    have hcatch : Matched occasion.engine (pendingLink a.journal b.journal) Stage.pending
        Stage.pending
        (if occasion.engine.catchesUpTriggers then occasion.catchUp occasion.offset else pure ())
        (if occasion.engine.catchesUpTriggers then occasion.catchUp occasion.offset else pure ()) :=
      Matched.ite (matched_catchUp trivial _) (matched_pure ())
    exact (hcatch htwins).of_eq hp hq

end Start

end Occasion

/-! ## The first walk -/

/-- Twins that steps aside have led on will go on alike once they have forgotten what was
pending. -/
theorem Pass.Twins.apart_of_aside {occasion : Occasion σ} {link : Link} {stage : Stage}
    {p q p' q' : Pass σ} {may might : RoleId → Prop} (hquiet : occasion.IsQuiet)
    (h : Pass.Twins occasion.engine link stage p q) (hp : Pass.Aside occasion may p p')
    (hq : Pass.Aside occasion might q q') :
    Pass.Apart occasion.engine (pendingLink p'.journal q'.journal) stage.caught p' q' where
  same := False.elim
  journal := ⟨[], rfl, rfl⟩
  left := hp.suited h.scratch.left
  right := hq.suited h.scratch.right
  roles := hp.stream ▸ hq.stream ▸ h.roles
  leaves := hp.stream ▸ hq.stream ▸ h.leaves
  stored := hp.stream ▸ hq.stream ▸ h.stored
  halted := (hp.halted hquiet).trans (h.halted.trans (hq.halted hquiet).symm)
  groups := hp.groups.trans (h.groups.trans hq.groups.symm)
  lastEnd := hp.lastEnd.trans (h.lastEnd.trans hq.lastEnd.symm)
  caughtUpTo hcaught := hp.caughtUpTo.trans ((h.caughtUpTo hcaught).trans hq.caughtUpTo.symm)
  delayed := hp.delayed.trans (h.scratch.delayed.trans hq.delayed.symm)
  full := False.elim

namespace Occasion

variable {occasion : Occasion σ}

/-- What comes up to the end of the first walk. -/
def opening (occasion : Occasion σ) : PassM σ Control := do
  occasion.settleFirst
  Control.andThen occasion.runEndEvent (Control.andThen occasion.askAllActive occasion.walk)

/-- A pass for an engine with a matcher is its opening and what the literals in the last bytes lead
to. -/
theorem body_eq_opening {matcher : EndMatcher}
    (hmatcher : occasion.engine.matcher? = some matcher) :
    occasion.body = Control.andThen occasion.opening (occasion.resolveTail matcher) := by
  rw [body_eq_resolve]
  unfold opening resolve resolveRoles
  rw [hmatcher]
  simp only [Control.bind_andThen, Control.andThen_assoc]

/-- After the end's own action, an opening only steps aside. -/
theorem exists_of_opening {pass walked : Pass σ}
    (h : occasion.opening pass = .ok .proceed walked) :
    ∃ settled ran, occasion.settleFirst pass = .ok () settled
      ∧ occasion.runEndEvent settled = .ok .proceed ran
      ∧ Pass.Aside occasion (fun _ => True) ran walked := by
  obtain ⟨_, settled, hsettle, h⟩ := exists_of_bind h
  obtain ⟨ran, hrun, h⟩ := exists_of_andThen h
  obtain ⟨asked, hask, hwalk⟩ := exists_of_andThen h
  have hasked : Pass.Aside occasion (fun _ => True) ran asked := aside_askAllActive hask
  have hwalked : Pass.Walked occasion asked walked := walked_walk hwalk
  exact ⟨settled, ran, hsettle, hrun, hasked.trans (hwalked.mono fun _ _ => trivial)⟩

/-- Passes whose openings come to their end go on alike, once they have forgotten what was
pending. -/
theorem apart_of_opening {a b : Session σ} (ha : a.Suited occasion.engine)
    (hb : b.Suited occasion.engine) (hgroups : a.stream.groups = b.stream.groups)
    (hstored : a.stream.stored = b.stream.stored) (hsound : occasion.engine.IsSound)
    (hquiet : occasion.IsQuiet)
    (hprepares : ∀ slot ∈ occasion.engine.slots, slot.automaton.PreparesAnew)
    {walked walked' : Pass σ} (hp : occasion.opening (occasion.start a) = .ok .proceed walked)
    (hq : occasion.opening (occasion.start b) = .ok .proceed walked') :
    Pass.Apart occasion.engine (pendingLink walked.journal walked'.journal) True walked
      walked' := by
  obtain ⟨settled, ran, hsettle, hrun, haside⟩ := exists_of_opening hp
  obtain ⟨settled', ran', hsettle', hrun', haside'⟩ := exists_of_opening hq
  have hsettled := twins_settleFirst ha hb hgroups hstored hsound hquiet hprepares hsettle hsettle'
  have hcompares : occasion.Compares occasion.mode (pendingLink a.journal b.journal) :=
    compares_pending hsound hquiet hprepares
  have hran := (matched_runEndEvent hcompares hsettled).of_eq hrun hrun'
  exact hran.apart_of_aside hquiet haside haside'

end Occasion

/-! ## What comes after it -/

/-- Two results are alike from two journals on: they have the same answer, and what was added to the
journals is the same, as are, if there is an answer, the roles and the active automata. -/
inductive SameRest (before before' : List JournalEntry) :
    EStateM.Result Fault (Session σ) Control → EStateM.Result Fault (Session σ) Control →
    Prop where
  | ok {control : Control} {a b : Session σ} (roles : a.stream.roles = b.stream.roles)
      (leaves : a.stream.leaves = b.stream.leaves)
      (journal : ∃ entries, a.journal = entries ++ before ∧ b.journal = entries ++ before') :
      SameRest before before' (.ok control a) (.ok control b)
  | error {fault : Fault} {a b : Session σ}
      (journal : ∃ entries, a.journal = entries ++ before ∧ b.journal = entries ++ before') :
      SameRest before before' (.error fault a) (.error fault b)

theorem sameRest_closed {engine : Engine} {first second : List JournalEntry}
    {a b : EStateM.Result Fault (Pass σ) Control}
    (h : Agree (Pass.Stopped engine (pendingLink first second))
      (Pass.Twins engine (pendingLink first second) (Stage.forgotten True)) a b) :
    SameRest first second (closed a) (closed b) := by
  cases h with
  | ok hnext =>
    obtain ⟨hroles, hleaves⟩ := hnext.near trivial
    exact .ok hroles hleaves (hnext.exists_entries rfl)
  | error hstopped => exact .error (hstopped.exists_entries rfl)

namespace Occasion

variable {occasion : Occasion σ} {plan : Plan} {a b : Session σ}

theorem isIdle_eq_false {matcher : EndMatcher}
    (hmatcher : occasion.engine.matcher? = some matcher)
    (hwidth : ∀ width, occasion.engine.maxWidth? = some width → occasion.offset ≤ width) :
    occasion.isIdle = false := by
  have hneeds : occasion.engine.needsEndOfData = true := by
    simp [Engine.needsEndOfData, hmatcher]
  unfold isIdle
  rw [hneeds]
  cases hmax : occasion.engine.maxWidth? with
  | none => rfl
  | some width => simpa using hwidth width hmax

/-- After its opening, a pass ends with what the literals in the last bytes lead to. -/
theorem perform_eq_resolveTail {matcher : EndMatcher}
    (hmatcher : occasion.engine.matcher? = some matcher) (hidle : occasion.isIdle = false)
    (hsize : occasion.data.size ≤ occasion.offset) {walked : Pass σ}
    (hopening : occasion.opening (occasion.start a) = .ok .proceed walked) :
    occasion.perform a = closed (occasion.resolveTail matcher walked) := by
  rw [perform_eq_closed hidle hsize, body_eq_opening hmatcher, andThen_eq hopening]

/-- A pass that proceeds to its end has proceeded through its opening and what comes after it. -/
theorem exists_opening {matcher : EndMatcher} (hmatcher : occasion.engine.matcher? = some matcher)
    (hidle : occasion.isIdle = false) (hsize : occasion.data.size ≤ occasion.offset)
    {next : Session σ} (hperform : occasion.perform a = .ok .proceed next) :
    ∃ walked last, occasion.opening (occasion.start a) = .ok .proceed walked
      ∧ occasion.resolveTail matcher walked = .ok .proceed last ∧ next = last.toSession := by
  rw [perform_eq_closed hidle hsize, body_eq_opening hmatcher] at hperform
  cases hbody : Control.andThen occasion.opening (occasion.resolveTail matcher)
      (occasion.start a) with
  | error fault pass =>
    rw [hbody] at hperform
    cases hperform
  | ok control pass =>
    rw [hbody] at hperform
    cases hperform
    obtain ⟨walked, hopening, hrest⟩ := exists_of_andThen hbody
    exact ⟨walked, pass, hopening, hrest, rfl⟩

theorem suits_of_suited (hbuild : plan.build = .ok occasion.engine)
    (hsafe : ∀ automaton ∈ plan.automata, automaton.IsSafe)
    (hsize : occasion.data.size ≤ occasion.offset) (hsuited : a.Suited occasion.engine) :
    occasion.Suits plan a where
  built := hbuild
  safe := hsafe
  stream := hsuited.stream
  scratch := hsuited.scratch.toFits
  size := hsize

/-- If automata are safe and halt only if told, a pass for a caller who never halts proceeds to its
end. -/
theorem exists_perform_eq_proceed (hbuild : plan.build = .ok occasion.engine)
    (hquiet : occasion.IsQuiet) (hsize : occasion.data.size ≤ occasion.offset)
    (hsuited : a.Suited occasion.engine)
    (hautomata : ∀ automaton ∈ plan.automata, automaton.IsSafe ∧ automaton.IsHonest) :
    ∃ next, occasion.perform a = .ok .proceed next := by
  have hsafe (automaton : Automaton) (hautomaton : automaton ∈ plan.automata) :
      automaton.IsSafe := (hautomata automaton hautomaton).1
  have hsuits := suits_of_suited hbuild hsafe hsize hsuited
  have honest (automaton : Automaton) (hautomaton : automaton ∈ plan.automata) :
      automaton.IsHonest := (hautomata automaton hautomaton).2
  obtain ⟨next, -, hperform, -⟩ := @Suits.exists_calls_of_callers _ _ _ _ _ occasion.callback
    hsuits honest hquiet a.caller
  exact ⟨next, hperform⟩

/-- For a caller who never halts, and an engine with a matcher, what was pending before the scan of
the last bytes does not influence what comes after it. Two passes may start with any roles, active
automata, last end and working space, if their groups and short states are the same and their offset
is not past the last that counts. If both come to the end of their first walk, the same calls come
after it, and the same roles are on and the same automata active in the end. They do come there if
automata are safe and halt only if told. -/
theorem sameRest_of_pending (hbuild : plan.build = .ok occasion.engine) {matcher : EndMatcher}
    (hmatcher : occasion.engine.matcher? = some matcher) (hquiet : occasion.IsQuiet)
    (hprepares : ∀ automaton ∈ plan.automata, automaton.PreparesAnew)
    (hwidth : ∀ width, occasion.engine.maxWidth? = some width → occasion.offset ≤ width)
    (hsize : occasion.data.size ≤ occasion.offset) (ha : a.Suited occasion.engine)
    (hb : b.Suited occasion.engine) (hgroups : a.stream.groups = b.stream.groups)
    (hstored : a.stream.stored = b.stream.stored) :
    (∀ walked walked', occasion.opening (occasion.start a) = .ok .proceed walked →
      occasion.opening (occasion.start b) = .ok .proceed walked' →
      SameRest walked.journal walked'.journal (occasion.perform a) (occasion.perform b))
    ∧ ((∀ automaton ∈ plan.automata, automaton.IsSafe ∧ automaton.IsHonest) →
      ∃ walked walked' next next',
        occasion.opening (occasion.start a) = .ok .proceed walked
        ∧ occasion.opening (occasion.start b) = .ok .proceed walked'
        ∧ occasion.perform a = .ok .proceed next ∧ occasion.perform b = .ok .proceed next') := by
  have hidle := isIdle_eq_false hmatcher hwidth
  constructor
  · intro walked walked' hp hq
    have hsound := Plan.isSound_of_build hbuild
    have hslots (slot : Slot) (hslot : slot ∈ occasion.engine.slots) :
        slot.automaton.PreparesAnew :=
      hprepares _ (Plan.automaton_mem_of_build hbuild hslot)
    have hcompares : occasion.Compares occasion.mode (pendingLink walked.journal walked'.journal) :=
      compares_pending hsound hquiet hslots
    have hapart := apart_of_opening ha hb hgroups hstored hsound hquiet hslots hp hq
    rw [perform_eq_resolveTail hmatcher hidle hsize hp,
      perform_eq_resolveTail hmatcher hidle hsize hq]
    exact sameRest_closed (agree_resolveTail hcompares hmatcher hapart (.inl trivial))
  · intro hautomata
    obtain ⟨next, hperform⟩ := exists_perform_eq_proceed hbuild hquiet hsize ha hautomata
    obtain ⟨next', hperform'⟩ := exists_perform_eq_proceed hbuild hquiet hsize hb hautomata
    obtain ⟨walked, -, hopening, -⟩ := exists_opening hmatcher hidle hsize hperform
    obtain ⟨walked', -, hopening', -⟩ := exists_opening hmatcher hidle hsize hperform'
    exact ⟨walked, walked', next, next', hopening, hopening', hperform, hperform'⟩

end Occasion

namespace Plan

theorem maxWidth_sample {engine : Engine} (hbuild : sample.build = .ok engine) :
    engine.maxWidth? = none := by
  obtain ⟨-, -, -, -, matcher?, -, -, rfl⟩ := build_eq_ok_iff.1 hbuild
  rfl

theorem isSafe_and_isHonest_sample :
    ∀ automaton ∈ sample.automata, automaton.IsSafe ∧ automaton.IsHonest := by
  intro automaton hautomaton
  rw [List.mem_singleton.1 hautomaton]
  exact ⟨Automaton.isSafe_latch _, Automaton.isHonest_latch _⟩

end Plan

/-- The sample at the end of a stream, started anew and with everything switched on. -/
theorem Occasion.sameRest_of_pending_switched_on :
    ∃ engine scratch, Plan.sample.build = .ok engine ∧ Scratch.fresh engine = .ok scratch
      ∧ let occasion := Plan.sampleOccasion engine .streaming fun reports _ id =>
          (.proceed, id :: reports)
        let anew : Session (List ReportId) := ⟨.initial engine, scratch, [], []⟩
        let stream := { StreamState.initial engine with roles := ⟨1, [1]⟩, leaves := ⟨1, [1]⟩ }
        let lit : Session (List ReportId) := ⟨stream, scratch, [], []⟩
        ∃ walked walked' next next',
          occasion.opening (occasion.start anew) = .ok .proceed walked
            ∧ occasion.opening (occasion.start lit) = .ok .proceed walked'
            ∧ occasion.perform anew = .ok .proceed next ∧ occasion.perform lit = .ok .proceed next'
            ∧ SameRest walked.journal walked'.journal (.ok .proceed next) (.ok .proceed next') := by
  obtain ⟨engine, hbuild⟩ := Plan.exists_build_sample
  obtain ⟨matcher, hmatcher, -⟩ := Plan.exists_serves_of_build hbuild rfl
  obtain ⟨scratch, hfresh, -⟩ := Plan.exists_fresh_sample hbuild
  refine ⟨engine, scratch, hbuild, hfresh, ?_⟩
  intro occasion anew stream lit
  have hanew : anew.Suited engine := Session.suited_initial hbuild (by decide) hfresh
  have hlit : lit.Suited engine := by
    obtain ⟨-, -, -, -, matcher?, -, -, rfl⟩ := Plan.build_eq_ok_iff.1 hbuild
    have hsized : FlagSet.IsSized ⟨1, [1]⟩ := Eq.refl 1
    exact ⟨⟨rfl, hsized, rfl, hsized, rfl⟩, hanew.scratch⟩
  have hwidth (width : Nat) (hmax : engine.maxWidth? = some width) : occasion.offset ≤ width := by
    rw [Plan.maxWidth_sample hbuild] at hmax
    cases hmax
  have hprepares (automaton : Automaton) (hautomaton : automaton ∈ Plan.sample.automata) :
      automaton.PreparesAnew := by
    rw [List.mem_singleton.1 hautomaton]
    exact Automaton.preparesAnew_latch _
  have hsize : occasion.data.size ≤ occasion.offset := show 2 ≤ 5 by decide
  have hquiet : occasion.IsQuiet := fun _ _ _ => rfl
  obtain ⟨hrest, hruns⟩ := @sameRest_of_pending _ occasion _ anew lit hbuild _ hmatcher hquiet
    hprepares hwidth hsize hanew hlit rfl rfl
  obtain ⟨walked, walked', next, next', hp, hq, hperform, hperform'⟩ :=
    hruns Plan.isSafe_and_isHonest_sample
  have hsame := hrest walked walked' hp hq
  rw [hperform, hperform'] at hsame
  exact ⟨walked, walked', next, next', hp, hq, hperform, hperform', hsame⟩

/-! ## Passes that end early -/

/-- An automaton that ends in a halt that nobody has told it. -/
def Automaton.quitter : Automaton where
  acceptsEnd := true
  streamLength := 0
  fullLength := 0
  expand full _ _ _ := .ok full
  prepare := prepareZeros
  finalReports _ _ _ := .done .halt
  run _ full := .ok (full, true)

/-- The sample plan with such an automaton, for ends up to offset 4. -/
def Plan.quitting : Plan := { sampleWith none (some 4) with automata := [.quitter] }

theorem Plan.exists_build_quitting : ∃ engine, quitting.build = .ok engine := by
  have hevent : ∀ id, none = some id → (sample.actions.find? id).isSome = true := nofun
  obtain ⟨engine, hbuild⟩ := @exists_build_sampleWith _ (some 4) hevent
  obtain ⟨hroles, hwalk, hactions, hevent, matcher?, hmatcher, htriggers, -⟩ :=
    build_eq_ok_iff.1 hbuild
  exact ⟨_, build_eq_ok_iff.2
    ⟨hroles, hwalk, hactions, hevent, matcher?, hmatcher, htriggers, rfl⟩⟩

/-- What was pending stays as it was if a pass is left out, as the offset is past the last that
counts, or ends early, as an automaton halts of its own accord. -/
theorem Occasion.exists_pending_left :
    ∃ engine scratch matcher, Plan.quitting.build = .ok engine ∧ Scratch.fresh engine = .ok scratch
      ∧ engine.matcher? = some matcher
      ∧ (∀ automaton ∈ Plan.quitting.automata, automaton.PreparesAnew)
      ∧ let occasion (offset : Nat) : Occasion (List ReportId) :=
          { engine, mode := .streaming, data := #[], offset,
            callback := fun reports _ id => (.proceed, id :: reports) }
        let session (roles leaves : FlagSet) : Session (List ReportId) :=
          ⟨{ StreamState.initial engine with roles, leaves }, scratch, [], []⟩
        let lit : FlagSet := ⟨1, [1]⟩
        let dark : FlagSet := ⟨1, [0]⟩
        lit ≠ dark
          ∧ (occasion 5).perform (session lit dark) = .ok .proceed (session lit dark)
          ∧ (occasion 5).perform (session dark dark) = .ok .proceed (session dark dark)
          ∧ (let halted := Outcome.of ((occasion 3).perform (session dark lit))
            halted.answer = .ok .halt ∧ halted.stream.leaves = lit)
          ∧ (let passed := Outcome.of ((occasion 3).perform (session dark dark))
            passed.answer = .ok .proceed ∧ passed.stream.leaves = dark) := by
  obtain ⟨engine, hbuild⟩ := Plan.exists_build_quitting
  obtain ⟨-, -, -, -, _, ⟨matcher, hmatcher, rfl⟩, -, rfl⟩ := Plan.build_eq_ok_iff.1 hbuild
  obtain ⟨-, -, table, -, rfl⟩ := Plan.buildMatcher_eq_ok_iff.1 hmatcher
  have hprepares (automaton : Automaton) (hautomaton : automaton ∈ Plan.quitting.automata) :
      automaton.PreparesAnew := by
    rw [List.mem_singleton.1 hautomaton]
    exact Automaton.preparesAnew_of_zeros rfl
  refine ⟨_, _, _, hbuild, rfl, rfl, hprepares, ?_⟩
  intro occasion session lit dark
  have hpassed : (Outcome.of ((occasion 3).perform (session dark dark))).answer = .ok .proceed
      ∧ (Outcome.of ((occasion 3).perform (session dark dark))).stream.leaves = dark := by
    constructor
    · cbv
    · cbv
  exact ⟨by decide, perform_eq_of_isIdle rfl, perform_eq_of_isIdle rfl, ⟨rfl, rfl⟩, hpassed⟩

end Multimatch
