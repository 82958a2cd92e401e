import Multimatch.Proofs.EndOfData.Silent
import Multimatch.Proofs.EndOfData.Total
import Multimatch.Proofs.Rules.Stops

/-!
# The roles that a walk fires

The stops of an engine come of entries that were added one after the other. Read in the order of the
stops, the entries are in the order of their flags and, for one flag, in the order in which they
were added (`WalkStop.flatMap_gather`). A walk for a caller that never halts fires the role of every
eligible entry, each role once and at its first one (`Occasion.walk_eq`): an entry whose predicate
does not hold leaves its role to later ones.
-/

namespace Multimatch

open PassM

/-! ## The entries that fire -/

/-- An entry lets its role fire at an offset: the role is simple, or the predicate holds there. -/
def Engine.admits (engine : Engine) (offset : Nat) (entry : WalkEntry) : Bool :=
  match engine.roles[entry.role.toNat]? with
  | some role =>
    role.isSimple
      || (entry.predicate?.bind (engine.predicates[·.toNat]?)).any (·.holdsAt offset)
  | none => false

namespace Occasion

variable {σ : Type} {occasion : Occasion σ}

/-- The flag of an entry is on, and the entry lets its role fire where the data ends. -/
def isEligible (occasion : Occasion σ) (flags : FlagSet) (call : Nat × WalkEntry) : Bool :=
  flags.isOn call.1 && occasion.engine.admits occasion.offset call.2

/-- The roles of the eligible ones among some entries, each where it comes first. -/
def firedBy (occasion : Occasion σ) (flags : FlagSet) (calls : List (Nat × WalkEntry)) :
    List RoleId :=
  ((calls.filter (occasion.isEligible flags)).map (·.2.role)).eraseDups

theorem mem_firedBy {flags : FlagSet} {calls : List (Nat × WalkEntry)} {id : RoleId} :
    id ∈ occasion.firedBy flags calls
      ↔ ∃ call ∈ calls, call.2.role = id ∧ occasion.isEligible flags call = true := by
  simp only [firedBy, List.mem_eraseDups, List.mem_map, List.mem_filter]
  exact ⟨fun ⟨call, ⟨hcall, helig⟩, hrole⟩ => ⟨call, hcall, hrole, helig⟩,
    fun ⟨call, hcall, hrole, helig⟩ => ⟨call, ⟨hcall, helig⟩, hrole⟩⟩

/-- One more entry adds its role, if the entry is eligible and none before it had the role. -/
theorem firedBy_concat (flags : FlagSet) (calls : List (Nat × WalkEntry))
    (call : Nat × WalkEntry) :
    occasion.firedBy flags (calls ++ [call]) = occasion.firedBy flags calls
      ++ if occasion.isEligible flags call = true ∧ call.2.role ∉ occasion.firedBy flags calls
        then [call.2.role] else [] := by
  by_cases helig : occasion.isEligible flags call = true
  · by_cases hold : call.2.role ∈ occasion.firedBy flags calls
    · have hin := List.mem_eraseDups.1 hold
      simp [firedBy, helig, List.eraseDups_append, List.removeAll, hin]
    · have hin : call.2.role ∉ (calls.filter (occasion.isEligible flags)).map (·.2.role) :=
        fun h => hold (List.mem_eraseDups.2 h)
      rw [if_pos ⟨helig, hold⟩]
      simp [firedBy, helig, List.eraseDups_append, List.eraseDups_cons, List.removeAll, hin]
  · rw [if_neg fun h => helig h.1, List.append_nil]
    simp [firedBy, helig]

theorem nodup_firedBy (flags : FlagSet) (calls : List (Nat × WalkEntry)) :
    (occasion.firedBy flags calls).Nodup := by
  induction calls using List.reverseRecOn with
  | nil => exact .nil
  | append_singleton calls call ih =>
    rw [firedBy_concat]
    split
    · next h =>
      refine List.nodup_append.2 ⟨ih, List.nodup_singleton _, fun id hid other hother heq => ?_⟩
      rw [heq, List.mem_singleton.1 hother] at hid
      exact h.2 hid
    · rwa [List.append_nil]

/-! ## A walk for a caller that never halts -/

/-- What a walk tells when it fires roles. -/
def firings (occasion : Occasion σ) (ids : List RoleId) (roles : List Role) : List JournalEntry :=
  (ids.zip roles).flatMap fun (id, role) =>
    [.fired id, .report occasion.offset role.report .proceed]

/-- Since a walk started, some entries were looked at: exactly the roles that they fire are marked,
and were told of. -/
structure Fired (occasion : Occasion σ) (start : Pass σ) (calls : List (Nat × WalkEntry))
    (pass : Pass σ) : Prop where
  scratch : pass.scratch.Fits occasion.engine
  running : pass.halted = false
  stream : pass.stream = start.stream
  handled : ∀ id : RoleId, pass.scratch.handled.contains id.toNat = true
    ↔ id ∈ occasion.firedBy start.stream.roles calls
  told : ∃ roles, (occasion.firedBy start.stream.roles calls).mapM occasion.engine.role = .ok roles
    ∧ pass.journal.reverse = start.journal.reverse
      ++ occasion.firings (occasion.firedBy start.stream.roles calls) roles

variable {start pass : Pass σ} {calls : List (Nat × WalkEntry)}

/-- An entry that fires nothing changes nothing. -/
theorem Fired.skip (h : occasion.Fired start calls pass) {call : Nat × WalkEntry}
    (hskip : occasion.isEligible start.stream.roles call = true →
      call.2.role ∈ occasion.firedBy start.stream.roles calls) :
    occasion.Fired start (calls ++ [call]) pass := by
  have hsame : occasion.firedBy start.stream.roles (calls ++ [call])
      = occasion.firedBy start.stream.roles calls := by
    rw [firedBy_concat, if_neg fun hfires => hfires.2 (hskip hfires.1), List.append_nil]
  exact { h with handled := hsame ▸ h.handled, told := hsame ▸ h.told }

/-- Marking a role and reporting for it. -/
theorem Fired.fire (h : occasion.Fired start calls pass) {call : Nat × WalkEntry} {role : Role}
    (hrole : occasion.engine.roles[call.2.role.toNat]? = some role)
    (helig : occasion.isEligible start.stream.roles call = true)
    (hnew : call.2.role ∉ occasion.firedBy start.stream.roles calls) {fresh : Bool}
    {handled : MarkerSet}
    (hinsert : pass.scratch.handled.insert call.2.role.toNat = .ok (fresh, handled))
    (caller : σ) :
    occasion.Fired start (calls ++ [call]) { pass with
      scratch := { pass.scratch with handled }
      caller
      halted := false
      journal := .report occasion.offset role.report .proceed :: .fired call.2.role
        :: pass.journal } := by
  have hgrown : occasion.firedBy start.stream.roles (calls ++ [call])
      = occasion.firedBy start.stream.roles calls ++ [call.2.role] := by
    rw [firedBy_concat, if_pos ⟨helig, hnew⟩]
  obtain ⟨hsound, hcapacity⟩ := h.scratch.handled.isSound_of_insert hinsert
  obtain ⟨roles, hroles, htold⟩ := h.told
  refine
    { scratch := { h.scratch with
        handled := hsound
        handled_capacity := hcapacity.trans h.scratch.handled_capacity }
      running := rfl
      stream := h.stream
      handled := fun id => ?_
      told := ⟨roles ++ [role], ?_, ?_⟩ }
  · have hsame : id.toNat = call.2.role.toNat ↔ id = call.2.role :=
      ⟨Ident.toNat_inj, fun heq => heq ▸ rfl⟩
    rw [h.scratch.handled.contains_of_insert hinsert, Bool.or_eq_true, decide_eq_true_eq, hsame,
      h.handled, hgrown, List.mem_append, List.mem_singleton, or_comm]
  · have hfound : occasion.engine.role call.2.role = .ok role := elementAt_eq_ok_iff.2 hrole
    rw [mapM_eq_ok_iff] at hroles ⊢
    rw [hgrown, List.map_append, hroles, List.map_append, List.map_singleton, hfound]
    rfl
  · have hlength := length_of_mapM hroles
    rw [hgrown, firings, List.zip_append hlength.symm, List.flatMap_append, List.reverse_cons,
      List.reverse_cons, htold, firings, List.append_assoc, List.append_assoc]
    rfl

/-- Visits that each account for some entries account for all of them. -/
theorem gives_visitAll_fired {α : Type} {visit : α → PassM σ Control}
    {part : α → List (Nat × WalkEntry)} {xs : List α}
    (hvisit : ∀ x ∈ xs, ∀ calls pass, occasion.Fired start calls pass →
      Gives (visit x) pass fun control next =>
        control = .proceed ∧ occasion.Fired start (calls ++ part x) next)
    (h : occasion.Fired start calls pass) :
    Gives (Control.visitAll visit xs) pass fun control next =>
      control = .proceed ∧ occasion.Fired start (calls ++ xs.flatMap part) next := by
  induction xs generalizing calls pass with
  | nil =>
    rw [List.flatMap_nil, List.append_nil]
    exact gives_pure.2 ⟨rfl, h⟩
  | cons x xs ih =>
    rw [Control.visitAll_cons, Control.andThen, gives_bind]
    refine (hvisit x List.mem_cons_self calls pass h).mono fun control next hnext => ?_
    obtain ⟨rfl, hnext⟩ := hnext
    rw [List.flatMap_cons, ← List.append_assoc]
    exact ih (fun y hy => hvisit y (List.mem_cons_of_mem _ hy)) hnext

section Entries

variable {entry : WalkEntry} {role : Role}
  (hrole : occasion.engine.roles[entry.role.toNat]? = some role)
include hrole

theorem admits_of_isSimple (hsimple : role.isSimple = true) :
    occasion.engine.admits occasion.offset entry = true := by
  simp only [Engine.admits, hrole, hsimple, Bool.true_or]

/-- The predicate of an entry decides over a role that is not simple. -/
theorem predicateHolds_eq
    (hpredicate : ∀ id, entry.predicate? = some id →
      id.toNat < occasion.engine.predicates.length)
    (hgiven : entry.predicate? ≠ none) (hsimple : role.isSimple = false) :
    occasion.predicateHolds entry = .ok (occasion.engine.admits occasion.offset entry) := by
  obtain ⟨id, hid⟩ := Option.ne_none_iff_exists'.1 hgiven
  have hlt := hpredicate id hid
  simp only [predicateHolds, Engine.admits, hrole, hsimple, hid, Engine.predicate,
    elementAt_eq_ok hlt, Option.bind_some, List.getElem?_eq_getElem hlt, Option.any_some,
    Bool.false_or]
  rfl

theorem fired_visitEntry (hquiet : occasion.IsQuiet)
    (hpredicate : ∀ id, entry.predicate? = some id →
      id.toNat < occasion.engine.predicates.length)
    (hgiven : entry.predicate? = none → role.isSimple = true) {state : Nat}
    (hon : start.stream.roles.isOn state = true) (h : occasion.Fired start calls pass) :
    Gives (occasion.visitEntry entry) pass fun control next =>
      control = .proceed ∧ occasion.Fired start (calls ++ [(state, entry)]) next := by
  have helig : occasion.isEligible start.stream.roles (state, entry)
      = occasion.engine.admits occasion.offset entry := by
    rw [isEligible, hon, Bool.true_and]
  have hlt : entry.role.toNat < pass.scratch.handled.capacity := by
    rw [h.scratch.handled_capacity]
    exact (List.getElem?_eq_some_iff.1 hrole).1
  obtain ⟨fresh, handled, hinsert, -⟩ := h.scratch.handled.insert_eq_ok hlt
  have hfire (hnew : ¬pass.scratch.handled.contains entry.role.toNat = true)
      (hadmits : occasion.engine.admits occasion.offset entry = true) :
      Gives (occasion.report occasion.offset role.report)
        { pass with
          scratch := { pass.scratch with handled }
          journal := .fired entry.role :: pass.journal }
        fun control next =>
          control = .proceed ∧ occasion.Fired start (calls ++ [(state, entry)]) next := by
    refine (gives_iff_of_eq (report_of_running (by exact h.running) ..)).2 ?_
    rw [hquiet]
    exact ⟨rfl, h.fire hrole (helig.trans hadmits) (mt (h.handled _).2 hnew) hinsert _⟩
  simp only [visitEntry, gives_bind, gives_get, gives_ite, gives_pure, gives_lift,
    gives_changeScratch, gives_note]
  refine ⟨fun hold => ⟨trivial, h.skip fun _ => (h.handled _).1 hold⟩, fun hnew =>
    ⟨role, elementAt_eq_ok_iff.2 hrole, fun hsimple => ?_, fun hsimple => ?_⟩⟩
  · rw [Bool.not_eq_true'] at hsimple
    have hsome : entry.predicate? ≠ none := fun hnone => by
      rw [hgiven hnone] at hsimple
      cases hsimple
    refine ⟨_, predicateHolds_eq hrole hpredicate hsome hsimple, fun hfails => ?_, fun hholds => ?_⟩
    · rw [Bool.not_eq_true'] at hfails
      exact ⟨trivial, h.skip fun hadmits => by rw [helig, hfails] at hadmits; cases hadmits⟩
    · rw [Bool.not_eq_true', Bool.not_eq_false] at hholds
      exact ⟨(fresh, handled), hinsert, _, rfl, hfire hnew hholds⟩
  · rw [Bool.not_eq_true', Bool.not_eq_false] at hsimple
    exact ⟨(fresh, handled), hinsert, _, rfl, hfire hnew (admits_of_isSimple hrole hsimple)⟩

end Entries

/-- Entries that are not eligible change nothing. -/
theorem Fired.skipAll (h : occasion.Fired start calls pass) {more : List (Nat × WalkEntry)}
    (hskip : ∀ call ∈ more, occasion.isEligible start.stream.roles call = false) :
    occasion.Fired start (calls ++ more) pass := by
  induction more generalizing calls with
  | nil => rwa [List.append_nil]
  | cons call more ih =>
    obtain ⟨hfirst, hrest⟩ := List.forall_mem_cons.1 hskip
    have hnext := ih (h.skip fun helig => by rw [hfirst] at helig; cases helig) hrest
    rwa [List.append_assoc] at hnext

section Walk

variable {plan : Plan} (hbuild : plan.build = .ok occasion.engine) (hquiet : occasion.IsQuiet)
include hbuild hquiet

theorem fired_visitStop (hsized : start.stream.roles.IsSized) {stop : WalkStop}
    (hstop : stop ∈ occasion.engine.walk) (h : occasion.Fired start calls pass) :
    Gives (occasion.visitStop stop) pass fun control next =>
      control = .proceed ∧ occasion.Fired start (calls ++ stop.calls) next := by
  obtain ⟨-, hwalk, -, -, matcher?, -, -, hengine⟩ := Plan.build_eq_ok_iff.1 hbuild
  have hstop : stop ∈ plan.walk := by rwa [hengine] at hstop
  have hparts : stop.entries.flatMap (fun entry => [(stop.state, entry)]) = stop.calls :=
    List.map_eq_flatMap.symm
  simp only [visitStop, gives_bind, gives_get, gives_lift, gives_ite, gives_pure, h.stream]
  refine ⟨_, hsized.contains_eq stop.state, fun hon => ?_,
    fun hoff => ⟨trivial, h.skipAll fun call hcall => ?_⟩⟩
  · rw [← hparts]
    refine gives_visitAll_fired (fun entry hentry calls pass h => ?_) h
    obtain ⟨role, hrole, hpredicate, hgiven⟩ :=
      Plan.checkEntry_eq_ok_iff.1 ((Plan.checkStop_eq_ok_iff.1 (hwalk stop hstop)).2 entry hentry)
    rw [show plan.roles = occasion.engine.roles by rw [hengine]; rfl] at hrole
    rw [show plan.predicates = occasion.engine.predicates by rw [hengine]; rfl] at hpredicate
    exact fired_visitEntry hrole hquiet hpredicate hgiven hon h
  · rw [isEligible, WalkStop.state_of_mem_calls hcall, Bool.eq_false_iff.2 hoff, Bool.false_and]

variable {added : List (Nat × WalkEntry)} (hadded : plan.walk = WalkStop.gather added)
include hadded

omit hquiet in
/-- Entries that build have flags that exist. -/
theorem state_lt_of_build {call : Nat × WalkEntry} (hcall : call ∈ added) :
    call.1 < occasion.engine.roleStates := by
  obtain ⟨-, hwalk, -, -, matcher?, -, -, hengine⟩ := Plan.build_eq_ok_iff.1 hbuild
  obtain ⟨stop, hstop, hcall⟩ := List.mem_flatMap.1 (WalkStop.mem_flatMap_gather.2 hcall)
  have hstate := (Plan.checkStop_eq_ok_iff.1 (hwalk stop (hadded ▸ hstop))).1
  rw [WalkStop.state_of_mem_calls hcall, hengine]
  exact hstate

theorem fired_walk (hsized : pass.stream.roles.IsSized)
    (hscratch : pass.scratch.Fits occasion.engine) (hrunning : pass.halted = false) :
    Gives occasion.walk pass fun control next => control = .proceed
      ∧ occasion.Fired pass (WalkStop.inOrder occasion.engine.roleStates added) next := by
  have hwalk : occasion.engine.walk.flatMap WalkStop.calls
      = WalkStop.inOrder occasion.engine.roleStates added := by
    rw [← WalkStop.flatMap_gather fun call => state_lt_of_build hbuild hadded, ← hadded]
    obtain ⟨-, -, -, -, matcher?, -, -, hengine⟩ := Plan.build_eq_ok_iff.1 hbuild
    rw [hengine]
    rfl
  have hclear : occasion.Fired pass []
      { pass with scratch := { pass.scratch with handled := pass.scratch.handled.clear } } :=
    { scratch := { hscratch with handled := hscratch.handled.clear }
      running := hrunning
      stream := rfl
      handled := fun id => by
        rw [MarkerSet.contains_clear]
        exact ⟨nofun, nofun⟩
      told := ⟨[], rfl, (List.append_nil _).symm⟩ }
  simp only [walk, gives_bind, gives_changeScratch]
  refine ⟨_, rfl, ?_⟩
  rw [← hwalk]
  exact gives_visitAll_fired
    (fun stop hstop _ _ => fired_visitStop hbuild hquiet hsized hstop) hclear

omit hbuild hquiet hadded in
/-- Of the roles that a walk fires the caller gets the reports, where the data ends. -/
theorem answers_firings {ids : List RoleId} {roles : List Role}
    (hlength : roles.length = ids.length) :
    (occasion.firings ids roles).filterMap (·.answer?)
      = roles.map fun role => (occasion.offset, role.report, .proceed) := by
  induction ids generalizing roles with
  | nil =>
    rw [List.length_eq_zero_iff.1 hlength]
    rfl
  | cons id ids ih =>
    obtain ⟨role, roles, rfl⟩ := List.exists_cons_of_length_eq_add_one hlength
    have hrest := ih (Nat.succ.inj hlength)
    rw [List.map_cons, ← hrest]
    rfl

/-- A walk for a caller that never halts fires the roles of the eligible entries, each of them once
and where the first of its eligible entries is: by the flags of the entries, and for one flag as
they were added. Everything is reported where the data ends, and no flag changes. -/
theorem walk_eq (hsized : pass.stream.roles.IsSized) (hscratch : pass.scratch.Fits occasion.engine)
    (hrunning : pass.halted = false) :
    ∃ fired roles next,
      fired = occasion.firedBy pass.stream.roles
        (WalkStop.inOrder occasion.engine.roleStates added)
      ∧ occasion.walk pass = .ok .proceed next
      ∧ fired.mapM occasion.engine.role = .ok roles
      ∧ next.journal.reverse = pass.journal.reverse ++ occasion.firings fired roles
      ∧ next.answers
        = pass.answers ++ roles.map (fun role => (occasion.offset, role.report, .proceed))
      ∧ next.stream = pass.stream
      ∧ fired.Nodup
      ∧ ∀ id, id ∈ fired ↔
        ∃ call ∈ added, call.2.role = id ∧ occasion.isEligible pass.stream.roles call = true := by
  obtain ⟨control, next, hwalk, rfl, hfired⟩ :=
    fired_walk hbuild hquiet hadded hsized hscratch hrunning
  obtain ⟨roles, hroles, htold⟩ := hfired.told
  refine ⟨_, roles, next, rfl, hwalk, hroles, htold, ?_, hfired.stream, nodup_firedBy .., ?_⟩
  · rw [Session.answers, htold, List.filterMap_append, answers_firings (length_of_mapM hroles)]
    rfl
  · intro id
    simp only [mem_firedBy, WalkStop.mem_inOrder fun call => state_lt_of_build hbuild hadded]

end Walk

end Occasion

/-! ## A role with two predicates -/

namespace Plan

/-- Entries for two roles, of which the first has a predicate that does not hold at 5. -/
def steppingEntries : List (Nat × WalkEntry) :=
  [(1, ⟨.wrap 0, some (.wrap 1)⟩), (0, ⟨.wrap 0, some (.wrap 0)⟩), (1, ⟨.wrap 1, none⟩),
    (0, ⟨.wrap 1, none⟩)]

/-- Two roles that both flags lead to. -/
def stepping : Plan :=
  { roles := [{ report := .wrap 3 }, { report := .wrap 4, isSimple := true }]
    predicates := [⟨.anchored 0 1⟩, ⟨.anywhere⟩]
    roleStates := 2
    walk := WalkStop.gather steppingEntries }

/-- The end of a stream after five bytes, for a caller that counts its reports. -/
def steppingOccasion (engine : Engine) : Occasion Nat :=
  { engine, mode := .streaming, data := #[], offset := 5
    callback := fun count _ _ => (.proceed, count + 1) }

/-- Both flags are on. -/
def steppingSession (engine : Engine) (scratch : Scratch) : Session Nat :=
  { stream := { StreamState.initial engine with roles := ⟨2, [3#64]⟩ }, scratch, caller := 0 }

end Plan

/-- The flag 0 lets the simple role fire only, since the predicate for the other role does not hold;
the flag 1 makes good for that, and does not fire the simple role again. -/
theorem Occasion.walk_eq_stepping :
    ∃ engine, Plan.stepping.build = .ok engine ∧ ∃ scratch next,
      (Plan.steppingOccasion engine).walk
          ((Plan.steppingOccasion engine).start (Plan.steppingSession engine scratch))
        = .ok .proceed next
      ∧ next.answers = [(5, .wrap 4, .proceed), (5, .wrap 3, .proceed)] := by
  have hbuild : Plan.stepping.build = .ok (Plan.stepping.engineWith none) := rfl
  generalize hengine : Plan.stepping.engineWith none = engine at hbuild
  obtain ⟨-, ⟨scratch, -, hfits⟩, -⟩ := Plan.makesFitting_of_build hbuild
  have hstart : ((Plan.steppingOccasion engine).start
      (Plan.steppingSession engine scratch)).scratch.Fits (Plan.steppingOccasion engine).engine :=
    { hfits with
      triggered := hfits.triggered
      triggered_sized := FlagSet.isSized_clear hfits.triggered_sized }
  obtain ⟨fired, roles, next, hfired, hwalk, hroles, -, hanswers, -⟩ :=
    walk_eq hbuild (fun _ _ _ => rfl) rfl (show FlagSet.IsSized ⟨2, [3#64]⟩ from rfl) hstart rfl
  subst hengine
  have hids : (Plan.steppingOccasion (Plan.stepping.engineWith none)).firedBy ⟨2, [3#64]⟩
      (WalkStop.inOrder 2 Plan.steppingEntries) = [.wrap 1, .wrap 0] := by decide +kernel
  cases hfired.trans hids
  cases hroles
  exact ⟨_, hbuild, scratch, next, hwalk, hanswers⟩

end Multimatch
