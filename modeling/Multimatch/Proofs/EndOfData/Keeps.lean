import Multimatch.Proofs.EndOfData.Runs
import Multimatch.Proofs.EndOfData.Twins

/-!
# What steps leave alone

A step keeps a relation if every pass in which it has an answer is related to the pass after it
(`PassM.Keeps`); nothing is said of a step that faults. There are two relations of this kind. Steps
aside report and ask automata, but switch nothing on (`Pass.Aside`). Other steps may switch on some
roles, and automata if they are not still (`Pass.Lights`). A scan keeps what actions keep, if the
relation does not see how far the scan came (`Occasion.keeps_scanTail`).
-/

namespace Multimatch

namespace PassM

variable {σ α β : Type}

/-! ## Rules -/

/-- Wherever the step has an answer, the pass before and the pass after it are related. -/
def Keeps (R : Pass σ → Pass σ → Prop) (step : PassM σ α) : Prop :=
  ∀ ⦃pass answer next⦄, step pass = .ok answer next → R pass next

theorem exists_of_bind {a : PassM σ α} {f : α → PassM σ β} {pass next : Pass σ} {answer : β}
    (h : (a >>= f) pass = .ok answer next) :
    ∃ value middle, a pass = .ok value middle ∧ f value middle = .ok answer next := by
  simp only [Bind.bind, EStateM.bind] at h
  cases hstep : a pass with
  | ok value middle =>
    rw [hstep] at h
    exact ⟨value, middle, rfl, h⟩
  | error fault middle =>
    rw [hstep] at h
    cases h

theorem exists_of_lift_bind {made : Except Fault α} {f : α → PassM σ β} {pass next : Pass σ}
    {answer : β} (h : (liftM made >>= f) pass = .ok answer next) :
    ∃ value, made = .ok value ∧ f value pass = .ok answer next := by
  cases made with
  | ok value => exact ⟨value, rfl, h⟩
  | error fault => cases h

theorem exists_of_changeScratch {change : Scratch → Except Fault Scratch} {pass next : Pass σ}
    {answer : Unit} (h : changeScratch change pass = .ok answer next) :
    ∃ scratch, change pass.scratch = .ok scratch ∧ next = { pass with scratch } := by
  obtain ⟨_, _, hget, h⟩ := exists_of_bind h
  cases hget
  obtain ⟨scratch, hchange, h⟩ := exists_of_lift_bind h
  cases h
  exact ⟨scratch, hchange, rfl⟩

theorem exists_of_changeLeaves {change : FlagSet → Except Fault FlagSet} {pass next : Pass σ}
    {answer : Unit} (h : changeLeaves change pass = .ok answer next) :
    ∃ leaves, change pass.stream.leaves = .ok leaves
      ∧ next = { pass with stream := { pass.stream with leaves } } := by
  obtain ⟨_, _, hget, h⟩ := exists_of_bind h
  cases hget
  obtain ⟨leaves, hchange, h⟩ := exists_of_lift_bind h
  cases h
  exact ⟨leaves, hchange, rfl⟩

/-- Two steps that proceed to a pass both do. -/
theorem exists_of_andThen {first second : PassM σ Control} {pass next : Pass σ}
    (h : Control.andThen first second pass = .ok .proceed next) :
    ∃ middle, first pass = .ok .proceed middle ∧ second middle = .ok .proceed next := by
  obtain ⟨control, middle, hfirst, hrest⟩ := exists_of_bind h
  cases control with
  | halt => cases hrest
  | proceed => exact ⟨middle, hfirst, hrest⟩

section Rules

variable {R : Pass σ → Pass σ → Prop} {a a' : PassM σ α}

theorem Keeps.mono {R' : Pass σ → Pass σ → Prop} (h : Keeps R a)
    (hR : ∀ pass next, R pass next → R' pass next) : Keeps R' a :=
  fun _ _ _ hrun => hR _ _ (h hrun)

theorem Keeps.lift_bind {made : Except Fault α} {f : α → PassM σ β}
    (h : ∀ value, made = .ok value → Keeps R (f value)) : Keeps R (liftM made >>= f) := by
  intro pass answer next hrun
  obtain ⟨value, hmade, hrun⟩ := exists_of_lift_bind hrun
  exact h value hmade hrun

/-- Reading the pass: the step goes on from it. -/
theorem Keeps.get_bind_at {f : Pass σ → PassM σ β}
    (h : ∀ pass answer next, f pass pass = .ok answer next → R pass next) :
    Keeps R (get >>= f) := fun pass answer next hrun => h pass answer next hrun

theorem Keeps.get_bind {f : Pass σ → PassM σ β} (h : ∀ pass, Keeps R (f pass)) :
    Keeps R (get >>= f) := fun pass _ _ hrun => h pass hrun

theorem Keeps.ite {c : Prop} [Decidable c] (h : Keeps R a) (h' : Keeps R a') :
    Keeps R (if c then a else a') := by
  by_cases hc : c
  · rwa [if_pos hc]
  · rwa [if_neg hc]

theorem keeps_modify {change : Pass σ → Pass σ} (h : ∀ pass, R pass (change pass)) :
    Keeps R (modify change) := by
  intro pass answer next hrun
  cases hrun
  exact h pass

theorem keeps_note {entry : JournalEntry}
    (h : ∀ pass, R pass { pass with journal := entry :: pass.journal }) :
    Keeps R (note entry : PassM σ Unit) := keeps_modify h

theorem keeps_changeScratch {change : Scratch → Except Fault Scratch}
    (h : ∀ (pass : Pass σ) scratch, change pass.scratch = .ok scratch →
      R pass { pass with scratch }) : Keeps R (changeScratch change) := by
  intro pass answer next hrun
  obtain ⟨scratch, hchange, rfl⟩ := exists_of_changeScratch hrun
  exact h pass scratch hchange

theorem keeps_changeRoles {change : FlagSet → Except Fault FlagSet}
    (h : ∀ (pass : Pass σ) roles, change pass.stream.roles = .ok roles →
      R pass { pass with stream := { pass.stream with roles } }) :
    Keeps R (changeRoles change) := by
  refine Keeps.get_bind_at fun pass answer next hrun => ?_
  obtain ⟨roles, hchange, hrun⟩ := exists_of_lift_bind hrun
  cases hrun
  exact h pass roles hchange

theorem keeps_changeLeaves {change : FlagSet → Except Fault FlagSet}
    (h : ∀ (pass : Pass σ) leaves, change pass.stream.leaves = .ok leaves →
      R pass { pass with stream := { pass.stream with leaves } }) :
    Keeps R (changeLeaves change) := by
  intro pass answer next hrun
  obtain ⟨leaves, hchange, rfl⟩ := exists_of_changeLeaves hrun
  exact h pass leaves hchange

variable [IsPreorder (Pass σ) R]

theorem keeps_pure (value : α) : Keeps R (pure value : PassM σ α) := by
  intro pass answer next hrun
  cases hrun
  exact refl_of R pass

omit [IsPreorder (Pass σ) R] in
theorem keeps_throw (fault : Fault) : Keeps R (throw fault : PassM σ α) := nofun

theorem Keeps.bind {f : α → PassM σ β} (h : Keeps R a) (hrest : ∀ value, Keeps R (f value)) :
    Keeps R (a >>= f) := by
  intro pass answer next hrun
  obtain ⟨value, middle, hfirst, hrun⟩ := exists_of_bind hrun
  exact trans_of R (h hfirst) (hrest value hrun)

theorem Keeps.andThen {first second : PassM σ Control} (h : Keeps R first)
    (h' : Keeps R second) : Keeps R (Control.andThen first second) := by
  refine h.bind fun control => ?_
  cases control with
  | halt => exact keeps_pure _
  | proceed => exact h'

theorem Keeps.visitAll {visit : α → PassM σ Control} {xs : List α}
    (h : ∀ x ∈ xs, Keeps R (visit x)) : Keeps R (Control.visitAll visit xs) := by
  induction xs with
  | nil => exact keeps_pure _
  | cons x xs ih =>
    have hrest := ih fun y hy => h y (List.mem_cons_of_mem _ hy)
    exact (h x List.mem_cons_self).andThen hrest

end Rules

end PassM

open PassM

/-! ## Steps aside -/

/-- Between two passes nothing was switched on or off, triggered or put off, and only some roles
were fired. -/
structure Pass.Aside {σ : Type} (occasion : Occasion σ) (may : RoleId → Prop) (pass next : Pass σ) :
    Prop where
  stream : next.stream = pass.stream
  groups : next.groups = pass.groups
  lastEnd : next.lastEnd = pass.lastEnd
  caughtUpTo : next.caughtUpTo = pass.caughtUpTo
  halted : occasion.IsQuiet → next.halted = pass.halted
  suited : pass.scratch.Suited occasion.engine → next.scratch.Suited occasion.engine
  triggered : next.scratch.triggered = pass.scratch.triggered
  delayed : next.scratch.delayed = pass.scratch.delayed
  enabled : next.scratch.enabled = pass.scratch.enabled
  journal : ∃ entries, next.journal = entries ++ pass.journal
    ∧ ∀ role, .fired role ∈ entries → may role

/-- Some flag that is on leads to the role. -/
def Occasion.Reaches {σ : Type} (occasion : Occasion σ) (flags : FlagSet) (role : RoleId) : Prop :=
  ∃ stop ∈ occasion.engine.walk, flags.isOn stop.state = true
    ∧ ∃ entry ∈ stop.entries, entry.role = role

/-- Between two passes only roles were fired that the flags lead to. -/
def Pass.Walked {σ : Type} (occasion : Occasion σ) (pass next : Pass σ) : Prop :=
  Pass.Aside occasion (occasion.Reaches pass.stream.roles) pass next

section Aside

variable {σ : Type} {occasion : Occasion σ} {may might : RoleId → Prop}

theorem Pass.Aside.refl (pass : Pass σ) : Pass.Aside occasion may pass pass :=
  ⟨rfl, rfl, rfl, rfl, fun _ => rfl, id, rfl, rfl, rfl, [], rfl, nofun⟩

theorem Pass.Aside.trans {pass middle next : Pass σ} (h : Pass.Aside occasion may pass middle)
    (h' : Pass.Aside occasion may middle next) : Pass.Aside occasion may pass next := by
  obtain ⟨first, hfirst, hfired⟩ := h.journal
  obtain ⟨second, hsecond, hfired'⟩ := h'.journal
  refine
    { stream := h'.stream.trans h.stream
      groups := h'.groups.trans h.groups
      lastEnd := h'.lastEnd.trans h.lastEnd
      caughtUpTo := h'.caughtUpTo.trans h.caughtUpTo
      halted := fun hquiet => (h'.halted hquiet).trans (h.halted hquiet)
      suited := fun hsuited => h'.suited (h.suited hsuited)
      triggered := h'.triggered.trans h.triggered
      delayed := h'.delayed.trans h.delayed
      enabled := h'.enabled.trans h.enabled
      journal := ⟨second ++ first, ?_, fun role hrole => ?_⟩ }
  · rw [hsecond, hfirst, List.append_assoc]
  · exact (List.mem_append.1 hrole).elim (hfired' role) (hfired role)

theorem Pass.Aside.mono {pass next : Pass σ} (h : Pass.Aside occasion may pass next)
    (hmay : ∀ role, may role → might role) : Pass.Aside occasion might pass next := by
  obtain ⟨entries, hjournal, hfired⟩ := h.journal
  exact { h with journal := ⟨entries, hjournal, fun role hrole => hmay role (hfired role hrole)⟩ }

instance : IsPreorder (Pass σ) (Pass.Aside occasion may) where
  refl := Pass.Aside.refl
  trans _ _ _ := Pass.Aside.trans

instance : IsPreorder (Pass σ) (Pass.Walked occasion) where
  refl pass := Pass.Aside.refl pass
  trans pass middle next h h' := by
    have hroles : middle.stream.roles = pass.stream.roles := congrArg _ h.stream
    have h' : Pass.Aside occasion (occasion.Reaches pass.stream.roles) middle next := hroles ▸ h'
    exact Pass.Aside.trans h h'

theorem Pass.aside_note {entry : JournalEntry} (hentry : ∀ role, entry = .fired role → may role)
    (pass : Pass σ) :
    Pass.Aside occasion may pass { pass with journal := entry :: pass.journal } :=
  have hrefl : Pass.Aside occasion may pass pass := .refl pass
  { hrefl with
    journal := ⟨[entry], rfl, fun role hrole => hentry role (List.mem_singleton.1 hrole).symm⟩ }

namespace Occasion

theorem aside_report (offset : Nat) (id : ReportId) :
    Keeps (Pass.Aside occasion may) (occasion.report offset id) := by
  intro pass answer next hrun
  cases hhalted : pass.halted with
  | true =>
    rw [report_of_halted hhalted] at hrun
    cases hrun
    exact Pass.Aside.refl pass
  | false =>
    rw [report_of_running hhalted] at hrun
    cases hrun
    have hrefl : Pass.Aside occasion may pass pass := .refl pass
    refine { hrefl with
      halted := fun hquiet => ?_
      journal := ⟨[_], rfl, fun role hrole => nomatch List.mem_singleton.1 hrole⟩ }
    rw [hquiet, hhalted]
    rfl

theorem aside_converse (queue : Nat) (dialogue : Dialogue) :
    Keeps (Pass.Aside occasion may) (occasion.converse queue dialogue) := by
  induction dialogue with
  | done control => exact keeps_pure control
  | fault fault => exact keeps_throw fault
  | ask offset id next ih =>
    refine (aside_report offset id).bind fun control => ?_
    exact (keeps_note (Pass.aside_note nofun)).bind fun _ => ih control

theorem aside_askFinal (queue : Nat) (slot : Slot) (full short : Bytes) :
    Keeps (Pass.Aside occasion may) (occasion.askFinal queue slot full short) := by
  refine (keeps_note (Pass.aside_note nofun)).bind fun _ => ?_
  exact (aside_converse queue _).bind fun _ => Keeps.get_bind fun _ => keeps_pure _

theorem aside_expand (queue : Nat) (slot : Slot) :
    Keeps (Pass.Aside occasion may) (occasion.expand queue slot) := by
  refine Keeps.get_bind fun _ => Keeps.lift_bind fun _ _ => Keeps.lift_bind fun _ _ => ?_
  refine Keeps.lift_bind fun made _ => (keeps_changeScratch fun pass scratch hwritten => ?_).bind
    fun _ => ?_
  · obtain ⟨slot, -, hwritten⟩ := Except.bind_eq_ok_iff.1 hwritten
    obtain ⟨_, -, hwritten⟩ := Except.bind_eq_ok_iff.1 hwritten
    cases hwritten
    exact { Pass.Aside.refl pass with suited := fun hsuited => hsuited.written slot made }
  · refine Keeps.get_bind fun _ => Keeps.lift_bind fun _ _ => ?_
    exact keeps_note (Pass.aside_note nofun)

theorem aside_askActive (queue : Nat) :
    Keeps (Pass.Aside occasion may) (occasion.askActive queue) := by
  refine Keeps.lift_bind fun slot _ => ?_
  refine Keeps.ite (keeps_pure _) (Keeps.get_bind fun _ => Keeps.lift_bind fun _ _ => ?_)
  refine Keeps.get_bind fun _ => Keeps.lift_bind fun short _ => ?_
  have hask : Keeps (Pass.Aside occasion may) (do
      let full ← (← get).scratch.fullOf occasion.engine queue
      occasion.askFinal queue slot full short) :=
    Keeps.get_bind fun _ => Keeps.lift_bind fun _ _ => aside_askFinal _ _ _ _
  exact Keeps.ite ((aside_expand queue slot).bind fun _ => hask) hask

theorem aside_askAllActive :
    Keeps (Pass.Aside occasion may) occasion.askAllActive :=
  Keeps.get_bind fun _ => Keeps.lift_bind fun _ _ =>
    Keeps.visitAll fun queue _ => aside_askActive queue

theorem aside_visitEntry (entry : WalkEntry) (hmay : may entry.role) :
    Keeps (Pass.Aside occasion may) (occasion.visitEntry entry) := by
  refine Keeps.get_bind fun _ => Keeps.ite (keeps_pure _) (Keeps.lift_bind fun role _ => ?_)
  have hfire : Keeps (Pass.Aside occasion may) (do
      let marked ← (← get).scratch.handled.insert entry.role.toNat
      PassM.changeScratch fun scratch => .ok { scratch with handled := marked.2 }
      PassM.note (.fired entry.role)
      occasion.report occasion.offset role.report) := by
    refine Keeps.get_bind_at fun pass answer next hrun => ?_
    obtain ⟨marked, hinsert, hrun⟩ := exists_of_lift_bind hrun
    have hmark : Pass.Aside occasion may pass
        { pass with scratch := { pass.scratch with handled := marked.2 } } :=
      { Pass.Aside.refl pass with
        suited := fun hsuited =>
          { hsuited with
            handled := (hsuited.handled.isSound_of_insert hinsert).1
            handled_capacity :=
              (hsuited.handled.isSound_of_insert hinsert).2.trans hsuited.handled_capacity } }
    have hrest : Keeps (Pass.Aside occasion may) (do
        PassM.note (.fired entry.role)
        occasion.report occasion.offset role.report) :=
      (keeps_note (Pass.aside_note fun role heq => by cases heq; exact hmay)).bind
        fun _ => aside_report _ _
    exact hmark.trans (hrest hrun)
  refine Keeps.ite ?_ hfire
  exact Keeps.lift_bind fun _ _ => Keeps.ite (keeps_pure _) hfire

/-- A walk fires only roles that the flags lead to. -/
theorem walked_walk : Keeps (Pass.Walked occasion) occasion.walk := by
  refine (keeps_changeScratch fun pass scratch hclear => ?_).bind fun _ => ?_
  · cases hclear
    exact { Pass.Aside.refl pass with
      suited := fun hsuited => { hsuited with handled := hsuited.handled.clear } }
  refine Keeps.visitAll fun stop hstop => Keeps.get_bind_at fun pass answer next hrun => ?_
  obtain ⟨isOn, hcontains, hrun⟩ := exists_of_lift_bind hrun
  have hcontains := FlagSet.isOn_of_contains hcontains
  by_cases hon : isOn = true
  · rw [if_pos hon] at hrun
    have hon := hcontains.trans hon
    have hvisit : Keeps (Pass.Aside occasion (occasion.Reaches pass.stream.roles))
        (Control.visitAll occasion.visitEntry stop.entries) :=
      Keeps.visitAll fun entry hentry =>
        aside_visitEntry entry ⟨stop, hstop, hon, entry, hentry, rfl⟩
    exact hvisit hrun
  · rw [if_neg hon] at hrun
    cases hrun
    exact Pass.Aside.refl pass

end Occasion

end Aside

/-! ## Steps that switch on -/

/-- Between two passes only some roles were switched on, and no automaton if the steps are still. -/
structure Pass.Lights {σ : Type} (lit : Nat → Prop) (still : Prop) (pass next : Pass σ) :
    Prop where
  roles : ∀ flag, next.stream.roles.isOn flag = true →
    pass.stream.roles.isOn flag = true ∨ lit flag
  leaves : still → next.stream.leaves = pass.stream.leaves
  enabled : next.scratch.enabled = pass.scratch.enabled
  journal : ∃ entries, next.journal = entries ++ pass.journal

/-- The flag of a role. -/
def Engine.FlagOf (engine : Engine) (id : RoleId) (flag : Nat) : Prop :=
  ∃ role, engine.role id = .ok role ∧ role.state? = some flag

/-- The flags of some roles. -/
def Engine.FlagsOf (engine : Engine) (ids : List RoleId) (flag : Nat) : Prop :=
  ∃ id ∈ ids, engine.FlagOf id flag

section Lights

variable {σ : Type} {occasion : Occasion σ} {lit : Nat → Prop} {still : Prop}

theorem Pass.Lights.refl (pass : Pass σ) : Pass.Lights lit still pass pass :=
  ⟨fun _ => .inl, fun _ => rfl, rfl, [], rfl⟩

theorem Pass.Lights.trans {pass middle next : Pass σ} (h : Pass.Lights lit still pass middle)
    (h' : Pass.Lights lit still middle next) : Pass.Lights lit still pass next := by
  obtain ⟨first, hfirst⟩ := h.journal
  obtain ⟨second, hsecond⟩ := h'.journal
  exact
    { roles := fun flag hflag => (h'.roles flag hflag).elim (h.roles flag) .inr
      leaves := fun hstill => (h'.leaves hstill).trans (h.leaves hstill)
      enabled := h'.enabled.trans h.enabled
      journal := ⟨second ++ first, by rw [hsecond, hfirst, List.append_assoc]⟩ }

instance : IsPreorder (Pass σ) (Pass.Lights lit still) where
  refl := Pass.Lights.refl
  trans _ _ _ := Pass.Lights.trans

theorem Pass.Lights.mono {more : Nat → Prop} {pass next : Pass σ}
    (h : Pass.Lights lit still pass next) (hlit : ∀ flag, lit flag → more flag) :
    Pass.Lights more still pass next :=
  { h with roles := fun flag hflag => (h.roles flag hflag).imp_right (hlit flag) }

theorem Pass.Aside.lights {may : RoleId → Prop} {pass next : Pass σ}
    (h : Pass.Aside occasion may pass next) : Pass.Lights lit still pass next where
  roles _ hflag := .inl (h.stream ▸ hflag)
  leaves _ := congrArg _ h.stream
  enabled := h.enabled
  journal := h.journal.imp fun _ => And.left

theorem Pass.lights_note {entry : JournalEntry} (pass : Pass σ) :
    Pass.Lights lit still pass { pass with journal := entry :: pass.journal } :=
  have hrefl : Pass.Lights lit still pass pass := .refl pass
  { hrefl with journal := ⟨[entry], rfl⟩ }

namespace Occasion

theorem lights_switchOn (id : RoleId) :
    Keeps (Pass.Lights (occasion.engine.FlagOf id) still) (occasion.switchOn id) := by
  refine Keeps.lift_bind fun role hrole => ?_
  cases hstate : role.state? with
  | none => exact keeps_pure ()
  | some state =>
    refine keeps_changeRoles fun pass roles hinsert => ?_
    have hrefl : Pass.Lights (occasion.engine.FlagOf id) still pass pass := .refl pass
    refine { hrefl with roles := fun flag hflag => ?_ }
    rcases FlagSet.eq_or_isOn_of_insert hinsert hflag with rfl | hbefore
    · exact .inr ⟨role, hrole, hstate⟩
    · exact .inl hbefore

theorem lights_switchAllOn (ids : List RoleId) :
    Keeps (Pass.Lights (occasion.engine.FlagsOf ids) still) (occasion.switchAllOn ids) := by
  induction ids with
  | nil => exact keeps_pure ()
  | cons id ids ih =>
    have hfirst : Keeps (Pass.Lights (occasion.engine.FlagsOf (id :: ids)) still)
        (occasion.switchOn id) :=
      (lights_switchOn id).mono fun _ _ h => h.mono fun _ hflag => ⟨id, List.mem_cons_self, hflag⟩
    refine hfirst.bind fun _ => ih.mono fun _ _ h => h.mono ?_
    rintro flag ⟨other, hother, hflag⟩
    exact ⟨other, List.mem_cons_of_mem _ hother, hflag⟩

theorem lights_switchAllOff (states : List Nat) :
    Keeps (Pass.Lights lit still) (switchAllOff states : PassM σ Unit) := by
  induction states with
  | nil => exact keeps_pure ()
  | cons state states ih =>
    refine (keeps_changeRoles fun pass roles herase => ?_).bind fun _ => ih
    have hrefl : Pass.Lights lit still pass pass := .refl pass
    exact { hrefl with
      roles := fun flag hflag => .inl (FlagSet.isOn_of_isOn_erase herase hflag) }

theorem lights_dropLastByteRoles (offset : Nat) :
    Keeps (Pass.Lights lit still) (occasion.dropLastByteRoles offset) :=
  Keeps.get_bind fun _ => Keeps.ite (lights_switchAllOff _) (keeps_pure _)

theorem lights_changeScratch {change : Scratch → Except Fault Scratch}
    (h : ∀ scratch next, change scratch = .ok next → next.enabled = scratch.enabled) :
    Keeps (Pass.Lights lit still) (PassM.changeScratch change : PassM σ Unit) := by
  refine keeps_changeScratch fun pass scratch hchange => ?_
  have hrefl : Pass.Lights lit still pass pass := .refl pass
  exact { hrefl with enabled := h _ _ hchange }

theorem lights_prepare (queue : Nat) (slot : Slot) :
    Keeps (Pass.Lights lit still) (occasion.prepare queue slot) := by
  refine Keeps.get_bind fun pass => Keeps.lift_bind fun triggered _ => ?_
  refine (lights_changeScratch fun scratch next h => ?_).bind fun _ => ?_
  · cases h
    rfl
  refine (lights_changeScratch fun scratch next h => ?_).bind fun _ => ?_
  · obtain ⟨_, -, h⟩ := Except.bind_eq_ok_iff.1 h
    cases h
    rfl
  refine Keeps.get_bind fun _ => Keeps.lift_bind fun _ _ => Keeps.lift_bind fun made _ => ?_
  refine (lights_changeScratch fun scratch next h => ?_).bind fun _ => ?_
  · obtain ⟨_, -, h⟩ := Except.bind_eq_ok_iff.1 h
    obtain ⟨_, -, h⟩ := Except.bind_eq_ok_iff.1 h
    cases h
    rfl
  · refine Keeps.get_bind fun _ => Keeps.lift_bind fun _ _ => keeps_note Pass.lights_note

theorem lights_trigger (offset : Nat) (queue : QueueId) :
    Keeps (Pass.Lights lit False) (occasion.trigger offset queue) := by
  refine Keeps.lift_bind fun slot _ => Keeps.get_bind fun pass => ?_
  refine Keeps.lift_bind fun isTriggered _ => ?_
  have hpush : Keeps (Pass.Lights lit False) (do
      PassM.changeLeaves (·.insert queue.toNat)
      let location := occasion.locate offset
      PassM.changeScratch (·.pushEvent queue.toNat ⟨.top, location⟩)
      PassM.note (.triggered queue.toNat location) : PassM σ Unit) := by
    refine (keeps_changeLeaves fun pass leaves _ => ?_).bind fun _ => ?_
    · have hrefl : Pass.Lights lit False pass pass := .refl pass
      exact { hrefl with leaves := False.elim }
    refine (lights_changeScratch fun scratch next h => ?_).bind fun _ => ?_
    · obtain ⟨_, -, h⟩ := Except.bind_eq_ok_iff.1 h
      obtain ⟨_, -, h⟩ := Except.bind_eq_ok_iff.1 h
      cases h
      rfl
    · exact keeps_note Pass.lights_note
  exact Keeps.ite ((lights_prepare _ slot).bind fun _ => hpush) hpush

theorem lights_triggerAll (offset : Nat) (queues : List QueueId) :
    Keeps (Pass.Lights lit (queues = [])) (occasion.triggerAll offset queues) := by
  induction queues with
  | nil => exact keeps_pure ()
  | cons queue queues ih =>
    have hfirst : Keeps (Pass.Lights lit (queue :: queues = [])) (occasion.trigger offset queue) :=
      (lights_trigger offset queue).mono fun _ _ h => { h with leaves := nofun }
    exact hfirst.bind fun _ => ih.mono fun _ _ h => { h with leaves := nofun }

/-- An action switches on its roles, and automata only if it triggers some. -/
theorem lights_settle (offset : Nat) (action : Action) :
    Keeps (Pass.Lights (occasion.engine.FlagsOf action.roles) (action.suffixes = []))
      (occasion.settle offset action) := by
  refine (lights_switchAllOn action.roles).bind fun _ => ?_
  refine (lights_triggerAll offset action.suffixes).bind fun _ => ?_
  refine (keeps_modify fun pass => ?_).bind fun _ => keeps_pure _
  have hrefl : Pass.Lights (occasion.engine.FlagsOf action.roles) (action.suffixes = []) pass
    pass := .refl pass
  exact { hrefl with }

/-- So does its run, once its reports are out. -/
theorem lights_reports_settle (offset : Nat) (action : Action) :
    Keeps (Pass.Lights (occasion.engine.FlagsOf action.roles) (action.suffixes = []))
      (Control.andThen (Control.visitAll (occasion.report offset) action.reports)
        (occasion.settle offset action)) := by
  refine Keeps.andThen (Keeps.visitAll fun id _ => ?_) (lights_settle offset action)
  have hreport : Keeps (Pass.Aside occasion fun _ => False) (occasion.report offset id) :=
    aside_report offset id
  exact hreport.mono fun _ _ h => h.lights

end Occasion

end Lights

/-! ## Scans -/

/-- The relation does not see how far a scan came: what waits, where the last literal ended, and up
to where triggers were looked for. -/
structure PassM.Overlooks {σ : Type} (R : Pass σ → Pass σ → Prop) : Prop where
  delayed : ∀ (pass : Pass σ) delayed, R pass { pass with scratch := { pass.scratch with delayed } }
  lastEnd : ∀ (pass : Pass σ) lastEnd, R pass { pass with lastEnd }
  caughtUpTo : ∀ (pass : Pass σ) caughtUpTo, R pass { pass with caughtUpTo }

namespace Occasion

section Scan

variable {σ : Type} {occasion : Occasion σ} {R : Pass σ → Pass σ → Prop} [IsPreorder (Pass σ) R]

omit [IsPreorder (Pass σ) R] in
theorem keeps_changeDelayed
    (hdelayed : ∀ pass delayed, R pass { pass with scratch := { pass.scratch with delayed } })
    (change : List Delayed → List Delayed) :
    Keeps R (PassM.changeScratch fun scratch =>
      .ok { scratch with delayed := change scratch.delayed } : PassM σ Unit) := by
  refine keeps_changeScratch fun pass scratch hchange => ?_
  cases hchange
  exact hdelayed pass _

variable (hrun : ∀ offset id, Keeps R (occasion.runAction offset id))
include hrun

theorem keeps_runOrDelay
    (hdelayed : ∀ pass delayed, R pass { pass with scratch := { pass.scratch with delayed } })
    (offset : Nat) (id : LiteralId) (isEndEvent : Bool) :
    Keeps R (occasion.runOrDelay offset id isEndEvent) := by
  unfold runOrDelay
  cases occasion.engine.actions.find? id with
  | none => exact keeps_pure _
  | some action =>
    refine Keeps.get_bind fun _ => Keeps.ite (keeps_pure _) (Keeps.ite ?_ (hrun _ _))
    exact (keeps_changeDelayed hdelayed _).bind fun _ => keeps_pure _

theorem keeps_runEndEvent
    (hdelayed : ∀ pass delayed, R pass { pass with scratch := { pass.scratch with delayed } }) :
    Keeps R occasion.runEndEvent := by
  unfold runEndEvent
  cases occasion.engine.endEvent? with
  | none => exact keeps_pure _
  | some id => exact keeps_runOrDelay hrun hdelayed _ id true

theorem keeps_runDelayed
    (hdelayed : ∀ pass delayed, R pass { pass with scratch := { pass.scratch with delayed } })
    (upTo : Nat) : Keeps R (occasion.runDelayed upTo) := by
  refine Keeps.get_bind fun _ => Keeps.bind ?_ fun control => ?_
  · exact Keeps.visitAll fun delayed _ => hrun delayed.due delayed.id
  · cases control with
    | halt => exact (keeps_changeDelayed hdelayed fun _ => []).bind fun _ => keeps_pure _
    | proceed => exact (keeps_changeDelayed hdelayed (·.drop _)).bind fun _ => keeps_pure _

variable (hover : Overlooks R)
include hover

theorem keeps_onLiteral (matchEnd : Nat) (id : LiteralId) :
    Keeps R (occasion.onLiteral matchEnd id) := by
  refine Keeps.andThen (keeps_runDelayed hrun hover.delayed _) ?_
  refine (keeps_modify fun pass => hover.lastEnd pass _).bind fun _ => ?_
  exact keeps_runOrDelay hrun hover.delayed _ id false

theorem keeps_scanTail (hsound : occasion.engine.IsSound) {matcher : EndMatcher}
    (hmatcher : occasion.engine.matcher? = some matcher) :
    Keeps R (occasion.scanTail matcher) := by
  obtain ⟨literals, hserves⟩ := hsound.matcher matcher hmatcher
  have hscan : Keeps R (Naive.scan literals (occasion.tailInput matcher) occasion.sink) := by
    refine Keeps.visitAll fun matchEnd _ => Keeps.get_bind fun _ => ?_
    exact Keeps.visitAll fun id _ => keeps_onLiteral hrun hover matchEnd id
  rw [scanTail_eq_naive hserves]
  refine Keeps.ite (keeps_pure _) ?_
  refine (keeps_modify fun pass => hover.caughtUpTo pass _).bind fun _ => ?_
  refine Keeps.andThen hscan ((keeps_runDelayed hrun hover.delayed _).bind fun _ => ?_)
  exact (keeps_changeDelayed hover.delayed fun _ => []).bind fun _ => keeps_pure _

end Scan

end Occasion

end Multimatch
