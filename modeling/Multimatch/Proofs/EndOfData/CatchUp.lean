import Multimatch.Proofs.EndOfData.Keeps
import Multimatch.Proofs.FlagSet

/-!
# Catching up

Triggers are looked for from where this was done last, up to some offset. That switches on exactly
the roles of the enabled triggers whose byte stands there, and nothing else happens but that the
position moves on. So it makes no difference whether one catches up at once or through offsets
before, in whatever order these come (`Occasion.catchUp_exact`).
-/

namespace Multimatch

open PassM

variable {σ : Type}

/-- The flags of roles are those that the engine has, with a bit for each. -/
structure Pass.RolesFit (engine : Engine) (pass : Pass σ) : Prop where
  capacity : pass.stream.roles.capacity = engine.roleStates
  sized : pass.stream.roles.IsSized

/-- Between two passes the given flags of roles were switched on, and nothing else happened. -/
def Pass.Raised (given : Nat → Prop) (pass next : Pass σ) : Prop :=
  ∃ roles, pass.stream.roles.Gains given roles
    ∧ next = { pass with stream := { pass.stream with roles } }

namespace Pass

variable {engine : Engine} {pass middle next : Pass σ} {given more : Nat → Prop}

theorem Raised.of_none (hnone : ∀ flag, ¬given flag) : Pass.Raised given pass pass :=
  ⟨_, .of_none hnone, rfl⟩

theorem Raised.trans (h : Pass.Raised given pass middle) (h' : Pass.Raised more middle next) :
    Pass.Raised (fun flag => given flag ∨ more flag) pass next := by
  obtain ⟨_, hgains, rfl⟩ := h
  obtain ⟨roles, hgains', rfl⟩ := h'
  exact ⟨roles, hgains.trans hgains', rfl⟩

theorem Raised.congr (h : Pass.Raised given pass next) (hsame : ∀ flag, given flag ↔ more flag) :
    Pass.Raised more pass next := by
  obtain ⟨roles, hgains, rfl⟩ := h
  exact ⟨roles, hgains.congr hsame, rfl⟩

theorem Raised.rolesFit (h : Pass.Raised given pass next) (hfit : pass.RolesFit engine) :
    next.RolesFit engine := by
  obtain ⟨roles, hgains, rfl⟩ := h
  exact ⟨hgains.shape.capacity.trans hfit.capacity, hgains.shape.isSized hfit.sized⟩

end Pass

namespace Occasion

variable {occasion : Occasion σ} {pass : Pass σ}

/-! ## Switching on -/

theorem raised_switchOn (hfit : pass.RolesFit occasion.engine) {id : RoleId}
    (hflag : occasion.engine.HasFlag id) :
    Gives (occasion.switchOn id) pass fun _ => Pass.Raised (occasion.engine.FlagOf id) pass := by
  obtain ⟨role, state, hrole, hstate, hlt⟩ := hflag
  have hrole : occasion.engine.role id = .ok role := elementAt_eq_ok_iff.2 hrole
  have hbelow : state < pass.stream.roles.capacity := hfit.capacity ▸ hlt
  obtain ⟨roles, hinsert, -⟩ := hfit.sized.exists_insert hbelow
  have hown (flag : Nat) : flag = state ↔ occasion.engine.FlagOf id flag := by
    simp [Engine.FlagOf, hrole, hstate, eq_comm]
  simp only [switchOn, gives_bind, gives_lift]
  refine ⟨role, hrole, ?_⟩
  simp only [hstate, gives_changeRoles]
  exact ⟨roles, hinsert, _, (FlagSet.gains_insert hinsert).congr hown, rfl⟩

theorem raised_switchAllOn (hfit : pass.RolesFit occasion.engine) {ids : List RoleId}
    (hflags : ∀ id ∈ ids, occasion.engine.HasFlag id) :
    Gives (occasion.switchAllOn ids) pass
      fun _ => Pass.Raised (occasion.engine.FlagsOf ids) pass := by
  induction ids generalizing pass with
  | nil => exact gives_pure.2 (.of_none fun flag ⟨_, hid, _⟩ => nomatch hid)
  | cons id ids ih =>
    obtain ⟨hfirst, hrest⟩ := List.forall_mem_cons.1 hflags
    rw [switchAllOn, gives_bind]
    refine (raised_switchOn hfit hfirst).mono fun _ middle hmiddle => ?_
    refine (ih (hmiddle.rolesFit hfit) hrest).mono fun _ next hnext => ?_
    exact (hmiddle.trans hnext).congr fun flag => by simp [Engine.FlagsOf]

/-! ## Triggers -/

/-- The byte of the data at an offset. -/
def byteAt? (occasion : Occasion σ) (offset : Nat) : Option UInt8 :=
  if occasion.dataStart ≤ offset then occasion.data[offset - occasion.dataStart]? else none

/-- An enabled trigger whose role has the flag has its byte at an offset from `first` on and before
`stop`. -/
def PulledIn (occasion : Occasion σ) (enabled : List Bool) (first stop flag : Nat) : Prop :=
  ∃ trigger, (trigger, true) ∈ occasion.engine.triggers.zip enabled
    ∧ occasion.engine.FlagOf trigger.role flag
    ∧ ∃ offset, first ≤ offset ∧ offset < stop ∧ occasion.byteAt? offset = some trigger.byte

variable (hsound : occasion.engine.IsSound)
include hsound

theorem raised_pullTriggers (hfit : pass.RolesFit occasion.engine) (window : Bytes) :
    Gives (occasion.pullTriggers window) pass fun _ => Pass.Raised (fun flag =>
      ∃ trigger, (trigger, true) ∈ occasion.engine.triggers.zip pass.scratch.enabled
        ∧ occasion.engine.FlagOf trigger.role flag ∧ trigger.byte ∈ window) pass := by
  simp only [pullTriggers, gives_bind, gives_get, gives_lift]
  refine ⟨_, Engine.pulled_eq hsound.triggerBytes, ?_⟩
  have hflags : ∀ id ∈ occasion.engine.pulledBy pass.scratch.enabled window,
      occasion.engine.HasFlag id := by
    intro id hid
    obtain ⟨trigger, hpair, -, rfl⟩ := Engine.mem_pulledBy.1 hid
    exact hsound.trigger trigger (List.of_mem_zip hpair).1
  refine (raised_switchAllOn hfit hflags).mono fun _ next hnext => hnext.congr fun flag => ?_
  constructor
  · rintro ⟨id, hid, hflag⟩
    obtain ⟨trigger, hpair, hbyte, rfl⟩ := Engine.mem_pulledBy.1 hid
    exact ⟨trigger, hpair, hflag, hbyte⟩
  · rintro ⟨trigger, hpair, hflag, hbyte⟩
    exact ⟨trigger.role, Engine.mem_pulledBy.2 ⟨trigger, hpair, hbyte, rfl⟩, hflag⟩

omit hsound in
/-- The bytes of a window are those at its offsets. -/
theorem mem_extract_iff (hdata : occasion.data.size ≤ occasion.offset) {first upTo : Nat}
    (hfirst : occasion.dataStart ≤ first) {byte : UInt8} :
    byte ∈ occasion.data.extract (first - occasion.dataStart)
        (min (upTo - occasion.dataStart) occasion.data.size)
      ↔ ∃ offset, first ≤ offset ∧ offset < min upTo occasion.offset
        ∧ occasion.byteAt? offset = some byte := by
  have hstart : occasion.dataStart + occasion.data.size = occasion.offset :=
    Nat.sub_add_cancel hdata
  rw [Array.mem_extract_iff_getElem]
  constructor
  · rintro ⟨place, hplace, rfl⟩
    refine ⟨place + first, by omega, by omega, ?_⟩
    have hindex : place + first - occasion.dataStart = first - occasion.dataStart + place := by
      omega
    rw [byteAt?, if_pos (by omega), hindex, Array.getElem?_eq_getElem]
  · rintro ⟨offset, hle, hlt, hbyte⟩
    rw [byteAt?, if_pos (by omega)] at hbyte
    obtain ⟨hinside, rfl⟩ := Array.getElem?_eq_some_iff.1 hbyte
    have hindex : first - occasion.dataStart + (offset - first) = offset - occasion.dataStart := by
      omega
    exact ⟨offset - first, by omega, by simp only [hindex]⟩

/-- Between two passes the triggers were looked for up to an offset. -/
def CaughtUp (occasion : Occasion σ) (upTo : Nat) (pass next : Pass σ) : Prop :=
  ∃ roles, pass.stream.roles.Gains (occasion.PulledIn pass.scratch.enabled
      (max pass.caughtUpTo occasion.dataStart) (min upTo occasion.offset)) roles
    ∧ next = { pass with
        stream := { pass.stream with roles }
        caughtUpTo := max pass.caughtUpTo upTo }

theorem caughtUp_catchUp (hdata : occasion.data.size ≤ occasion.offset)
    (hfit : pass.RolesFit occasion.engine) (upTo : Nat) :
    Gives (occasion.catchUp upTo) pass fun _ => occasion.CaughtUp upTo pass := by
  have hfirst : occasion.dataStart ≤ max pass.caughtUpTo occasion.dataStart := Nat.le_max_right ..
  simp only [catchUp, gives_bind, gives_get, gives_ite, gives_modify]
  constructor
  · intro _
    refine (raised_pullTriggers hsound hfit _).mono fun _ next hnext => ?_
    obtain ⟨roles, hgains, rfl⟩ := hnext
    refine ⟨roles, hgains.congr fun flag => ?_, rfl⟩
    simp only [mem_extract_iff hdata hfirst, PulledIn]
  · intro hnone
    refine ⟨_, .of_none fun flag hpulled => ?_, rfl⟩
    obtain ⟨trigger, -, -, offset, hle, hlt, -⟩ := hpulled
    refine hnone ⟨by omega, ?_⟩
    rw [dataStart] at hle ⊢
    omega

omit hsound in
/-- Catching up twice is catching up once, with the two windows side by side. -/
theorem CaughtUp.trans {first second : Nat} {middle next : Pass σ}
    (h : occasion.CaughtUp first pass middle) (h' : occasion.CaughtUp second middle next) :
    occasion.CaughtUp (max first second) pass next := by
  obtain ⟨_, hgains, rfl⟩ := h
  obtain ⟨roles, hgains', rfl⟩ := h'
  refine ⟨roles, (hgains.trans hgains').congr fun flag => ?_, by rw [Nat.max_assoc]⟩
  simp only [PulledIn]
  constructor
  · rintro (⟨trigger, hpair, hflag, offset, hle, hlt, hbyte⟩
      | ⟨trigger, hpair, hflag, offset, hle, hlt, hbyte⟩)
    · exact ⟨trigger, hpair, hflag, offset, hle, by omega, hbyte⟩
    · exact ⟨trigger, hpair, hflag, offset, by omega, by omega, hbyte⟩
  · rintro ⟨trigger, hpair, hflag, offset, hle, hlt, hbyte⟩
    by_cases hbefore : offset < first
    · exact .inl ⟨trigger, hpair, hflag, offset, hle, by omega, hbyte⟩
    · exact .inr ⟨trigger, hpair, hflag, offset, by omega, by omega, hbyte⟩

omit hsound in
theorem caughtUp_zero (pass : Pass σ) : occasion.CaughtUp 0 pass pass := by
  refine ⟨_, .of_none fun flag hpulled => ?_, by rw [Nat.max_zero]⟩
  obtain ⟨_, -, -, _, -, hlt, -⟩ := hpulled
  omega

omit hsound in
/-- There is only one way to have caught up. -/
theorem CaughtUp.unique {upTo : Nat} {next other : Pass σ} (h : occasion.CaughtUp upTo pass next)
    (h' : occasion.CaughtUp upTo pass other) : next = other := by
  obtain ⟨roles, hgains, rfl⟩ := h
  obtain ⟨roles', hgains', rfl⟩ := h'
  rw [hgains.unique hgains']

omit hsound in
theorem CaughtUp.rolesFit {upTo : Nat} {next : Pass σ} (h : occasion.CaughtUp upTo pass next)
    (hfit : pass.RolesFit occasion.engine) : next.RolesFit occasion.engine := by
  obtain ⟨roles, hgains, rfl⟩ := h
  exact ⟨hgains.shape.capacity.trans hfit.capacity, hgains.shape.isSized hfit.sized⟩

/-- Catches up to some offsets, one after the other. -/
def catchUpAll (occasion : Occasion σ) : List Nat → PassM σ Unit
  | [] => pure ()
  | target :: targets => do
    occasion.catchUp target
    catchUpAll occasion targets

/-- Catching up through some offsets is catching up to the last of them. -/
theorem catchUpAll_eq (hdata : occasion.data.size ≤ occasion.offset)
    (hfit : pass.RolesFit occasion.engine) (targets : List Nat) :
    occasion.catchUpAll targets pass = occasion.catchUp (targets.foldr max 0) pass := by
  induction targets generalizing pass with
  | nil =>
    obtain ⟨_, next, hnext, hcaught⟩ := caughtUp_catchUp hsound hdata hfit 0
    rw [List.foldr_nil, hnext, hcaught.unique (caughtUp_zero pass)]
    rfl
  | cons target targets ih =>
    obtain ⟨_, middle, hmiddle, hfirst⟩ := caughtUp_catchUp hsound hdata hfit target
    have hfit' := hfirst.rolesFit hfit
    obtain ⟨_, next, hnext, hrest⟩ := caughtUp_catchUp hsound hdata hfit' (targets.foldr max 0)
    obtain ⟨_, whole, hwhole, hall⟩ :=
      caughtUp_catchUp hsound hdata hfit (max target (targets.foldr max 0))
    rw [List.foldr_cons, hwhole, ← (hfirst.trans hrest).unique hall, ← hnext, ← ih hfit']
    simp only [catchUpAll, bind, EStateM.bind, hmiddle]

end Occasion

/-- Catching up switches on exactly the roles of the enabled triggers whose byte stands between the
position and the offset, as far as there is data; it switches none off, moves the position on and
does nothing else. One after the other, offsets come to the same as the last of them. -/
theorem Occasion.catchUp_exact {occasion : Occasion σ} {plan : Plan} {pass : Pass σ}
    (hbuild : plan.build = .ok occasion.engine) (hdata : occasion.data.size ≤ occasion.offset)
    (hcapacity : pass.stream.roles.capacity = occasion.engine.roleStates)
    (hsized : pass.stream.roles.IsSized) :
    (∀ upTo, ∃ roles : FlagSet,
        occasion.catchUp upTo pass = .ok () { pass with
            stream := { pass.stream with roles }
            caughtUpTo := max pass.caughtUpTo upTo }
          ∧ roles.SameShape pass.stream.roles
          ∧ ∀ flag, roles.isOn flag = true ↔ pass.stream.roles.isOn flag = true
            ∨ occasion.PulledIn pass.scratch.enabled (max pass.caughtUpTo occasion.dataStart)
              (min upTo occasion.offset) flag)
      ∧ ∀ targets : List Nat,
        occasion.catchUpAll targets pass = occasion.catchUp (targets.foldr max 0) pass := by
  have hsound := Plan.isSound_of_build hbuild
  have hfit : pass.RolesFit occasion.engine := ⟨hcapacity, hsized⟩
  refine ⟨fun upTo => ?_, catchUpAll_eq hsound hdata hfit⟩
  obtain ⟨_, next, hnext, roles, hgains, rfl⟩ := caughtUp_catchUp hsound hdata hfit upTo
  refine ⟨roles, hnext, hgains.shape, hgains.isOn_iff fun flag hpulled => ?_⟩
  obtain ⟨trigger, -, ⟨role, hrole, hstate⟩, -⟩ := hpulled
  have hmem := List.mem_of_getElem? (elementAt_eq_ok_iff.1 hrole)
  exact hcapacity ▸ hsound.state_lt role hmem flag hstate

/-- Two bytes are watched, one of them by two triggers. One of these has no live group. -/
def Plan.watching : Plan where
  roles := [{ report := .wrap 3, state? := some 0 }, { report := .wrap 4, state? := some 1 }]
  roleStates := 2
  triggers := [⟨99, .wrap 0, Groups.all⟩, ⟨100, .wrap 1, Groups.all⟩, ⟨99, .wrap 1, Groups.none⟩]

/-- Of `xcd`, which starts at offset 2, the first two bytes are looked at. -/
theorem Occasion.catchUp_exact_watching :
    ∃ engine scratch, Plan.watching.build = .ok engine ∧ Scratch.fresh engine = .ok scratch
      ∧ let occasion : Occasion Unit :=
          { engine, mode := .block, data := #[120, 99, 100], offset := 5
            callback := fun _ _ _ => (.proceed, ()) }
        let pass := occasion.start ⟨.initial engine, scratch, (), []⟩
        (∃ next, occasion.catchUp 4 pass = .ok () next ∧ next.stream.roles.members = .ok [0]
            ∧ occasion.PulledIn pass.scratch.enabled 2 4 0
            ∧ ¬occasion.PulledIn pass.scratch.enabled 2 4 1)
          ∧ occasion.catchUpAll [3, 5, 4] pass = occasion.catchUp 5 pass := by
  refine ⟨_, _, rfl, rfl, ?_⟩
  intro occasion pass
  have hbuild : Plan.watching.build = .ok occasion.engine := rfl
  have hdata : occasion.data.size ≤ occasion.offset := by decide
  obtain ⟨honce, hall⟩ :=
    @Occasion.catchUp_exact _ occasion _ pass hbuild hdata rfl (FlagSet.isSized_empty (by decide))
  obtain ⟨roles, hrun, -, hflags⟩ := honce 4
  have hcomputed : occasion.catchUp 4 pass = .ok () { pass with
      stream := { pass.stream with roles := ⟨2, [1]⟩ }, caughtUpTo := 4 } := rfl
  obtain rfl : roles = ⟨2, [1]⟩ :=
    congrArg (·.stream.roles) (EStateM.Result.ok.inj (hrun.symm.trans hcomputed)).2
  refine ⟨⟨_, hrun, rfl, ?_, fun hpulled => ?_⟩, hall [3, 5, 4]⟩
  · exact ((hflags 0).1 (by decide)).resolve_left (by decide)
  · exact absurd ((hflags 1).2 (.inr hpulled)) (by decide)

end Multimatch
