import Mathlib.Order.Defs.Unbundled
import Multimatch.Proofs.EndOfData.Logic
import Multimatch.Proofs.Rules.Accepted

/-!
# What a pass tells

Of a pass the caller gets to know its reports only (`Session.answers`), and `Session.runs` lists the
actions that were run. Most steps between two reports are silent (`PassM.Silent`): they do the same
whoever the caller is, and they leave alone what the next reports depend on apart from roles, queues
and triggers (`Pass.SameStory`).
-/

namespace Multimatch

/-! ## Reports and runs -/

/-- The report in an entry, with the answer to it. -/
def JournalEntry.answer? : JournalEntry → Option (Nat × ReportId × Control)
  | .report offset id control => some (offset, id, control)
  | _ => none

/-- The run of an action in an entry. -/
def JournalEntry.run? : JournalEntry → Option (Nat × LiteralId)
  | .acted offset id => some (offset, id)
  | _ => none

namespace Session

variable {σ : Type}

/-- The reports to the caller in their order, with the answers to them. -/
def answers (session : Session σ) : List (Nat × ReportId × Control) :=
  session.journal.reverse.filterMap (·.answer?)

/-- The actions that were run, in their order. -/
def runs (session : Session σ) : List (Nat × LiteralId) :=
  session.journal.reverse.filterMap (·.run?)

end Session

namespace Pass

variable {σ τ : Type}

/-- The same pass with another caller. -/
def withCaller (pass : Pass σ) (caller : τ) : Pass τ where
  stream := pass.stream
  scratch := pass.scratch
  caller := caller
  journal := pass.journal
  halted := pass.halted
  groups := pass.groups
  lastEnd := pass.lastEnd
  caughtUpTo := pass.caughtUpTo

/-- Nothing was reported between two passes. -/
structure SameTalk (pass next : Pass σ) : Prop where
  halted : next.halted = pass.halted
  answers : next.answers = pass.answers

/-- Between two passes nothing was reported, run, put off or switched off. -/
structure SameStory (pass next : Pass σ) : Prop extends SameTalk pass next where
  runs : next.runs = pass.runs
  groups : next.groups = pass.groups
  lastEnd : next.lastEnd = pass.lastEnd
  delayed : next.scratch.delayed = pass.scratch.delayed

/-- No role was switched on or off either. -/
structure SameRoles (pass next : Pass σ) : Prop extends SameStory pass next where
  roles : next.stream.roles = pass.stream.roles

instance : IsPreorder (Pass σ) SameStory where
  refl _ := ⟨⟨rfl, rfl⟩, rfl, rfl, rfl, rfl⟩
  trans _ _ _ h h' :=
    { halted := h'.halted.trans h.halted
      answers := h'.answers.trans h.answers
      runs := h'.runs.trans h.runs
      groups := h'.groups.trans h.groups
      lastEnd := h'.lastEnd.trans h.lastEnd
      delayed := h'.delayed.trans h.delayed }

instance : IsPreorder (Pass σ) SameRoles where
  refl pass := { toSameStory := refl_of SameStory pass, roles := rfl }
  trans _ _ _ h h' :=
    { toSameStory := trans_of SameStory h.toSameStory h'.toSameStory
      roles := h'.roles.trans h.roles }

theorem answers_note {pass : Pass σ} {entry : JournalEntry} :
    ({ pass with journal := entry :: pass.journal } : Pass σ).answers
      = pass.answers ++ entry.answer?.toList := by
  cases h : entry.answer? <;> simp [Session.answers, h]

theorem runs_note {pass : Pass σ} {entry : JournalEntry} :
    ({ pass with journal := entry :: pass.journal } : Pass σ).runs
      = pass.runs ++ entry.run?.toList := by
  cases h : entry.run? <;> simp [Session.runs, h]

end Pass

/-- The same occasion with another caller. -/
def Occasion.withCallback {σ τ : Type} (occasion : Occasion σ)
    (callback : τ → Nat → ReportId → Control × τ) : Occasion τ where
  engine := occasion.engine
  mode := occasion.mode
  data := occasion.data
  offset := occasion.offset
  callback := callback
  search := occasion.search

@[simp] theorem Occasion.engine_withCallback {σ τ : Type} (occasion : Occasion σ)
    (callback : τ → Nat → ReportId → Control × τ) :
    (occasion.withCallback callback).engine = occasion.engine := rfl

namespace Occasion

variable {σ : Type} {occasion : Occasion σ} {pass : Pass σ}

/-- The caller never halts. -/
def IsQuiet (occasion : Occasion σ) : Prop :=
  ∀ caller offset id, (occasion.callback caller offset id).1 = .proceed

theorem report_of_halted (h : pass.halted = true)
    (offset : Nat) (id : ReportId) : occasion.report offset id pass = .ok .halt pass := by
  simp [report, Bind.bind, EStateM.bind, PassM.get_eq, h, pure, EStateM.pure]

theorem report_of_running (h : pass.halted = false)
    (offset : Nat) (id : ReportId) :
    occasion.report offset id pass = .ok (occasion.callback pass.caller offset id).1 { pass with
      caller := (occasion.callback pass.caller offset id).2
      halted := (occasion.callback pass.caller offset id).1.isHalt
      journal := .report offset id (occasion.callback pass.caller offset id).1
        :: pass.journal } := by
  simp [report, Bind.bind, EStateM.bind, PassM.get_eq, PassM.set_eq, h, pure,
    EStateM.pure]

end Occasion

namespace PassM

variable {σ τ α β : Type}

/-- The pass in which a step ended. -/
def after : EStateM.Result Fault (Pass σ) α → Pass σ
  | .ok _ pass | .error _ pass => pass

/-- A result for another caller. -/
def forCaller (result : EStateM.Result Fault (Pass σ) α) (caller : τ) :
    EStateM.Result Fault (Pass τ) α :=
  match result with
  | .ok answer pass => .ok answer (pass.withCaller caller)
  | .error fault pass => .error fault (pass.withCaller caller)

/-- Two steps do the same for different callers, and their passes are related before and after. -/
def Alike (R : Pass σ → Pass σ → Prop) (a : PassM σ α) (b : PassM τ α) : Prop :=
  ∀ (pass : Pass σ) (caller : τ), b (pass.withCaller caller) = forCaller (a pass) caller
    ∧ R pass (after (a pass))

/-- Two steps do the same for different callers, and report nothing. -/
abbrev Muted (a : PassM σ α) (b : PassM τ α) : Prop := Alike Pass.SameTalk a b

/-- Two steps do the same for different callers, and the story goes on after them as before. -/
abbrev Silent (a : PassM σ α) (b : PassM τ α) : Prop := Alike Pass.SameStory a b

theorem Silent.muted {a : PassM σ α} {b : PassM τ α} (h : Silent a b) : Muted a b :=
  fun pass caller => (h pass caller).imp_right (·.toSameTalk)

section Rules

variable {R : Pass σ → Pass σ → Prop} [IsPreorder (Pass σ) R] {a a' : PassM σ α}
  {b b' : PassM τ α}

theorem alike_pure (value : α) : Alike R (pure value : PassM σ α) (pure value : PassM τ α) :=
  fun pass _ => ⟨rfl, refl_of R pass⟩

theorem alike_lift (made : Except Fault α) :
    Alike R (liftM made : PassM σ α) (liftM made : PassM τ α) := by
  cases made with
  | ok value => exact alike_pure value
  | error fault => exact fun pass _ => ⟨rfl, refl_of R pass⟩

theorem Alike.bind (h : Alike R a b) {f : α → PassM σ β} {g : α → PassM τ β}
    (hrest : ∀ value, Alike R (f value) (g value)) : Alike R (a >>= f) (b >>= g) := by
  intro pass caller
  obtain ⟨hsame, hrelated⟩ := h pass caller
  simp only [Bind.bind, EStateM.bind, hsame]
  cases hresult : a pass with
  | ok value next =>
    rw [hresult] at hrelated
    obtain ⟨hsame, hrelated'⟩ := hrest value next caller
    exact ⟨hsame, trans_of R hrelated hrelated'⟩
  | error fault next =>
    rw [hresult] at hrelated
    exact ⟨rfl, hrelated⟩

omit [IsPreorder (Pass σ) R]

theorem Alike.get_bind {f : Pass σ → PassM σ β} {g : Pass τ → PassM τ β}
    (h : ∀ (pass : Pass σ) (caller : τ), Alike R (f pass) (g (pass.withCaller caller))) :
    Alike R (get >>= f) (get >>= g) :=
  fun pass caller => h pass caller pass caller

theorem Alike.ite {c : Prop} [Decidable c] (h : Alike R a b) (h' : Alike R a' b') :
    Alike R (if c then a else a') (if c then b else b') := by
  by_cases hc : c
  · rwa [if_pos hc, if_pos hc]
  · rwa [if_neg hc, if_neg hc]

/-- What a step leaves alone is as before wherever it comes to. -/
theorem Gives.related {pass : Pass σ} {post : α → Pass σ → Prop} (h : Gives a pass post)
    (halike : Alike R a b) (caller : τ) :
    Gives a pass fun answer next => post answer next ∧ R pass next := by
  obtain ⟨answer, next, hstep, hpost⟩ := h
  have hrelated := (halike pass caller).2
  rw [hstep] at hrelated
  exact ⟨answer, next, hstep, hpost, hrelated⟩

theorem sameRoles_note {entry : JournalEntry} (hanswer : entry.answer? = none)
    (hrun : entry.run? = none) :
    Alike Pass.SameRoles (note entry : PassM σ Unit) (note entry : PassM τ Unit) := by
  refine fun pass _ => ⟨rfl, ⟨⟨⟨rfl, ?_⟩, ?_, rfl, rfl, rfl⟩, rfl⟩⟩
  · exact Pass.answers_note.trans (by simp [hanswer])
  · exact Pass.runs_note.trans (by simp [hrun])

theorem silent_changeRoles (change : FlagSet → Except Fault FlagSet) :
    Silent (changeRoles change : PassM σ Unit) (changeRoles change : PassM τ Unit) := by
  intro pass caller
  simp only [changeRoles, Bind.bind, EStateM.bind, get_eq, Pass.withCaller]
  cases change pass.stream.roles with
  | ok roles => exact ⟨rfl, ⟨⟨rfl, rfl⟩, rfl, rfl, rfl, rfl⟩⟩
  | error fault => exact ⟨rfl, refl_of Pass.SameStory pass⟩

theorem sameRoles_changeLeaves (change : FlagSet → Except Fault FlagSet) :
    Alike Pass.SameRoles (changeLeaves change : PassM σ Unit)
      (changeLeaves change : PassM τ Unit) := by
  intro pass caller
  simp only [changeLeaves, Bind.bind, EStateM.bind, get_eq, Pass.withCaller]
  cases change pass.stream.leaves with
  | ok leaves => exact ⟨rfl, ⟨⟨⟨rfl, rfl⟩, rfl, rfl, rfl, rfl⟩, rfl⟩⟩
  | error fault => exact ⟨rfl, refl_of Pass.SameRoles pass⟩

theorem muted_changeScratch (change : Scratch → Except Fault Scratch) :
    Muted (changeScratch change : PassM σ Unit) (changeScratch change : PassM τ Unit) := by
  intro pass caller
  simp only [changeScratch, Bind.bind, EStateM.bind, get_eq, Pass.withCaller]
  cases change pass.scratch with
  | ok scratch => exact ⟨rfl, rfl, rfl⟩
  | error fault => exact ⟨rfl, rfl, rfl⟩

/-- A change of working space that leaves alone what waits is silent. -/
theorem sameRoles_changeScratch {change : Scratch → Except Fault Scratch}
    (h : ∀ scratch next, change scratch = .ok next → next.delayed = scratch.delayed) :
    Alike Pass.SameRoles (changeScratch change : PassM σ Unit)
      (changeScratch change : PassM τ Unit) := by
  intro pass caller
  refine ⟨(muted_changeScratch change pass caller).1, ?_⟩
  simp only [changeScratch, Bind.bind, EStateM.bind, get_eq]
  cases hchange : change pass.scratch with
  | ok scratch => exact ⟨⟨⟨rfl, rfl⟩, rfl, rfl, rfl, h _ _ hchange⟩, rfl⟩
  | error fault => exact refl_of Pass.SameRoles pass

theorem Alike.silent (h : Alike Pass.SameRoles a b) : Silent a b :=
  fun pass caller => (h pass caller).imp_right (·.toSameStory)

end Rules

end PassM

/-! ## Silent steps -/

namespace Scratch

variable {scratch next : Scratch} {engine : Engine} {queue : Nat}

theorem delayed_of_setFull {full : Bytes} (run : scratch.setFull engine queue full = .ok next) :
    next.delayed = scratch.delayed := by
  obtain ⟨slot, -, h⟩ := Except.bind_eq_ok_iff.1 run
  obtain ⟨_, -, h⟩ := Except.bind_eq_ok_iff.1 h
  cases h
  rfl

theorem delayed_of_clearQueue (run : scratch.clearQueue queue = .ok next) :
    next.delayed = scratch.delayed := by
  obtain ⟨queues, -, h⟩ := Except.bind_eq_ok_iff.1 run
  cases h
  rfl

theorem delayed_of_pushEvent {event : QueueEvent} (run : scratch.pushEvent queue event = .ok next) :
    next.delayed = scratch.delayed := by
  obtain ⟨events, -, h⟩ := Except.bind_eq_ok_iff.1 run
  obtain ⟨queues, -, h⟩ := Except.bind_eq_ok_iff.1 h
  cases h
  rfl

end Scratch

namespace Occasion

open PassM

variable {σ τ : Type} (occasion : Occasion σ) (callback : τ → Nat → ReportId → Control × τ)

theorem silent_switchOn (id : RoleId) :
    Silent (occasion.switchOn id) ((occasion.withCallback callback).switchOn id) := by
  refine (alike_lift _).bind fun role => ?_
  cases role.state? with
  | none => exact alike_pure ()
  | some state => exact silent_changeRoles _

theorem silent_switchAllOn (ids : List RoleId) :
    Silent (occasion.switchAllOn ids) ((occasion.withCallback callback).switchAllOn ids) := by
  induction ids with
  | nil => exact alike_pure ()
  | cons id ids ih => exact (occasion.silent_switchOn callback id).bind fun _ => ih

theorem silent_enableTriggers :
    Silent occasion.enableTriggers (occasion.withCallback callback).enableTriggers :=
  fun _ _ => ⟨rfl, ⟨⟨rfl, rfl⟩, rfl, rfl, rfl, rfl⟩⟩

theorem silent_pullTriggers (window : Bytes) :
    Silent (occasion.pullTriggers window)
      ((occasion.withCallback callback).pullTriggers window) :=
  Alike.get_bind fun _ _ => (alike_lift _).bind fun _ => occasion.silent_switchAllOn callback _

theorem silent_catchUp (upTo : Nat) :
    Silent (occasion.catchUp upTo) ((occasion.withCallback callback).catchUp upTo) := by
  refine Alike.get_bind fun pass caller => ?_
  have hmove : @Alike σ τ Unit Pass.SameStory
      (modify fun pass => { pass with caughtUpTo := max pass.caughtUpTo upTo })
      (modify fun pass => { pass with caughtUpTo := max pass.caughtUpTo upTo }) :=
    fun _ _ => ⟨rfl, ⟨⟨rfl, rfl⟩, rfl, rfl, rfl, rfl⟩⟩
  exact Alike.ite ((occasion.silent_pullTriggers callback _).bind fun _ => hmove) hmove

theorem silent_switchAllOff (states : List Nat) :
    Silent (switchAllOff states : PassM σ Unit) (switchAllOff states : PassM τ Unit) := by
  induction states with
  | nil => exact alike_pure ()
  | cons state states ih => exact (silent_changeRoles _).bind fun _ => ih

theorem silent_dropLastByteRoles (offset : Nat) :
    Silent (occasion.dropLastByteRoles offset)
      ((occasion.withCallback callback).dropLastByteRoles offset) :=
  Alike.get_bind fun _ _ => Alike.ite (silent_switchAllOff _) (alike_pure ())

theorem sameRoles_prepare (queue : Nat) (slot : Slot) :
    Alike Pass.SameRoles (occasion.prepare queue slot)
      ((occasion.withCallback callback).prepare queue slot) := by
  refine Alike.get_bind fun pass caller => (alike_lift _).bind fun triggered => ?_
  refine (sameRoles_changeScratch fun scratch next h => ?_).bind fun _ => ?_
  · cases h
    rfl
  refine (sameRoles_changeScratch fun _ _ => Scratch.delayed_of_clearQueue).bind fun _ => ?_
  refine Alike.get_bind fun _ _ => (alike_lift _).bind fun full => ?_
  refine (alike_lift _).bind fun full => ?_
  refine (sameRoles_changeScratch fun _ _ => Scratch.delayed_of_setFull).bind fun _ => ?_
  refine Alike.get_bind fun _ _ => (alike_lift _).bind fun full => ?_
  exact sameRoles_note rfl rfl

theorem sameRoles_trigger (offset : Nat) (queue : QueueId) :
    Alike Pass.SameRoles (occasion.trigger offset queue)
      ((occasion.withCallback callback).trigger offset queue) := by
  refine (alike_lift _).bind fun slot => Alike.get_bind fun pass caller => ?_
  refine (alike_lift _).bind fun isTriggered => ?_
  have hpush {location : Int64} : @Alike σ τ Unit Pass.SameRoles
      (do
        PassM.changeLeaves (·.insert queue.toNat)
        PassM.changeScratch (·.pushEvent queue.toNat ⟨.top, location⟩)
        PassM.note (.triggered queue.toNat location))
      (do
        PassM.changeLeaves (·.insert queue.toNat)
        PassM.changeScratch (·.pushEvent queue.toNat ⟨.top, location⟩)
        PassM.note (.triggered queue.toNat location)) :=
    (sameRoles_changeLeaves _).bind fun _ =>
      (sameRoles_changeScratch fun _ _ => Scratch.delayed_of_pushEvent).bind fun _ =>
        sameRoles_note rfl rfl
  exact Alike.ite ((occasion.sameRoles_prepare callback _ slot).bind fun _ => hpush) hpush

theorem sameRoles_triggerAll (offset : Nat) (queues : List QueueId) :
    Alike Pass.SameRoles (occasion.triggerAll offset queues)
      ((occasion.withCallback callback).triggerAll offset queues) := by
  induction queues with
  | nil => exact alike_pure ()
  | cons queue queues ih =>
    exact (occasion.sameRoles_trigger callback offset queue).bind fun _ => ih

theorem sameRoles_expand (queue : Nat) (slot : Slot) :
    Alike Pass.SameRoles (occasion.expand queue slot)
      ((occasion.withCallback callback).expand queue slot) := by
  refine Alike.get_bind fun pass caller => (alike_lift _).bind fun full => ?_
  refine (alike_lift _).bind fun short => (alike_lift _).bind fun full => ?_
  refine (sameRoles_changeScratch fun _ _ => Scratch.delayed_of_setFull).bind fun _ => ?_
  refine Alike.get_bind fun _ _ => (alike_lift _).bind fun full => ?_
  exact sameRoles_note rfl rfl

theorem silent_forget : Silent occasion.forget (occasion.withCallback callback).forget := by
  refine (silent_changeRoles _).bind fun _ => (sameRoles_changeLeaves _).silent.bind fun _ => ?_
  refine (sameRoles_changeScratch fun scratch next h => ?_).silent.bind fun _ => ?_
  · cases h
    rfl
  exact occasion.silent_enableTriggers callback

end Occasion

end Multimatch
