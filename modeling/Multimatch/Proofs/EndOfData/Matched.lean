import Multimatch.Proofs.EndOfData.Twins

/-!
# Steps of twins

Steps that lead twins to twins and answer alike are matched (`PassM.Matched`). There is one rule for
every way in which steps are put together, and one lemma for every step of a pass: what it needs to
know of the two passes is the stage before, and what it adds is the stage after.
-/

namespace Multimatch

open PassM

/-! ## Matched steps -/

namespace PassM

variable {σ α β : Type}

/-- Two results with one answer and related passes, or with one fault. -/
inductive Agree (E R : Pass σ → Pass σ → Prop) :
    EStateM.Result Fault (Pass σ) α → EStateM.Result Fault (Pass σ) α → Prop where
  | ok {answer : α} {p q : Pass σ} (h : R p q) : Agree E R (.ok answer p) (.ok answer q)
  | error {fault : Fault} {p q : Pass σ} (h : E p q) :
    Agree E R (.error fault p) (.error fault q)

theorem bind_eq {a : PassM σ α} {f : α → PassM σ β} {pass next : Pass σ} {value : α}
    (h : a pass = .ok value next) : (a >>= f) pass = f value next := by
  simp only [Bind.bind, EStateM.bind, h]

theorem bind_eq_error {a : PassM σ α} {f : α → PassM σ β} {pass next : Pass σ} {fault : Fault}
    (h : a pass = .error fault next) : (a >>= f) pass = .error fault next := by
  simp only [Bind.bind, EStateM.bind, h]

theorem lift_eq {made : Except Fault α} {value : α} {pass : Pass σ} (h : made = .ok value) :
    (liftM made : PassM σ α) pass = .ok value pass := by
  rw [h]
  rfl

theorem lift_eq_error {made : Except Fault α} {fault : Fault} {pass : Pass σ}
    (h : made = .error fault) : (liftM made : PassM σ α) pass = .error fault pass := by
  rw [h]
  rfl

theorem changeScratch_eq {change : Scratch → Except Fault Scratch} {pass : Pass σ}
    {scratch : Scratch} (h : change pass.scratch = .ok scratch) :
    changeScratch change pass = .ok () { pass with scratch } := by
  simp only [changeScratch, Bind.bind, EStateM.bind, get_eq, h]
  rfl

theorem Agree.imp {E R R' : Pass σ → Pass σ → Prop} {first second : EStateM.Result Fault (Pass σ) α}
    (h : Agree E R first second) (hR : ∀ p q, R p q → R' p q) : Agree E R' first second := by
  cases h with
  | ok hnext => exact .ok (hR _ _ hnext)
  | error hstopped => exact .error hstopped

/-- Results that agree and have answers end in related passes. -/
theorem Agree.of_eq {E R : Pass σ → Pass σ → Prop} {a b : PassM σ α} {p q p' q' : Pass σ}
    {answer answer' : α} (h : Agree E R (a p) (b q)) (ha : a p = .ok answer p')
    (hb : b q = .ok answer' q') : R p' q' := by
  rw [ha, hb] at h
  cases h with
  | ok hnext => exact hnext

theorem Agree.bind {E R R' : Pass σ → Pass σ → Prop} {a b : PassM σ α} {f g : α → PassM σ β}
    {p q : Pass σ} (h : Agree E R (a p) (b q))
    (hrest : ∀ value p q, R p q → Agree E R' (f value p) (g value q)) :
    Agree E R' ((a >>= f) p) ((b >>= g) q) := by
  simp only [Bind.bind, EStateM.bind]
  generalize a p = first at h ⊢
  generalize b q = second at h ⊢
  cases h with
  | ok hnext => exact hrest _ _ _ hnext
  | error hstopped => exact .error hstopped

/-- From twins two steps come to twins with one answer, or end in one fault. -/
def Matched (engine : Engine) (link : Link) (before after : Stage) (a b : PassM σ α) : Prop :=
  ∀ ⦃p q⦄, Pass.Twins engine link before p q →
    Agree (Pass.Stopped engine link) (Pass.Twins engine link after) (a p) (b q)

section Rules

variable {engine : Engine} {link : Link} {before middle after stage less : Stage}
  {a b a' b' : PassM σ α}

theorem matched_pure (value : α) : Matched engine link stage stage (pure value : PassM σ α)
    (pure value) := fun _ _ h => .ok h

theorem matched_throw (fault : Fault) :
    Matched engine link before after (throw fault : PassM σ α) (throw fault) :=
  fun _ _ h => .error h.stopped

theorem Matched.bind (h : Matched engine link before middle a b) {f g : α → PassM σ β}
    (hrest : ∀ value, Matched engine link middle after (f value) (g value)) :
    Matched engine link before after (a >>= f) (b >>= g) :=
  fun _ _ htwins => (h htwins).bind fun value _ _ hnext => hrest value hnext

/-- Reading the pass: each step goes on with its own. -/
theorem Matched.get_bind_at {f g : Pass σ → PassM σ β}
    (h : ∀ p q, Pass.Twins engine link before p q →
      Agree (Pass.Stopped engine link) (Pass.Twins engine link after) (f p p) (g q q)) :
    Matched engine link before after (get >>= f) (get >>= g) := fun p q htwins => h p q htwins

theorem Matched.get_bind {f g : Pass σ → PassM σ β}
    (h : ∀ p q, Pass.Twins engine link before p q →
      Matched engine link before after (f p) (g q)) :
    Matched engine link before after (get >>= f) (get >>= g) :=
  Matched.get_bind_at fun p q htwins => h p q htwins htwins

theorem Matched.lift_bind {made : Except Fault α} {f g : α → PassM σ β}
    (h : ∀ value, made = .ok value → Matched engine link before after (f value) (g value)) :
    Matched engine link before after (liftM made >>= f) (liftM made >>= g) := by
  cases made with
  | ok value => exact h value rfl
  | error fault => exact fun _ _ htwins => .error htwins.stopped

theorem Matched.lift_map_bind {γ : Type} {made : Except Fault γ} {change : γ → α}
    {f : α → PassM σ β} {g : γ → PassM σ β}
    (h : ∀ value, Matched engine link before after (f (change value)) (g value)) :
    Matched engine link before after (liftM (made.map change) >>= f) (liftM made >>= g) := by
  cases made with
  | ok value => exact h value
  | error fault => exact fun _ _ htwins => .error htwins.stopped

theorem Matched.ite_cases {c : Prop} [Decidable c] (h : c → Matched engine link before after a b)
    (h' : ¬c → Matched engine link before after a' b') :
    Matched engine link before after (if c then a else a') (if c then b else b') := by
  by_cases hc : c
  · rw [if_pos hc, if_pos hc]
    exact h hc
  · rw [if_neg hc, if_neg hc]
    exact h' hc

theorem Matched.ite {c : Prop} [Decidable c] (h : Matched engine link before after a b)
    (h' : Matched engine link before after a' b') :
    Matched engine link before after (if c then a else a') (if c then b else b') :=
  Matched.ite_cases (fun _ => h) fun _ => h'

theorem Matched.mono_after (h : Matched engine link before after a b) (hle : less.Le after) :
    Matched engine link before less a b := by
  intro p q htwins
  exact (h htwins).imp fun _ _ hnext => hnext.mono hle

theorem Matched.andThen {a b a' b' : PassM σ Control} (h : Matched engine link before after a b)
    (h' : Matched engine link after after a' b') :
    Matched engine link before after (Control.andThen a a') (Control.andThen b b') := by
  refine h.bind fun control => ?_
  cases control with
  | halt => exact matched_pure _
  | proceed => exact h'

/-- What is known in the end is known also if the first step halts. -/
theorem Matched.andThen_of_le {a b a' b' : PassM σ Control}
    (h : Matched engine link before middle a b) (hle : after.Le middle)
    (h' : Matched engine link middle after a' b') :
    Matched engine link before after (Control.andThen a a') (Control.andThen b b') := by
  refine h.bind fun control => ?_
  cases control with
  | halt => exact (matched_pure _).mono_after hle
  | proceed => exact h'

theorem Matched.visitAll {visit visit' : α → PassM σ Control} {xs : List α}
    (h : ∀ x ∈ xs, Matched engine link stage stage (visit x) (visit' x)) :
    Matched engine link stage stage (Control.visitAll visit xs) (Control.visitAll visit' xs) := by
  induction xs with
  | nil => exact matched_pure _
  | cons x xs ih =>
    have hrest := ih fun y hy => h y (List.mem_cons_of_mem _ hy)
    exact (h x List.mem_cons_self).andThen hrest

/-! ### Changes -/

theorem matched_note (entry : JournalEntry) : Matched engine link stage stage
    (note (entry.moved link.distance) : PassM σ Unit) (note entry) := by
  intro p q h
  exact .ok { h with journal := h.journal_cons entry }

/-- A change of working space that leaves what was triggered and fired as it is. -/
theorem matched_changeScratch {change change' : Scratch → Except Fault Scratch}
    (h : ∀ a b, Scratch.Twins engine link.whole link.distance a b →
      (∀ queue, stage.triggered queue → a.triggered.isOn queue = true) →
      ∃ a' b', change a = .ok a' ∧ change' b = .ok b'
        ∧ Scratch.Twins engine link.whole link.distance a' b'
        ∧ a'.triggered = a.triggered ∧ a'.handled = a.handled ∧ b'.handled = b.handled) :
    Matched engine link stage stage (changeScratch change : PassM σ Unit)
      (changeScratch change') := by
  intro p q htwins
  obtain ⟨a', b', hchange, hchange', hscratch, htriggered, hhandled, hhandled'⟩ :=
    h _ _ htwins.scratch htwins.triggered
  simp only [changeScratch, Bind.bind, EStateM.bind, get_eq, hchange, hchange']
  refine .ok { htwins with
    scratch := hscratch
    heard := fun hheard queue hqueue => ?_
    marked := fun hmarked value => ?_
    triggered := fun queue hqueue => ?_ }
  · exact htriggered ▸ htwins.heard hheard queue hqueue
  · exact hhandled ▸ hhandled' ▸ htwins.marked hmarked value
  · exact htriggered ▸ htwins.triggered queue hqueue

/-- A change of what waits. -/
theorem matched_changeDelayed (change : List Delayed → List Delayed) :
    Matched engine link stage stage
      (changeScratch fun scratch => .ok { scratch with delayed := change scratch.delayed } :
        PassM σ Unit)
      (changeScratch fun scratch => .ok { scratch with delayed := change scratch.delayed }) :=
  matched_changeScratch fun _ _ h _ => ⟨_, _, rfl, rfl, { h with
    left := { h.left with }
    right := { h.right with }
    delayed := congrArg change h.delayed }, rfl, rfl, rfl⟩

theorem matched_changeRoles {change : FlagSet → Except Fault FlagSet}
    (hchange : FlagSet.KeepsShape change) : Matched engine link stage stage
      (changeRoles change : PassM σ Unit) (changeRoles change) := by
  intro p q h
  simp only [changeRoles, Bind.bind, EStateM.bind, get_eq]
  rcases hchange h.roles with ⟨next, next', hp, hq, hshape⟩ | ⟨fault, hp, hq⟩
  · have hequal (heq : p.stream.roles = q.stream.roles) : next = next' :=
      Except.ok.inj (hp.symm.trans ((congrArg change heq).trans hq))
    rw [hp, hq]
    refine .ok { h with roles := hshape, same := fun hsame => ?_, near := fun hnear => ?_ }
    · obtain ⟨hstream, hcaller⟩ := h.same hsame
      exact ⟨by simp only [hstream, hequal (congrArg _ hstream)], hcaller⟩
    · exact ⟨hequal (h.near hnear).1, (h.near hnear).2⟩
  · rw [hp, hq]
    exact .error h.stopped

/-- A change of the active queues that adds only queues that were triggered. -/
theorem matched_changeLeaves {change : FlagSet → Except Fault FlagSet}
    (hchange : FlagSet.KeepsShape change)
    (hadds : ∀ set next, change set = .ok next → ∀ queue, next.isOn queue = true →
      stage.triggered queue ∨ set.isOn queue = true) :
    Matched engine link stage stage (changeLeaves change : PassM σ Unit)
      (changeLeaves change) := by
  intro p q h
  simp only [changeLeaves, Bind.bind, EStateM.bind, get_eq]
  rcases hchange h.leaves with ⟨next, next', hp, hq, hshape⟩ | ⟨fault, hp, hq⟩
  · have hequal (heq : p.stream.leaves = q.stream.leaves) : next = next' :=
      Except.ok.inj (hp.symm.trans ((congrArg change heq).trans hq))
    rw [hp, hq]
    refine .ok { h with
      leaves := hshape
      same := fun hsame => ?_
      near := fun hnear => ?_
      heard := fun hheard queue hqueue => ?_ }
    · obtain ⟨hstream, hcaller⟩ := h.same hsame
      exact ⟨by simp only [hstream, hequal (congrArg _ hstream)], hcaller⟩
    · exact ⟨(h.near hnear).1, hequal (h.near hnear).2⟩
    · rcases hadds _ _ hp queue hqueue with htriggered | hbefore
      · exact h.triggered queue htriggered
      · exact h.heard hheard queue hbefore
  · rw [hp, hq]
    exact .error h.stopped

/-- A change of the places that a pass keeps track of. -/
theorem matched_modify {change change' : Pass σ → Pass σ}
    (h : ∀ p q, Pass.Twins engine link before p q →
      Pass.Twins engine link after (change p) (change' q)) :
    Matched engine link before after (modify change) (modify change') :=
  fun p q htwins => .ok (h p q htwins)

end Rules

end PassM

/-! ## Steps of a pass -/

/-- The same occasion, with its data taken as in a mode. -/
def Occasion.inMode {σ : Type} (occasion : Occasion σ) (mode : Mode) : Occasion σ :=
  { occasion with mode }

@[simp] theorem Occasion.engine_inMode {σ : Type} (occasion : Occasion σ) (mode : Mode) :
    (occasion.inMode mode).engine = occasion.engine := rfl

/-- Another queue has been triggered. -/
def Stage.adding (stage : Stage) (queue : Nat) : Stage :=
  { stage with triggered := fun other => other = queue ∨ stage.triggered other }

theorem Stage.le_adding (stage : Stage) (queue : Nat) : stage.Le (stage.adding queue) :=
  ⟨id, id, id, id, fun _ => .inr⟩

namespace Occasion

variable {σ : Type} {occasion : Occasion σ} {mode : Mode} {link : Link} {stage : Stage}

/-- What is asked of the occasion for a pass in its mode to be like one in another mode. -/
structure Compares (occasion : Occasion σ) (mode : Mode) (link : Link) : Prop where
  engine : occasion.engine.IsSound
  start : Int64.ofNat occasion.bufferStart + link.distance
    = .ofNat (occasion.inMode mode).bufferStart
  length : Int64.ofNat occasion.bufferLength
    = .ofNat (occasion.inMode mode).bufferLength + link.distance
  calls : link.same ∨ occasion.IsQuiet
  prepares : link.whole ∨ ∀ slot ∈ occasion.engine.slots, slot.automaton.PreparesAnew
  run : ∀ slot ∈ occasion.engine.slots, slot.automaton.IgnoresStart link.distance

/-- Two places that one offset is at in two buffers. -/
theorem Compares.location_eq (h : occasion.Compares mode link) (offset : Nat) :
    occasion.locate offset = (occasion.inMode mode).locate offset + link.distance := by
  rw [locate, locate, ← h.start]
  grind

/-! ### Reports -/

section Reports

variable (hcalls : link.same ∨ occasion.IsQuiet)
include hcalls

theorem matched_report (offset : Nat) (id : ReportId) :
    Matched occasion.engine link stage stage (occasion.report offset id)
      ((occasion.inMode mode).report offset id) := by
  intro p q h
  have hreport : (occasion.inMode mode).report offset id = occasion.report offset id := rfl
  rw [hreport]
  cases hhalted : p.halted with
  | true =>
    rw [report_of_halted hhalted, report_of_halted (h.halted ▸ hhalted)]
    exact .ok h
  | false =>
    have hcontrol : (occasion.callback q.caller offset id).1
        = (occasion.callback p.caller offset id).1 := by
      rcases hcalls with hsame | hquiet
      · rw [(h.same hsame).2]
      · rw [hquiet, hquiet]
    rw [report_of_running hhalted, report_of_running (h.halted ▸ hhalted), hcontrol]
    refine .ok { h with
      same := fun hsame => ⟨(h.same hsame).1, ?_⟩
      halted := rfl
      journal := h.journal_cons (.report offset id _) }
    rw [(h.same hsame).2]

theorem matched_converse (queue : Nat) (dialogue : Dialogue) :
    Matched occasion.engine link stage stage (occasion.converse queue dialogue)
      ((occasion.inMode mode).converse queue dialogue) := by
  induction dialogue with
  | done control => exact matched_pure control
  | fault fault => exact matched_throw fault
  | ask offset id next ih =>
    refine (matched_report hcalls offset id).bind fun control => ?_
    exact (matched_note (.told queue control)).bind fun _ => ih control

theorem matched_askFinal (queue : Nat) (slot : Slot) (full short : Bytes) :
    Matched occasion.engine link stage stage (occasion.askFinal queue slot full short)
      ((occasion.inMode mode).askFinal queue slot full short) := by
  refine (matched_note (.asked queue full short occasion.offset)).bind fun _ => ?_
  refine (matched_converse hcalls queue _).bind fun control => Matched.get_bind fun p q h => ?_
  rw [h.halted]
  exact matched_pure _

end Reports

/-! ### Roles -/

theorem matched_switchOn (id : RoleId) :
    Matched occasion.engine link stage stage (occasion.switchOn id)
      ((occasion.inMode mode).switchOn id) := by
  refine Matched.lift_bind fun role _ => ?_
  cases role.state? with
  | none => exact matched_pure ()
  | some state => exact matched_changeRoles (FlagSet.keepsShape_insert state)

theorem matched_switchAllOn (ids : List RoleId) :
    Matched occasion.engine link stage stage (occasion.switchAllOn ids)
      ((occasion.inMode mode).switchAllOn ids) := by
  induction ids with
  | nil => exact matched_pure ()
  | cons id ids ih => exact (matched_switchOn id).bind fun _ => ih

theorem matched_switchAllOff (states : List Nat) :
    Matched occasion.engine link stage stage (switchAllOff states : PassM σ Unit)
      (switchAllOff states) := by
  induction states with
  | nil => exact matched_pure ()
  | cons state states ih =>
    exact (matched_changeRoles (FlagSet.keepsShape_erase state)).bind fun _ => ih

theorem matched_dropLastByteRoles (offset : Nat) :
    Matched occasion.engine link stage stage (occasion.dropLastByteRoles offset)
      ((occasion.inMode mode).dropLastByteRoles offset) := by
  refine Matched.get_bind fun p q h => ?_
  rw [h.lastEnd]
  exact Matched.ite (matched_switchAllOff _) (matched_pure ())

theorem matched_pullTriggers (window : Bytes) :
    Matched occasion.engine link stage stage (occasion.pullTriggers window)
      ((occasion.inMode mode).pullTriggers window) := by
  refine Matched.get_bind fun p q h => ?_
  rw [h.scratch.enabled]
  exact Matched.lift_bind fun _ _ => matched_switchAllOn _

theorem matched_catchUp (hcaught : stage.caught) (upTo : Nat) :
    Matched occasion.engine link stage stage (occasion.catchUp upTo)
      ((occasion.inMode mode).catchUp upTo) := by
  refine Matched.get_bind fun p q h => ?_
  rw [h.caughtUpTo hcaught]
  have hmove : Matched occasion.engine link stage stage
      (modify fun pass : Pass σ => { pass with caughtUpTo := max pass.caughtUpTo upTo })
      (modify fun pass : Pass σ => { pass with caughtUpTo := max pass.caughtUpTo upTo }) :=
    matched_modify fun p q h =>
      { h with caughtUpTo := fun hcaught => congrArg (max · upTo) (h.caughtUpTo hcaught) }
  exact Matched.ite ((matched_pullTriggers _).bind fun _ => hmove) hmove

/-! ### Automata -/

/-- Writes over the full state of a queue, and notes what is left there. -/
def overwrite (occasion : Occasion σ) (queue : Nat) (entry : Bytes → JournalEntry)
    (made : Except Fault Bytes) : PassM σ Unit := do
  let made ← made
  PassM.changeScratch (·.setFull occasion.engine queue made)
  let full ← (← get).scratch.fullOf occasion.engine queue
  PassM.note (entry full)

section Overwrite

variable (occasion) {pass : Pass σ} {queue : Nat} {slot : Slot} (hsound : occasion.engine.IsSound)
  (hsuited : pass.scratch.Suited occasion.engine)
  (hslot : occasion.engine.slots[queue]? = some slot)
include hsound hsuited hslot

theorem overwrite_eq_ok {made : Bytes} {entry : Bytes → JournalEntry} :
    occasion.overwrite queue entry (.ok made) pass = .ok () { pass with
      scratch := pass.scratch.written slot made
      journal := entry ((pass.scratch.written slot made).full.extract slot.fullStart slot.fullStop)
        :: pass.journal } := by
  refine (bind_eq (lift_eq rfl)).trans ?_
  refine (bind_eq (changeScratch_eq (hsuited.setFull_eq hsound hslot made))).trans ?_
  exact bind_eq (lift_eq ((hsuited.written slot made).fullOf_eq hsound hslot))

/-- To prepare an automaton is to mark it and to write over its full state. -/
theorem prepare_eq {triggered : FlagSet}
    (hinsert : pass.scratch.triggered.insert queue = .ok triggered) :
    occasion.prepare queue slot pass
      = occasion.overwrite queue (.prepared queue)
        (slot.automaton.prepare (pass.scratch.full.extract slot.fullStart slot.fullStop))
        { pass with scratch := pass.scratch.marked queue triggered } := by
  have hmarked := hsuited.marked hinsert
  let inserted : Scratch := { pass.scratch with triggered }
  have hinserted : inserted.Fits occasion.engine :=
    { hsuited.toFits with
      triggered := hmarked.triggered
      triggered_sized := hmarked.triggered_sized }
  refine (bind_eq (lift_eq hinsert)).trans ?_
  refine (bind_eq (@changeScratch_eq _ _ _ inserted rfl)).trans ?_
  refine (bind_eq (changeScratch_eq (hinserted.clearQueue_eq hslot))).trans ?_
  exact bind_eq (lift_eq (hmarked.fullOf_eq hsound hslot))

theorem prepare_eq_ok {triggered : FlagSet} {made : Bytes}
    (hinsert : pass.scratch.triggered.insert queue = .ok triggered)
    (hmade : slot.automaton.prepare (pass.scratch.full.extract slot.fullStart slot.fullStop)
      = .ok made) :
    occasion.prepare queue slot pass = .ok () { pass with
      scratch := (pass.scratch.marked queue triggered).written slot made
      journal := .prepared queue ((pass.scratch.written slot made).full.extract slot.fullStart
        slot.fullStop) :: pass.journal } := by
  let marked : Pass σ := { pass with scratch := pass.scratch.marked queue triggered }
  have hmarked : marked.scratch.Suited occasion.engine := hsuited.marked hinsert
  rw [prepare_eq occasion hsound hsuited hslot hinsert, hmade]
  exact overwrite_eq_ok occasion hsound hmarked hslot

end Overwrite

section Automata

variable (h : occasion.Compares mode link)
include h

theorem matched_prepare {queue : Nat} {slot : Slot}
    (hslot : occasion.engine.slots[queue]? = some slot) :
    Matched occasion.engine link stage (stage.adding queue) (occasion.prepare queue slot)
      ((occasion.inMode mode).prepare queue slot) := by
  intro p q htwins
  have hscratch := htwins.scratch
  have hlt : queue < p.scratch.triggered.capacity :=
    hscratch.left.triggered ▸ Engine.lt_length_of_slot hslot
  obtain ⟨triggered, hinsert, -⟩ := hscratch.left.triggered_sized.exists_insert hlt
  have hinsert' : q.scratch.triggered.insert queue = .ok triggered := hscratch.triggered ▸ hinsert
  have hprepares := h.prepares.imp_right fun hslots => hslots slot (List.mem_of_getElem? hslot)
  rcases hscratch.made_cases h.engine hslot hprepares with
    ⟨fault, hp, hq⟩ | ⟨made, made', hp, hq, hmade⟩
  · rw [prepare_eq occasion h.engine hscratch.left hslot hinsert,
      prepare_eq (occasion.inMode mode) h.engine hscratch.right hslot hinsert', hp, hq]
    exact .error { htwins with
      left := hscratch.left.marked hinsert
      right := hscratch.right.marked hinsert' }
  · have hprepared := hscratch.prepared h.engine hslot hmade hinsert
    have hwritten := hscratch.extract_written_eq h.engine hslot hmade
    rw [prepare_eq_ok occasion h.engine hscratch.left hslot hinsert hp,
      prepare_eq_ok (occasion.inMode mode) h.engine hscratch.right hslot hinsert' hq,
      hwritten]
    have hmore (other : Nat) (hother : other = queue ∨ p.scratch.triggered.isOn other = true) :
        triggered.isOn other = true := by
      rw [FlagSet.isOn_of_insert hinsert, Bool.or_eq_true, decide_eq_true_eq]
      exact hother
    refine .ok { htwins with
      scratch := hprepared
      heard := fun hheard other hother => hmore other (.inr (htwins.heard hheard other hother))
      triggered := fun other hother => hmore other (hother.imp_right (htwins.triggered other))
      journal := htwins.journal_cons (.prepared queue _) }

omit h in
theorem matched_push (link : Link) {queue : Nat} {slot : Slot}
    (hslot : occasion.engine.slots[queue]? = some slot) (hqueue : stage.triggered queue)
    (location : Int64) :
    Matched occasion.engine link stage stage
      (do
        PassM.changeLeaves (·.insert queue)
        PassM.changeScratch (·.pushEvent queue ⟨.top, location + link.distance⟩)
        PassM.note (.triggered queue (location + link.distance)) : PassM σ Unit)
      (do
        PassM.changeLeaves (·.insert queue)
        PassM.changeScratch (·.pushEvent queue ⟨.top, location⟩)
        PassM.note (.triggered queue location)) := by
  refine (matched_changeLeaves (FlagSet.keepsShape_insert queue) ?_).bind fun _ => ?_
  · intro set next hinsert other hother
    rcases FlagSet.eq_or_isOn_of_insert hinsert hother with rfl | hbefore
    · exact .inl hqueue
    · exact .inr hbefore
  refine (matched_changeScratch fun a b hscratch _ => ?_).bind fun _ =>
    matched_note (.triggered queue location)
  exact ⟨_, _, hscratch.left.pushEvent_eq hslot _, hscratch.right.pushEvent_eq hslot _,
    hscratch.pushEvent ⟨.top, location⟩, rfl, rfl, rfl⟩

theorem matched_trigger (offset : Nat) (queue : QueueId) :
    Matched occasion.engine link stage stage (occasion.trigger offset queue)
      ((occasion.inMode mode).trigger offset queue) := by
  refine Matched.lift_bind fun slot hslot => ?_
  have hslot := elementAt_eq_ok_iff.1 hslot
  rw [h.location_eq offset]
  have hqueue : (stage.adding queue.toNat).triggered queue.toNat := .inl rfl
  let location := (occasion.inMode mode).locate offset
  have hpush := (matched_push link hslot hqueue location).mono_after (stage.le_adding queue.toNat)
  refine Matched.get_bind_at fun p q htwins => ?_
  rw [← htwins.scratch.triggered, htwins.scratch.left.triggered_sized.contains_eq,
    bind_eq (lift_eq rfl), bind_eq (lift_eq rfl)]
  by_cases hin : p.scratch.triggered.isOn queue.toNat = true
  · rw [hin]
    refine hpush { htwins with triggered := fun other hother => ?_ }
    rcases hother with rfl | hother
    · exact hin
    · exact htwins.triggered other hother
  · rw [Bool.eq_false_iff.2 hin]
    exact ((matched_prepare h hslot).bind fun _ => hpush) htwins

theorem matched_triggerAll (offset : Nat) (queues : List QueueId) :
    Matched occasion.engine link stage stage (occasion.triggerAll offset queues)
      ((occasion.inMode mode).triggerAll offset queues) := by
  induction queues with
  | nil => exact matched_pure ()
  | cons queue queues ih => exact (matched_trigger h offset queue).bind fun _ => ih

theorem matched_finishSuffix {queue : Nat} (hqueue : stage.triggered queue) :
    Matched occasion.engine link stage stage (occasion.finishSuffix queue)
      ((occasion.inMode mode).finishSuffix queue) := by
  refine Matched.lift_bind fun slot hslot => ?_
  have hslot := elementAt_eq_ok_iff.1 hslot
  refine Matched.ite (matched_pure _) ?_
  rw [h.length]
  refine (matched_changeScratch fun a b hscratch _ => ?_).bind fun _ => ?_
  · exact ⟨_, _, hscratch.left.pushEvent_eq hslot _, hscratch.right.pushEvent_eq hslot _,
      hscratch.pushEvent ⟨.finish, .ofNat (occasion.inMode mode).bufferLength⟩, rfl, rfl, rfl⟩
  refine Matched.get_bind fun p q htwins => ?_
  have hin := htwins.triggered queue hqueue
  rw [htwins.scratch.fullOf_eq h.engine hslot (.inr hin)]
  refine Matched.lift_bind fun full _ => Matched.get_bind fun p q htwins => ?_
  rw [htwins.scratch.queue_eq (htwins.triggered queue hqueue)]
  refine Matched.lift_map_bind fun events => ?_
  rw [h.run slot (List.mem_of_getElem? hslot)]
  refine Matched.lift_bind fun ran _ => ?_
  refine (matched_changeScratch fun a b hscratch htriggered => ?_).bind fun _ => ?_
  · have hmade := congrArg (Bytes.refill · 0 (slot.fullStop - slot.fullStart) ran.1)
      (hscratch.extract_eq hslot (.inr (htriggered queue hqueue)))
    exact ⟨_, _, hscratch.left.setFull_eq h.engine hslot _,
      hscratch.right.setFull_eq h.engine hslot _, hscratch.written h.engine hslot hmade, rfl, rfl,
      rfl⟩
  refine Matched.get_bind fun p q htwins => ?_
  have hin := htwins.triggered queue hqueue
  rw [htwins.scratch.fullOf_eq h.engine hslot (.inr hin)]
  refine Matched.lift_bind fun full _ => ?_
  refine (matched_note (.executed queue events full ran.2)).bind fun _ => ?_
  refine Matched.ite (matched_pure _) (Matched.get_bind fun p q htwins => ?_)
  rw [StreamState.storedOf_congr htwins.stored]
  exact Matched.lift_bind fun short _ => matched_askFinal h.calls queue slot full short

theorem matched_finishSuffixes (hnear : stage.near) (hheard : stage.heard) :
    Matched occasion.engine link stage stage occasion.finishSuffixes
      (occasion.inMode mode).finishSuffixes := by
  refine Matched.get_bind_at fun p q htwins => ?_
  rw [← (htwins.near hnear).2]
  cases hmembers : p.stream.leaves.members with
  | error fault => exact .error htwins.stopped
  | ok queues =>
    rw [bind_eq (lift_eq rfl), bind_eq (lift_eq rfl), FlagSet.eq_toList_of_members hmembers]
    let more : Stage :=
      { stage with triggered := fun queue =>
          queue ∈ p.stream.leaves.toList ∨ stage.triggered queue }
    have hmore : stage.Le more := ⟨id, id, id, id, fun _ => .inr⟩
    have hvisit : Matched occasion.engine link more more
        (Control.visitAll occasion.finishSuffix p.stream.leaves.toList)
        (Control.visitAll (occasion.inMode mode).finishSuffix p.stream.leaves.toList) :=
      Matched.visitAll fun queue hqueue => matched_finishSuffix h (.inl hqueue)
    refine hvisit.mono_after hmore { htwins with triggered := ?_ }
    rintro queue (hqueue | hqueue)
    · exact htwins.heard hheard queue (FlagSet.mem_toList_iff.1 hqueue)
    · exact htwins.triggered queue hqueue

/-! ### Actions -/

theorem matched_settle (offset : Nat) (action : Action) :
    Matched occasion.engine link stage stage (occasion.settle offset action)
      ((occasion.inMode mode).settle offset action) := by
  refine (matched_switchAllOn action.roles).bind fun _ => ?_
  refine (matched_triggerAll h offset action.suffixes).bind fun _ => ?_
  refine (matched_modify fun p q htwins => ?_).bind fun _ => matched_pure _
  exact { htwins with groups := congrArg (Groups.without · action.squash) htwins.groups }

theorem matched_runAction (offset : Nat) (id : LiteralId) :
    Matched occasion.engine link stage stage (occasion.runAction offset id)
      ((occasion.inMode mode).runAction offset id) := by
  simp only [runAction, engine_inMode]
  cases occasion.engine.actions.find? id with
  | none => exact matched_pure _
  | some action =>
    refine (matched_note (.acted offset id)).bind fun _ => Matched.ite (matched_pure _) ?_
    refine Matched.andThen ?_ (matched_settle h offset action)
    exact Matched.visitAll fun id _ => matched_report h.calls offset id

theorem matched_runOrDelay (offset : Nat) (id : LiteralId) (isEndEvent : Bool) :
    Matched occasion.engine link stage stage (occasion.runOrDelay offset id isEndEvent)
      ((occasion.inMode mode).runOrDelay offset id isEndEvent) := by
  simp only [runOrDelay, engine_inMode]
  cases occasion.engine.actions.find? id with
  | none => exact matched_pure _
  | some action =>
    refine Matched.get_bind fun p q htwins => ?_
    rw [htwins.groups]
    refine Matched.ite (matched_pure _) (Matched.ite ?_ (matched_runAction h offset id))
    exact (matched_changeDelayed fun _ => _).bind fun _ => matched_pure _

theorem matched_runDelayed (upTo : Nat) :
    Matched occasion.engine link stage stage (occasion.runDelayed upTo)
      ((occasion.inMode mode).runDelayed upTo) := by
  refine Matched.get_bind fun p q htwins => ?_
  rw [htwins.scratch.delayed]
  refine (Matched.visitAll fun delayed _ => matched_runAction h delayed.due delayed.id).bind
    fun control => ?_
  cases control with
  | halt => exact (matched_changeDelayed fun _ => []).bind fun _ => matched_pure _
  | proceed => exact (matched_changeDelayed (·.drop _)).bind fun _ => matched_pure _

theorem matched_onLiteral (matchEnd : Nat) (id : LiteralId) :
    Matched occasion.engine link stage stage (occasion.onLiteral matchEnd id)
      ((occasion.inMode mode).onLiteral matchEnd id) := by
  refine (matched_runDelayed h _).andThen ?_
  refine (matched_modify fun p q htwins => ?_).bind fun _ => matched_runOrDelay h _ id false
  exact { htwins with lastEnd := rfl }

/-- Data that is long enough is looked through from its start. -/
theorem matched_scanTail {matcher : EndMatcher} (hmatcher : occasion.engine.matcher? = some matcher)
    {after : Stage} (hafter : after.Le { stage with
      caught := stage.caught ∨ matcher.minWidth ≤ occasion.data.size }) :
    Matched occasion.engine link stage after (occasion.scanTail matcher)
      ((occasion.inMode mode).scanTail matcher) := by
  let caught : Stage := { stage with caught := True }
  obtain ⟨literals, hserves⟩ := h.engine.matcher matcher hmatcher
  have hscan : Matched occasion.engine link caught caught
      (Naive.scan literals (occasion.tailInput matcher) occasion.sink)
      (Naive.scan literals (occasion.tailInput matcher) (occasion.inMode mode).sink) := by
    refine Matched.visitAll fun matchEnd _ => Matched.get_bind fun p q htwins => ?_
    rw [show occasion.sink.groups p = (occasion.inMode mode).sink.groups q from htwins.groups]
    exact Matched.visitAll fun id _ => matched_onLiteral h matchEnd id
  have hmove : Matched occasion.engine link stage caught
      (modify fun pass : Pass σ => { pass with caughtUpTo := occasion.dataStart })
      (modify fun pass : Pass σ => { pass with caughtUpTo := occasion.dataStart }) :=
    matched_modify fun p q htwins => { htwins with caughtUpTo := fun _ => rfl }
  rw [scanTail_eq_naive hserves, @scanTail_eq_naive _ (occasion.inMode mode) _ _ hserves]
  refine Matched.ite_cases (fun hshort => ?_) fun _ => ?_
  · exact (matched_pure _).mono_after { hafter with
      caught := fun hcaught => (hafter.caught hcaught).resolve_right (Nat.not_le.2 hshort) }
  · have hle : after.Le caught := { hafter with caught := fun _ => trivial }
    refine Matched.mono_after ?_ hle
    refine hmove.bind fun _ => hscan.andThen ?_
    refine (matched_runDelayed h _).bind fun control => ?_
    exact (matched_changeDelayed fun _ => []).bind fun _ => matched_pure _

/-! ### Walks -/

omit h in
/-- Sets with the same members take the place of the markers. -/
theorem matched_changeHandled {first second : MarkerSet} (hfirst : first.IsSound)
    (hsecond : second.IsSound) (hcapacity : first.capacity = occasion.engine.roles.length)
    (hcapacity' : second.capacity = occasion.engine.roles.length)
    (hequal : ∀ value, first.contains value = second.contains value) :
    Matched occasion.engine link stage { stage with marked := True }
      (PassM.changeScratch fun scratch => .ok { scratch with handled := first } : PassM σ Unit)
      (PassM.changeScratch fun scratch => .ok { scratch with handled := second }) := by
  intro p q htwins
  exact .ok { htwins with
    marked := fun _ => hequal
    scratch := { htwins.scratch with
      left := { htwins.scratch.left with handled := hfirst, handled_capacity := hcapacity }
      right := { htwins.scratch.right with handled := hsecond, handled_capacity := hcapacity' } } }

omit h in
theorem matched_visitEntry (hcalls : link.same ∨ occasion.IsQuiet) (hmarked : stage.marked)
    (entry : WalkEntry) :
    Matched occasion.engine link stage stage (occasion.visitEntry entry)
      ((occasion.inMode mode).visitEntry entry) := by
  refine Matched.get_bind fun p q htwins => ?_
  rw [htwins.marked hmarked]
  refine Matched.ite (matched_pure _) (Matched.lift_bind fun role hrole => ?_)
  have hlt : entry.role.toNat < occasion.engine.roles.length :=
    (List.getElem?_eq_some_iff.1 (elementAt_eq_ok_iff.1 hrole)).1
  have hfire : Matched occasion.engine link stage stage
      (do
        let marked ← (← get).scratch.handled.insert entry.role.toNat
        PassM.changeScratch fun scratch => .ok { scratch with handled := marked.2 }
        PassM.note (.fired entry.role)
        occasion.report occasion.offset role.report)
      (do
        let marked ← (← get).scratch.handled.insert entry.role.toNat
        PassM.changeScratch fun scratch => .ok { scratch with handled := marked.2 }
        PassM.note (.fired entry.role)
        (occasion.inMode mode).report occasion.offset role.report) := by
    refine Matched.get_bind_at fun p q htwins => ?_
    have hleft := htwins.scratch.left
    have hright := htwins.scratch.right
    obtain ⟨_, first, hinsert, hfirst, hcapacity⟩ :=
      hleft.handled.insert_eq_ok (hleft.handled_capacity ▸ hlt)
    obtain ⟨_, second, hinsert', hsecond, hcapacity'⟩ :=
      hright.handled.insert_eq_ok (hright.handled_capacity ▸ hlt)
    have hequal (value : Nat) : first.contains value = second.contains value := by
      rw [hleft.handled.contains_of_insert hinsert, hright.handled.contains_of_insert hinsert',
        htwins.marked hmarked]
    have hmark : Matched occasion.engine link stage stage _ _ :=
      (matched_changeHandled hfirst hsecond (hcapacity.trans hleft.handled_capacity)
        (hcapacity'.trans hright.handled_capacity) hequal).mono_after
        ⟨id, id, id, fun _ => trivial, fun _ => id⟩
    rw [bind_eq (lift_eq hinsert), bind_eq (lift_eq hinsert')]
    refine (hmark.bind fun _ => ?_) htwins
    exact (matched_note (.fired entry.role)).bind fun _ => matched_report hcalls _ _
  refine Matched.ite ?_ hfire
  exact Matched.lift_bind fun holds _ => Matched.ite (matched_pure _) hfire

omit h in
theorem matched_walk (hcalls : link.same ∨ occasion.IsQuiet) (hnear : stage.near) :
    Matched occasion.engine link stage stage occasion.walk (occasion.inMode mode).walk := by
  let marked : Stage := { stage with marked := True }
  have hclear : Matched occasion.engine link stage marked
      (PassM.changeScratch fun scratch => .ok { scratch with handled := scratch.handled.clear } :
        PassM σ Unit)
      (PassM.changeScratch fun scratch =>
        .ok { scratch with handled := scratch.handled.clear }) := by
    intro p q htwins
    have hleft := htwins.scratch.left
    have hright := htwins.scratch.right
    refine (matched_changeHandled hleft.handled.clear hright.handled.clear hleft.handled_capacity
      hright.handled_capacity fun value => ?_) htwins
    rw [MarkerSet.contains_clear, MarkerSet.contains_clear]
  refine hclear.bind fun _ => Matched.mono_after (Matched.visitAll fun stop _ => ?_)
    ⟨id, id, id, fun _ => trivial, fun _ => id⟩
  refine Matched.get_bind fun p q htwins => ?_
  rw [(htwins.near hnear).1]
  refine Matched.lift_bind fun isOn _ => ?_
  refine Matched.ite (Matched.visitAll fun entry _ => ?_) (matched_pure _)
  exact matched_visitEntry hcalls trivial entry

/-! ### Resolving -/

theorem matched_runEndEvent :
    Matched occasion.engine link stage stage occasion.runEndEvent
      (occasion.inMode mode).runEndEvent := by
  simp only [runEndEvent, engine_inMode]
  cases occasion.engine.endEvent? with
  | none => exact matched_pure _
  | some id => exact matched_runOrDelay h _ id true

omit h in
/-- Once they have forgotten what was pending, passes go on alike. -/
theorem agree_forget {caught : Prop} {p q : Pass σ}
    (hapart : Pass.Apart occasion.engine link caught p q) :
    Agree (Pass.Stopped occasion.engine link)
      (Pass.Twins occasion.engine link (Stage.forgotten caught)) (occasion.forget p)
      ((occasion.inMode mode).forget q) := by
  have hroles := hapart.roles.clear_eq
  have hleaves := hapart.leaves.clear_eq
  have hscratch : Scratch.Twins occasion.engine link.whole link.distance
      (occasion.cleared p.groups p.scratch) (occasion.cleared p.groups q.scratch) :=
    twins_cleared hapart.left hapart.right hapart.delayed hapart.full p.groups
  refine .ok { hapart with
    near := fun _ => ⟨hroles, hleaves⟩
    same := fun hsame => ⟨?_, (hapart.same hsame).2⟩
    roles := hroles ▸ FlagSet.SameShape.refl _
    leaves := hleaves ▸ FlagSet.SameShape.refl _
    scratch := hapart.groups ▸ hscratch
    heard := fun _ queue hqueue => ?_
    marked := False.elim
    triggered := fun _ => False.elim }
  · show { p.stream with roles := p.stream.roles.clear, leaves := p.stream.leaves.clear }
      = { q.stream with roles := q.stream.roles.clear, leaves := q.stream.leaves.clear }
    rw [(hapart.same hsame).1]
  · exact absurd ((FlagSet.isOn_clear _ queue).symm.trans hqueue) Bool.false_ne_true

theorem agree_resolveTail {matcher : EndMatcher}
    (hmatcher : occasion.engine.matcher? = some matcher) {caught : Prop} {p q : Pass σ}
    (hapart : Pass.Apart occasion.engine link caught p q)
    (hcaught : caught ∨ matcher.minWidth ≤ occasion.data.size) :
    Agree (Pass.Stopped occasion.engine link)
      (Pass.Twins occasion.engine link (Stage.forgotten True)) (occasion.resolveTail matcher p)
      ((occasion.inMode mode).resolveTail matcher q) := by
  refine (agree_forget hapart).bind fun _ p q htwins => ?_
  have hle : (Stage.forgotten True).Le { Stage.forgotten caught with
      caught := caught ∨ matcher.minWidth ≤ occasion.data.size } :=
    { Stage.Le.refl (Stage.forgotten caught) with caught := fun _ => hcaught }
  refine (matched_scanTail h hmatcher hle).andThen ?_ htwins
  refine (matched_dropLastByteRoles _).bind fun _ => ?_
  refine (matched_catchUp trivial _).bind fun _ => ?_
  exact (matched_walk h.calls trivial).andThen (matched_finishSuffixes h trivial trivial)

/-- Twins with the same roles go on alike to the end. -/
theorem matched_resolveRoles (hnear : stage.near) (hcaught : ∀ matcher,
      occasion.engine.matcher? = some matcher →
      stage.caught ∨ matcher.minWidth ≤ occasion.data.size) :
    Matched occasion.engine link stage Stage.last occasion.resolveRoles
      (occasion.inMode mode).resolveRoles := by
  have hwalk : Matched occasion.engine link stage stage occasion.walk
      (occasion.inMode mode).walk := matched_walk h.calls hnear
  simp only [resolveRoles, engine_inMode]
  cases hmatcher : occasion.engine.matcher? with
  | none =>
    exact Matched.mono_after (Matched.ite (matched_pure _) hwalk) (Stage.last_le hnear)
  | some matcher =>
    refine hwalk.andThen_of_le (Stage.last_le hnear) fun p q htwins => ?_
    refine (agree_resolveTail h hmatcher htwins.apart (hcaught matcher hmatcher)).imp ?_
    exact fun _ _ hnext => hnext.mono (Stage.last_le trivial)

end Automata

end Occasion

end Multimatch
