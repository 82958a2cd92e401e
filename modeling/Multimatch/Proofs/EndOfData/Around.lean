import Multimatch.Proofs.EndOfData.Keeps

/-!
# Automata that are left alone

Most steps of a pass spare a given automaton (`Occasion.Spares`): its full state and the events that
wait for it stay as they are, and the journal does not tell of it. Steps that deal with another
automaton do so too, since its full state is elsewhere (`Engine.IsApart`). What is known of an
automaton also counts where a step faults, so that it is tracked with `PassM.Upholds`, which says
something of the pass after an answer and of the pass after a fault.
-/

namespace Multimatch

namespace PassM

variable {σ α β : Type}

/-- From a pass as required, an answer of the step leaves a pass as stated, and a fault of it leaves
one of which less may be known. -/
def Upholds (pre : Pass σ → Prop) (step : PassM σ α) (post broken : Pass σ → Prop) : Prop :=
  ∀ ⦃pass⦄, pre pass → match step pass with
    | .ok _ next => post next
    | .error _ next => broken next

/-- What holds before the step holds after it, be it after a fault. -/
abbrev Preserves (inv : Pass σ → Prop) (step : PassM σ α) : Prop := Upholds inv step inv inv

section Rules

variable {pre pre' mid post broken : Pass σ → Prop} {step other : PassM σ α}
  {rest : α → PassM σ β}

theorem Upholds.of_eq (h : Upholds pre step post broken) {pass next : Pass σ} {answer : α}
    (hpass : pre pass) (hrun : step pass = .ok answer next) : post next := by
  have hnext := h hpass
  rwa [hrun] at hnext

theorem Upholds.imp (h : Upholds pre step post broken) (hpre : ∀ pass, pre' pass → pre pass) :
    Upholds pre' step post broken := fun pass hpass => h (hpre pass hpass)

theorem Upholds.imp_post {post' : Pass σ → Prop} (h : Upholds pre step post broken)
    (hpost : ∀ pass, post pass → post' pass) : Upholds pre step post' broken := by
  intro pass hpass
  have hnext := h hpass
  cases hstep : step pass with
  | ok answer next =>
    rw [hstep] at hnext
    exact hpost next hnext
  | error fault next =>
    rw [hstep] at hnext
    exact hnext

theorem Upholds.of_after (h : Upholds pre step post broken) {pass : Pass σ} (hpass : pre pass)
    (hpost : ∀ next, post next → broken next) : broken (after (step pass)) := by
  have hnext := h.imp_post hpost hpass
  cases hstep : step pass with
  | ok answer next => rwa [hstep] at hnext
  | error fault next => rwa [hstep] at hnext

/-- What is known of an answer may be added. -/
theorem Upholds.and_of_ok {more : Pass σ → Prop} (h : Upholds pre step post broken)
    (hmore : ∀ {pass answer next}, pre pass → step pass = .ok answer next → more next) :
    Upholds pre step (fun pass => post pass ∧ more pass) broken := by
  intro pass hpass
  have hnext := h hpass
  cases hstep : step pass with
  | ok answer next =>
    rw [hstep] at hnext
    exact ⟨hnext, hmore hpass hstep⟩
  | error fault next =>
    rw [hstep] at hnext
    exact hnext

theorem upholds_pure {value : α} (h : ∀ pass, pre pass → post pass) :
    Upholds pre (pure value : PassM σ α) post broken := h

theorem upholds_throw {fault : Fault} (h : ∀ pass, pre pass → broken pass) :
    Upholds pre (throw fault : PassM σ α) post broken := h

theorem Upholds.bind (h : Upholds pre step mid broken)
    (hrest : ∀ value, Upholds mid (rest value) post broken) :
    Upholds pre (step >>= rest) post broken := by
  intro pass hpass
  have hmiddle := h hpass
  simp only [Bind.bind, EStateM.bind]
  cases hstep : step pass with
  | ok value middle =>
    rw [hstep] at hmiddle
    exact hrest value hmiddle
  | error fault middle =>
    rw [hstep] at hmiddle
    exact hmiddle

/-- The same, for a given statement between the two steps. -/
theorem Upholds.seq (mid : Pass σ → Prop) (h : Upholds pre step mid broken)
    (hrest : ∀ value, Upholds mid (rest value) post broken) :
    Upholds pre (step >>= rest) post broken := h.bind hrest

theorem Upholds.get_bind {rest : Pass σ → PassM σ β}
    (h : ∀ pass, Upholds pre (rest pass) post broken) :
    Upholds pre (get >>= rest) post broken := fun pass hpass => h pass hpass

/-- Reading the pass: the step goes on from it. -/
theorem Upholds.get_bind_at {rest : Pass σ → PassM σ β}
    (h : ∀ pass, pre pass → Upholds (· = pass) (rest pass) post broken) :
    Upholds pre (get >>= rest) post broken := fun pass hpass => h pass hpass rfl

theorem Upholds.lift_bind {made : Except Fault α} (hbroken : ∀ pass, pre pass → broken pass)
    (h : ∀ value, made = .ok value → Upholds pre (rest value) post broken) :
    Upholds pre (liftM made >>= rest) post broken := by
  cases made with
  | ok value => exact h value rfl
  | error fault => exact hbroken

/-- Reading something of the pass that may not be there. -/
theorem Upholds.read_bind {read : Pass σ → Except Fault α}
    (hbroken : ∀ pass, pre pass → broken pass)
    (h : ∀ value, Upholds (fun pass => pre pass ∧ read pass = .ok value) (rest value) post broken) :
    Upholds pre (get >>= fun pass => liftM (read pass) >>= rest) post broken := by
  refine Upholds.get_bind_at fun pass hpass => ?_
  refine Upholds.lift_bind (fun _ heq => heq ▸ hbroken pass hpass) fun value hread => ?_
  exact (h value).imp fun _ heq => heq ▸ ⟨hpass, hread⟩

theorem Upholds.ite {c : Prop} [Decidable c] (h : c → Upholds pre step post broken)
    (h' : ¬c → Upholds pre other post broken) :
    Upholds pre (if c then step else other) post broken := by
  by_cases hc : c
  · rw [if_pos hc]
    exact h hc
  · rw [if_neg hc]
    exact h' hc

theorem Upholds.andThen {first second : PassM σ Control} (h : Upholds pre first mid broken)
    (hmid : ∀ pass, mid pass → post pass) (h' : Upholds mid second post broken) :
    Upholds pre (Control.andThen first second) post broken := by
  refine h.bind fun control => ?_
  cases control with
  | halt => exact upholds_pure hmid
  | proceed => exact h'

theorem Upholds.visitAll {visit : α → PassM σ Control} {xs : List α}
    (h : ∀ x ∈ xs, Upholds pre (visit x) pre broken) :
    Upholds pre (Control.visitAll visit xs) pre broken := by
  induction xs with
  | nil => exact upholds_pure fun _ => id
  | cons x xs ih =>
    have hrest := ih fun y hy => h y (List.mem_cons_of_mem _ hy)
    exact (h x List.mem_cons_self).andThen (fun _ => id) hrest

theorem upholds_modify {change : Pass σ → Pass σ} (h : ∀ pass, pre pass → post (change pass)) :
    Upholds pre (modify change) post broken := h

theorem upholds_note {entry : JournalEntry}
    (h : ∀ pass, pre pass → post { pass with journal := entry :: pass.journal }) :
    Upholds pre (note entry : PassM σ Unit) post broken := h

/-- Replacing a part of the pass by what is made of it. -/
theorem upholds_update {make : Pass σ → Except Fault α} {put : Pass σ → α → Pass σ}
    (hbroken : ∀ pass, pre pass → broken pass)
    (h : ∀ pass made, pre pass → make pass = .ok made → post (put pass made)) :
    Upholds pre (get >>= fun pass => liftM (make pass) >>= fun made => set (put pass made))
      post broken := by
  apply Upholds.get_bind_at
  intro pass hpass
  apply Upholds.lift_bind (fun _ heq => heq ▸ hbroken pass hpass)
  rintro made hmade _ -
  exact h pass made hpass hmade

theorem upholds_changeScratch {change : Scratch → Except Fault Scratch}
    (hbroken : ∀ pass, pre pass → broken pass)
    (h : ∀ pass scratch, pre pass → change pass.scratch = .ok scratch →
      post { pass with scratch }) : Upholds pre (changeScratch change) post broken :=
  upholds_update hbroken h

theorem upholds_changeRoles {change : FlagSet → Except Fault FlagSet}
    (hbroken : ∀ pass, pre pass → broken pass)
    (h : ∀ pass roles, pre pass → change pass.stream.roles = .ok roles →
      post { pass with stream := { pass.stream with roles } }) :
    Upholds pre (changeRoles change) post broken := upholds_update hbroken h

theorem upholds_changeLeaves {change : FlagSet → Except Fault FlagSet}
    (hbroken : ∀ pass, pre pass → broken pass)
    (h : ∀ pass leaves, pre pass → change pass.stream.leaves = .ok leaves →
      post { pass with stream := { pass.stream with leaves } }) :
    Upholds pre (changeLeaves change) post broken := upholds_update hbroken h

end Rules

end PassM

open PassM

/-! ## Working space around an automaton -/

theorem elementAt_of_replaceAt {α : Type} {elements next : List α} {index other : Nat} {element : α}
    (run : replaceAt elements other element = .ok next) (hne : index ≠ other) :
    elementAt next index = elementAt elements index := by
  have hlength := length_of_replaceAt run
  unfold replaceAt at run
  split at run
  · cases run
    rw [elementAt, elementAt, hlength, List.getElem?_set_ne hne.symm]
  · cases run

/-- What lies outside of the bytes that are replaced is not affected. -/
theorem Bytes.slice_refill {bytes new : Bytes} {start stop first last : Nat}
    (h : last ≤ start ∨ stop ≤ first) :
    (Bytes.refill bytes start stop new).slice first last = bytes.slice first last := by
  have hextract : (Bytes.refill bytes start stop new).extract first last
      = bytes.extract first last := by
    refine Array.ext_getElem? fun index => ?_
    rw [Array.getElem?_extract, Array.getElem?_extract, Bytes.size_refill]
    split
    · next hlt =>
      have houtside : ¬(start ≤ first + index ∧ first + index < stop) := by omega
      simp only [getElem?_refill, if_neg houtside, Option.map_id']
    · rfl
  rw [slice, slice, Bytes.size_refill, hextract]

/-- The full state of an automaton, the events that wait for it, and whether it was triggered stay
as they are. -/
structure Scratch.Around (engine : Engine) (queue : Nat) (scratch next : Scratch) : Prop where
  sized : scratch.triggered.IsSized → next.triggered.IsSized
  triggered : next.triggered.isOn queue = scratch.triggered.isOn queue
  events : next.queue queue = scratch.queue queue
  full : next.fullOf engine queue = scratch.fullOf engine queue

namespace Scratch

variable {engine : Engine} {queue other : Nat} {scratch middle next : Scratch}

theorem Around.trans (h : Around engine queue scratch middle)
    (h' : Around engine queue middle next) : Around engine queue scratch next where
  sized hsized := h'.sized (h.sized hsized)
  triggered := h'.triggered.trans h.triggered
  events := h'.events.trans h.events
  full := h'.full.trans h.full

section Other

variable (hne : other ≠ queue)
include hne

theorem around_setFull (hapart : engine.IsApart) {full : Bytes}
    (run : scratch.setFull engine other full = .ok next) : Around engine queue scratch next := by
  obtain ⟨slot, hslot, run⟩ := Except.bind_eq_ok_iff.1 run
  obtain ⟨_, -, run⟩ := Except.bind_eq_ok_iff.1 run
  cases run
  refine ⟨id, rfl, rfl, ?_⟩
  unfold fullOf
  cases hqueue : engine.slot queue with
  | error fault => rfl
  | ok mine =>
    refine Bytes.slice_refill ?_
    exact hapart.le_or_le (elementAt_eq_ok_iff.1 hqueue) (elementAt_eq_ok_iff.1 hslot) hne.symm

theorem around_clearQueue (run : scratch.clearQueue other = .ok next) :
    Around engine queue scratch next := by
  obtain ⟨queues, hreplace, run⟩ := Except.bind_eq_ok_iff.1 run
  cases run
  refine ⟨id, rfl, ?_, rfl⟩
  rw [Scratch.queue, Scratch.queue, elementAt_of_replaceAt hreplace hne.symm]

theorem around_pushEvent {event : QueueEvent} (run : scratch.pushEvent other event = .ok next) :
    Around engine queue scratch next := by
  obtain ⟨events, -, run⟩ := Except.bind_eq_ok_iff.1 run
  obtain ⟨queues, hreplace, run⟩ := Except.bind_eq_ok_iff.1 run
  cases run
  refine ⟨id, rfl, ?_, rfl⟩
  rw [Scratch.queue, Scratch.queue, elementAt_of_replaceAt hreplace hne.symm]

theorem around_triggered {triggered : FlagSet}
    (hinsert : scratch.triggered.insert other = .ok triggered) :
    Around engine queue scratch { scratch with triggered } where
  sized hsized := FlagSet.isSized_of_insert hsized hinsert
  triggered := FlagSet.isOn_of_insert_of_ne hinsert hne.symm
  events := rfl
  full := rfl

end Other

end Scratch

/-! ## Steps that spare an automaton -/

/-- The entry tells that the automaton was triggered or run. -/
def JournalEntry.Stirs (queue : Nat) : JournalEntry → Prop
  | .triggered other _ | .executed other .. => other = queue
  | _ => False

/-- The entry tells that the automaton was triggered, run, or asked for its final reports. -/
def JournalEntry.Concerns (queue : Nat) : JournalEntry → Prop
  | .asked other .. => other = queue
  | entry => entry.Stirs queue

theorem JournalEntry.Stirs.concerns {queue : Nat} {entry : JournalEntry} (h : entry.Stirs queue) :
    entry.Concerns queue := by
  cases entry with
  | asked => exact h.elim
  | _ => exact h

/-- Between two passes the automaton was left alone: it was not triggered, run or asked, nor
switched off. -/
structure Pass.Around {σ : Type} (engine : Engine) (queue : Nat) (pass next : Pass σ) : Prop where
  scratch : Scratch.Around engine queue pass.scratch next.scratch
  active : pass.stream.leaves.isOn queue = true → next.stream.leaves.isOn queue = true
  journal : ∃ entries, next.journal = entries ++ pass.journal
    ∧ ∀ entry ∈ entries, ¬entry.Concerns queue

namespace Pass.Around

variable {σ : Type} {engine : Engine} {queue : Nat} {pass middle next : Pass σ}

theorem refl (pass : Pass σ) : Around engine queue pass pass :=
  ⟨⟨id, rfl, rfl, rfl⟩, id, [], rfl, nofun⟩

theorem trans (h : Around engine queue pass middle) (h' : Around engine queue middle next) :
    Around engine queue pass next := by
  obtain ⟨first, hfirst, hsilent⟩ := h.journal
  obtain ⟨second, hsecond, hsilent'⟩ := h'.journal
  refine ⟨h.scratch.trans h'.scratch, fun hactive => h'.active (h.active hactive),
    second ++ first, ?_, fun entry hentry => ?_⟩
  · rw [hsecond, hfirst, List.append_assoc]
  · exact (List.mem_append.1 hentry).elim (hsilent' entry) (hsilent entry)

theorem of_scratch {scratch : Scratch} (h : Scratch.Around engine queue pass.scratch scratch) :
    Around engine queue pass { pass with scratch } := ⟨h, id, [], rfl, nofun⟩

theorem note {entry : JournalEntry} (hentry : ¬entry.Concerns queue) (pass : Pass σ) :
    Around engine queue pass { pass with journal := entry :: pass.journal } where
  scratch := ⟨id, rfl, rfl, rfl⟩
  active := id
  journal := ⟨[entry], rfl, fun _ hmem => List.mem_singleton.1 hmem ▸ hentry⟩

end Pass.Around

namespace Occasion

variable {σ α : Type}

/-- Whatever comes of the step, it leaves the automaton alone. -/
def Spares (occasion : Occasion σ) (queue : Nat) (step : PassM σ α) : Prop :=
  ∀ start, Preserves (Pass.Around occasion.engine queue start) step

variable {occasion : Occasion σ} {queue : Nat}

/-- Around the automaton nothing changes what is known, and it is known after a fault. -/
structure Persists (occasion : Occasion σ) (queue : Nat) (inv broken : Pass σ → Prop) : Prop where
  around : ∀ {pass next}, Pass.Around occasion.engine queue pass next → inv pass → inv next
  broken : ∀ pass, inv pass → broken pass

theorem persists_around (start : Pass σ) :
    occasion.Persists queue (Pass.Around occasion.engine queue start)
      (Pass.Around occasion.engine queue start) where
  around h hstart := hstart.trans h
  broken _ := id

theorem Spares.upholds {step : PassM σ α} (h : occasion.Spares queue step)
    {inv broken : Pass σ → Prop} (hinv : occasion.Persists queue inv broken) :
    Upholds inv step inv broken := by
  intro pass hpass
  have hnext := h pass (Pass.Around.refl pass)
  cases hstep : step pass with
  | ok answer next =>
    rw [hstep] at hnext
    exact hinv.around hnext hpass
  | error fault next =>
    rw [hstep] at hnext
    exact hinv.broken next (hinv.around hnext hpass)

theorem spares_pure (value : α) : occasion.Spares queue (pure value : PassM σ α) :=
  fun _ => upholds_pure fun _ => id

theorem Spares.bind {β : Type} {step : PassM σ α} {rest : α → PassM σ β}
    (h : occasion.Spares queue step) (hrest : ∀ value, occasion.Spares queue (rest value)) :
    occasion.Spares queue (step >>= rest) :=
  fun start => (h start).bind fun value => hrest value start

theorem Spares.lift_bind {β : Type} {made : Except Fault α} {rest : α → PassM σ β}
    (h : ∀ value, occasion.Spares queue (rest value)) :
    occasion.Spares queue (liftM made >>= rest) :=
  fun start => Upholds.lift_bind (fun _ => id) fun value _ => h value start

theorem Spares.get_bind {rest : Pass σ → PassM σ α}
    (h : ∀ pass, occasion.Spares queue (rest pass)) : occasion.Spares queue (get >>= rest) :=
  fun start => Upholds.get_bind fun pass => h pass start

theorem Spares.ite {c : Prop} [Decidable c] {step other : PassM σ α}
    (h : occasion.Spares queue step) (h' : occasion.Spares queue other) :
    occasion.Spares queue (if c then step else other) :=
  fun start => Upholds.ite (fun _ => h start) fun _ => h' start

theorem Spares.visitAll {visit : α → PassM σ Control} {xs : List α}
    (h : ∀ x ∈ xs, occasion.Spares queue (visit x)) :
    occasion.Spares queue (Control.visitAll visit xs) :=
  fun start => Upholds.visitAll fun x hx => h x hx start

theorem spares_note (entry : JournalEntry) (h : ¬entry.Concerns queue) :
    occasion.Spares queue (note entry) :=
  fun _ => upholds_note fun pass hpass => hpass.trans (.note h pass)

theorem spares_changeScratch {change : Scratch → Except Fault Scratch}
    (h : ∀ {scratch next}, change scratch = .ok next →
      Scratch.Around occasion.engine queue scratch next) :
    occasion.Spares queue (changeScratch change) :=
  fun _ => upholds_changeScratch (fun _ => id) fun _ _ hpass hchange =>
    hpass.trans (.of_scratch (h hchange))

theorem spares_changeRoles (change : FlagSet → Except Fault FlagSet) :
    occasion.Spares queue (changeRoles change) :=
  fun _ => upholds_changeRoles (fun _ => id) fun _ _ hpass _ =>
    hpass.trans ⟨⟨id, rfl, rfl, rfl⟩, id, [], rfl, nofun⟩

theorem spares_changeLeaves {change : FlagSet → Except Fault FlagSet}
    (h : ∀ {leaves next}, change leaves = .ok next → leaves.isOn queue = true →
      next.isOn queue = true) : occasion.Spares queue (changeLeaves change) :=
  fun _ => upholds_changeLeaves (fun _ => id) fun _ _ hpass hchange =>
    hpass.trans ⟨⟨id, rfl, rfl, rfl⟩, h hchange, [], rfl, nofun⟩

/-! ### Reports and roles -/

theorem spares_report (offset : Nat) (id : ReportId) :
    occasion.Spares queue (occasion.report offset id) := by
  intro start pass hpass
  cases hhalted : pass.halted with
  | true =>
    rw [report_of_halted hhalted]
    exact hpass
  | false =>
    rw [report_of_running hhalted]
    have hrefl : Pass.Around occasion.engine queue pass pass := .refl pass
    refine hpass.trans { hrefl with journal := ⟨[_], rfl, fun entry hentry => ?_⟩ }
    cases List.mem_singleton.1 hentry
    exact False.elim

theorem spares_converse (other : Nat) (dialogue : Dialogue) :
    occasion.Spares queue (occasion.converse other dialogue) := by
  induction dialogue with
  | done control => exact spares_pure control
  | fault fault =>
    intro start
    exact upholds_throw fun _ h => h
  | ask offset id next ih =>
    apply (spares_report offset id).bind
    intro control
    exact (spares_note (.told other control) fun h => h).bind fun _ => ih control

/-- What comes of asking for the final reports, apart from the note that this is done. -/
theorem spares_finalReports (other : Nat) (dialogue : Dialogue) : occasion.Spares queue (do
    let control ← occasion.converse other dialogue
    return if (← get).halted then .halt else control) :=
  (spares_converse other dialogue).bind fun _ => Spares.get_bind fun _ => spares_pure _

theorem spares_switchOn (id : RoleId) : occasion.Spares queue (occasion.switchOn id) := by
  apply Spares.lift_bind
  intro role
  cases role.state? with
  | none => exact spares_pure ()
  | some state => exact spares_changeRoles _

theorem spares_switchAllOn (ids : List RoleId) :
    occasion.Spares queue (occasion.switchAllOn ids) := by
  induction ids with
  | nil => exact spares_pure ()
  | cons id ids ih => exact (spares_switchOn id).bind fun _ => ih

theorem spares_switchAllOff (states : List Nat) :
    occasion.Spares queue (switchAllOff states : PassM σ Unit) := by
  induction states with
  | nil => exact spares_pure ()
  | cons state states ih => exact (spares_changeRoles _).bind fun _ => ih

theorem spares_dropLastByteRoles (offset : Nat) :
    occasion.Spares queue (occasion.dropLastByteRoles offset) :=
  Spares.get_bind fun _ => Spares.ite (spares_switchAllOff _) (spares_pure ())

theorem spares_modify {change : Pass σ → Pass σ}
    (h : ∀ pass, (change pass).toSession = pass.toSession) :
    occasion.Spares queue (modify change) := by
  intro start
  apply upholds_modify
  intro pass hpass
  apply hpass.trans
  refine ⟨?_, ?_, [], ?_, nofun⟩
  · rw [h pass]
    exact ⟨fun h => h, rfl, rfl, rfl⟩
  · rw [h pass]
    exact fun h => h
  · rw [h pass]
    rfl

theorem spares_catchUp (upTo : Nat) : occasion.Spares queue (occasion.catchUp upTo) := by
  apply Spares.get_bind
  intro pass
  have hmove : occasion.Spares queue
      (modify fun pass => { pass with caughtUpTo := max pass.caughtUpTo upTo }) :=
    spares_modify fun _ => rfl
  have hpull (window : Bytes) : occasion.Spares queue (occasion.pullTriggers window) :=
    Spares.get_bind fun _ => Spares.lift_bind fun _ => spares_switchAllOn _
  exact Spares.ite ((hpull _).bind fun _ => hmove) hmove

theorem spares_settleBuffer : occasion.Spares queue occasion.settleBuffer := by
  apply (spares_dropLastByteRoles _).bind
  intro _
  refine (spares_modify fun pass => ?_).bind fun _ => ?_
  · rfl
  · exact Spares.ite (spares_catchUp _) (spares_pure ())

/-! ### Walks -/

theorem spares_visitEntry (entry : WalkEntry) :
    occasion.Spares queue (occasion.visitEntry entry) := by
  apply Spares.get_bind
  intro pass
  apply Spares.ite (spares_pure _)
  apply Spares.lift_bind
  intro role
  have hfire : occasion.Spares queue (do
      let marked ← (← get).scratch.handled.insert entry.role.toNat
      PassM.changeScratch fun scratch => .ok { scratch with handled := marked.2 }
      PassM.note (.fired entry.role)
      occasion.report occasion.offset role.report) := by
    apply Spares.get_bind
    intro pass
    apply Spares.lift_bind
    intro marked
    refine (spares_changeScratch fun hchange => ?_).bind fun _ => ?_
    · cases hchange
      exact ⟨fun h => h, rfl, rfl, rfl⟩
    · exact (spares_note (.fired entry.role) fun h => h).bind fun _ => spares_report _ _
  refine Spares.ite ?_ hfire
  exact Spares.lift_bind fun _ => Spares.ite (spares_pure _) hfire

theorem spares_walk : occasion.Spares queue occasion.walk := by
  refine (spares_changeScratch fun hchange => ?_).bind fun _ => ?_
  · cases hchange
    exact ⟨fun h => h, rfl, rfl, rfl⟩
  · apply Spares.visitAll
    intro stop _
    apply Spares.get_bind
    intro pass
    apply Spares.lift_bind
    intro isOn
    exact Spares.ite (Spares.visitAll fun entry _ => spares_visitEntry entry) (spares_pure _)

/-! ### Other automata -/

section Other

variable {other : Nat} (hne : other ≠ queue)
include hne

theorem spares_askFinal (slot : Slot) (full short : Bytes) :
    occasion.Spares queue (occasion.askFinal other slot full short) := by
  apply (spares_note (.asked other full short occasion.offset) hne).bind
  intro _
  exact spares_finalReports other _

variable (hapart : occasion.engine.IsApart)
include hapart

theorem spares_expand (slot : Slot) : occasion.Spares queue (occasion.expand other slot) := by
  apply Spares.get_bind
  intro pass
  apply Spares.lift_bind
  intro full
  apply Spares.lift_bind
  intro short
  apply Spares.lift_bind
  intro made
  apply (spares_changeScratch fun hset => Scratch.around_setFull hne hapart hset).bind
  intro _
  apply Spares.get_bind
  intro pass
  apply Spares.lift_bind
  intro full
  exact spares_note _ fun h => h

theorem spares_askActive : occasion.Spares queue (occasion.askActive other) := by
  apply Spares.lift_bind
  intro slot
  apply Spares.ite (spares_pure _)
  apply Spares.get_bind
  intro pass
  apply Spares.lift_bind
  intro _
  apply Spares.get_bind
  intro pass
  apply Spares.lift_bind
  intro short
  have hask : occasion.Spares queue (do
      let full ← (← get).scratch.fullOf occasion.engine other
      occasion.askFinal other slot full short) :=
    Spares.get_bind fun _ => Spares.lift_bind fun full => spares_askFinal hne slot full short
  exact Spares.ite ((spares_expand hne hapart slot).bind fun _ => hask) hask

theorem spares_prepare (slot : Slot) : occasion.Spares queue (occasion.prepare other slot) := by
  intro start
  apply Upholds.get_bind_at
  intro pass hpass
  apply Upholds.lift_bind (fun _ heq => heq ▸ hpass)
  intro triggered hinsert
  -- The insertion is the only step that needs the pass it was read from.
  have hmark : Upholds (· = pass)
      (changeScratch fun scratch => .ok { scratch with triggered })
      (Pass.Around occasion.engine queue start) (Pass.Around occasion.engine queue start) := by
    apply upholds_changeScratch (fun _ heq => heq ▸ hpass)
    rintro _ scratch rfl ⟨⟩
    exact hpass.trans (.of_scratch (Scratch.around_triggered hne hinsert))
  apply hmark.bind
  intro _
  have hrest : occasion.Spares queue (do
      PassM.changeScratch (·.clearQueue other)
      let full ← (← get).scratch.fullOf occasion.engine other
      let full ← slot.automaton.prepare full
      PassM.changeScratch (·.setFull occasion.engine other full)
      PassM.note (.prepared other (← (← get).scratch.fullOf occasion.engine other))) := by
    apply (spares_changeScratch fun hclear => Scratch.around_clearQueue hne hclear).bind
    intro _
    apply Spares.get_bind
    intro pass
    apply Spares.lift_bind
    intro full
    apply Spares.lift_bind
    intro made
    apply (spares_changeScratch fun hset => Scratch.around_setFull hne hapart hset).bind
    intro _
    apply Spares.get_bind
    intro pass
    apply Spares.lift_bind
    intro full
    exact spares_note _ fun h => h
  exact hrest start

theorem spares_trigger {id : QueueId} (hid : id.toNat = other) (offset : Nat) :
    occasion.Spares queue (occasion.trigger offset id) := by
  subst hid
  apply Spares.lift_bind
  intro slot
  apply Spares.get_bind
  intro pass
  apply Spares.lift_bind
  intro isTriggered
  have hpush (location : Int64) : occasion.Spares queue (do
      PassM.changeLeaves (·.insert id.toNat)
      PassM.changeScratch (·.pushEvent id.toNat ⟨.top, location⟩)
      PassM.note (.triggered id.toNat location)) := by
    apply (spares_changeLeaves FlagSet.isOn_of_isOn_insert).bind
    intro _
    apply (spares_changeScratch fun hpush => Scratch.around_pushEvent hne hpush).bind
    intro _
    exact spares_note _ hne
  exact Spares.ite ((spares_prepare hne hapart slot).bind fun _ => hpush _) (hpush _)

theorem spares_finishSuffix : occasion.Spares queue (occasion.finishSuffix other) := by
  apply Spares.lift_bind
  intro slot
  apply Spares.ite (spares_pure _)
  apply (spares_changeScratch fun hpush => Scratch.around_pushEvent hne hpush).bind
  intro _
  apply Spares.get_bind
  intro pass
  apply Spares.lift_bind
  intro full
  apply Spares.get_bind
  intro pass
  apply Spares.lift_bind
  intro events
  apply Spares.lift_bind
  rintro ⟨made, alive⟩
  apply (spares_changeScratch fun hset => Scratch.around_setFull hne hapart hset).bind
  intro _
  apply Spares.get_bind
  intro pass
  apply Spares.lift_bind
  intro full
  apply (spares_note (.executed other events full alive) hne).bind
  intro _
  apply Spares.ite (spares_pure _)
  apply Spares.get_bind
  intro pass
  apply Spares.lift_bind
  intro short
  exact spares_askFinal hne slot full short

end Other

/-! ## Actions -/

section Actions

variable {inv broken : Pass σ → Prop}

theorem upholds_triggerAll {offset : Nat} {queues : List QueueId}
    (h : ∀ id ∈ queues, Upholds inv (occasion.trigger offset id) inv broken) :
    Upholds inv (occasion.triggerAll offset queues) inv broken := by
  induction queues with
  | nil => exact upholds_pure fun _ hpass => hpass
  | cons id queues ih =>
    obtain ⟨hfirst, hrest⟩ := List.forall_mem_cons.1 h
    exact hfirst.bind fun _ => ih hrest

variable (hinv : occasion.Persists queue inv broken)
include hinv

/-- What an action upholds is what the triggers in it do. -/
theorem upholds_runAction {offset : Nat} {id : LiteralId}
    (h : ∀ action, occasion.engine.actions.find? id = some action → ∀ queue ∈ action.suffixes,
      Upholds inv (occasion.trigger offset queue) inv broken) :
    Upholds inv (occasion.runAction offset id) inv broken := by
  unfold runAction
  cases haction : occasion.engine.actions.find? id with
  | none => exact upholds_pure fun _ hpass => hpass
  | some action =>
    have hspares {α : Type} {step : PassM σ α} (hstep : occasion.Spares queue step) :
        Upholds inv step inv broken := hstep.upholds hinv
    apply (hspares (spares_note (.acted offset id) fun hconcerns => hconcerns)).bind
    intro _
    apply Upholds.ite
    · intro _
      exact upholds_pure fun _ hpass => hpass
    · intro _
      apply Upholds.andThen (hspares (Spares.visitAll fun id _ => spares_report offset id))
        fun _ hpass => hpass
      apply (hspares (spares_switchAllOn action.roles)).bind
      intro _
      apply (upholds_triggerAll (h action haction)).bind
      intro _
      apply (hspares (spares_modify fun pass => ?_)).bind
      · intro _
        exact upholds_pure fun _ hpass => hpass
      · rfl

theorem upholds_changeDelayed (change : List Delayed → List Delayed) :
    Upholds inv (PassM.changeScratch fun scratch =>
      .ok { scratch with delayed := change scratch.delayed }) inv broken := by
  refine Spares.upholds (spares_changeScratch fun hchange => ?_) hinv
  cases hchange
  exact ⟨fun h => h, rfl, rfl, rfl⟩

/-- The action of the end does what it does only if one of its groups is live. -/
theorem upholds_runEndEvent {groups : Groups}
    (h : ∀ id action, occasion.engine.endEvent? = some id →
      occasion.engine.actions.find? id = some action → action.groups.meets groups = true →
      ∀ queue ∈ action.suffixes, Upholds inv (occasion.trigger occasion.offset queue) inv broken) :
    Upholds (fun pass => inv pass ∧ pass.groups = groups) occasion.runEndEvent inv broken := by
  unfold runEndEvent
  cases hevent : occasion.engine.endEvent? with
  | none => exact upholds_pure fun _ hpass => hpass.1
  | some id =>
    simp only [runOrDelay]
    cases haction : occasion.engine.actions.find? id with
    | none => exact upholds_pure fun _ hpass => hpass.1
    | some action =>
      apply Upholds.get_bind_at
      rintro pass ⟨hpass, rfl⟩
      apply Upholds.ite
      · intro _
        exact upholds_pure fun _ heq => heq ▸ hpass
      · intro hlive
        rw [if_neg (by simp)]
        refine (upholds_runAction hinv fun found hfound => ?_).imp fun _ heq => heq ▸ hpass
        cases haction.symm.trans hfound
        exact h id action hevent haction (by simpa using hlive)

section Scan

variable (htrigger : ∀ offset id, Upholds inv (occasion.trigger offset id) inv broken)
include htrigger

theorem upholds_runOrDelay (offset : Nat) (id : LiteralId) (isEndEvent : Bool) :
    Upholds inv (occasion.runOrDelay offset id isEndEvent) inv broken := by
  unfold runOrDelay
  cases occasion.engine.actions.find? id with
  | none => exact upholds_pure fun _ hpass => hpass
  | some action =>
    apply Upholds.get_bind
    intro pass
    apply Upholds.ite
    · intro _
      exact upholds_pure fun _ hpass => hpass
    · intro _
      apply Upholds.ite
      · intro _
        apply (upholds_changeDelayed hinv _).bind
        intro _
        exact upholds_pure fun _ hpass => hpass
      · intro _
        exact upholds_runAction hinv fun _ _ queue _ => htrigger offset queue

theorem upholds_runDelayed (upTo : Nat) :
    Upholds inv (occasion.runDelayed upTo) inv broken := by
  apply Upholds.get_bind
  intro pass
  refine Upholds.bind (Upholds.visitAll fun delayed _ => ?_) fun control => ?_
  · exact upholds_runAction hinv fun _ _ queue _ => htrigger delayed.due queue
  · cases control with
    | halt =>
      apply (upholds_changeDelayed hinv fun _ => []).bind
      intro _
      exact upholds_pure fun _ hpass => hpass
    | proceed =>
      apply (upholds_changeDelayed hinv (·.drop _)).bind
      intro _
      exact upholds_pure fun _ hpass => hpass

theorem upholds_onLiteral (matchEnd : Nat) (id : LiteralId) :
    Upholds inv (occasion.onLiteral matchEnd id) inv broken := by
  apply (upholds_runDelayed hinv htrigger _).andThen fun _ hpass => hpass
  refine Upholds.bind (Spares.upholds (spares_modify fun pass => ?_) hinv) fun _ => ?_
  · rfl
  · exact upholds_runOrDelay hinv htrigger _ id false

/-- What the scan of the last bytes upholds is what triggers do. -/
theorem upholds_scanTail (hsound : occasion.engine.IsSound) {matcher : EndMatcher}
    (hmatcher : occasion.engine.matcher? = some matcher) :
    Upholds inv (occasion.scanTail matcher) inv broken := by
  obtain ⟨literals, hserves⟩ := hsound.matcher matcher hmatcher
  have hscan : Upholds inv (Naive.scan literals (occasion.tailInput matcher) occasion.sink) inv
      broken := by
    apply Upholds.visitAll
    intro matchEnd _
    apply Upholds.get_bind
    intro pass
    apply Upholds.visitAll
    intro id _
    exact upholds_onLiteral hinv htrigger matchEnd id
  rw [scanTail_eq_naive hserves]
  apply Upholds.ite
  · intro _
    exact upholds_pure fun _ hpass => hpass
  · intro _
    refine Upholds.bind (Spares.upholds (spares_modify fun pass => ?_) hinv) fun _ => ?_
    · rfl
    · apply hscan.andThen fun _ hpass => hpass
      apply (upholds_runDelayed hinv htrigger _).bind
      intro control
      apply (upholds_changeDelayed hinv fun _ => []).bind
      intro _
      exact upholds_pure fun _ hpass => hpass

end Scan

end Actions

end Occasion

end Multimatch
