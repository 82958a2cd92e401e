import Multimatch.Proofs.EndOfData.Around
import Multimatch.Proofs.EndOfData.LastByte

/-!
# Automata asked in a state that reflects their triggers

An automaton is asked for its final reports in two places: together with the active ones, and after
it was triggered and run. If the action of the end does not trigger it, then in the first place
nothing has triggered it, and at the end of a whole buffer its full state is still the one that was
left in the working space; in the second place it has just been run over every event that it was
triggered with (`Occasion.reflects_of_built`). An automaton that the action of the end triggers is
asked before anything is run, and the trigger has replaced the full state that was left
(`Occasion.exists_asked_unrun`).
-/

namespace Multimatch

open PassM

/-! ## What an automaton was triggered with -/

/-- The event that an automaton was triggered with, if the entry tells of that. -/
def JournalEntry.top? (queue : Nat) : JournalEntry → Option QueueEvent
  | .triggered other location => if other = queue then some ⟨.top, location⟩ else none
  | _ => none

/-- The events that an automaton was triggered with, in their order. -/
def topsOf (queue : Nat) (entries : List JournalEntry) : List QueueEvent :=
  entries.reverse.filterMap (·.top? queue)

section Tops

variable {queue : Nat} {entry : JournalEntry} {entries more : List JournalEntry}

theorem topsOf_cons : topsOf queue (entry :: entries)
    = topsOf queue entries ++ (entry.top? queue).toList := by
  rw [topsOf, List.reverse_cons, List.filterMap_append]
  cases h : entry.top? queue with
  | none => simp [topsOf, h]
  | some event => simp [topsOf, h]

theorem JournalEntry.top?_eq_none (h : ¬entry.Stirs queue) : entry.top? queue = none := by
  cases entry with
  | triggered other location => exact if_neg h
  | _ => rfl

theorem topsOf_append (h : ∀ entry ∈ more, ¬entry.Stirs queue) :
    topsOf queue (more ++ entries) = topsOf queue entries := by
  induction more with
  | nil => rfl
  | cons entry more ih =>
    obtain ⟨hentry, hmore⟩ := List.forall_mem_cons.1 h
    rw [List.cons_append, topsOf_cons, JournalEntry.top?_eq_none hentry, ih hmore]
    exact List.append_nil _

end Tops

namespace Scratch

variable {scratch next : Scratch} {queue : Nat}

theorem queue_of_clearQueue (run : scratch.clearQueue queue = .ok next) :
    next.queue queue = .ok [] ∧ next.triggered = scratch.triggered := by
  obtain ⟨queues, hreplace, run⟩ := Except.bind_eq_ok_iff.1 run
  cases run
  unfold replaceAt at hreplace
  split at hreplace
  · next hlt =>
    cases hreplace
    refine ⟨?_, rfl⟩
    have hget : elementAt (scratch.queues.set queue []) queue = .ok [] :=
      elementAt_eq_ok_iff.2 (List.getElem?_set_self hlt)
    rw [Scratch.queue, hget]
    rfl
  · cases hreplace

theorem triggered_of_pushEvent {event : QueueEvent}
    (run : scratch.pushEvent queue event = .ok next) : next.triggered = scratch.triggered := by
  obtain ⟨events, -, run⟩ := Except.bind_eq_ok_iff.1 run
  obtain ⟨queues, -, run⟩ := Except.bind_eq_ok_iff.1 run
  cases run
  rfl

theorem exists_full_of_setFull {engine : Engine} {full : Bytes}
    (run : scratch.setFull engine queue full = .ok next) :
    ∃ written, next = { scratch with full := written } := by
  obtain ⟨slot, -, run⟩ := Except.bind_eq_ok_iff.1 run
  obtain ⟨_, -, run⟩ := Except.bind_eq_ok_iff.1 run
  cases run
  exact ⟨_, rfl⟩

end Scratch

namespace Occasion

variable {σ : Type}

section Definitions

variable (occasion : Occasion σ) (session : Session σ) (queue : Nat)

/-- The action of the end triggers the automaton, if some group of it is live. -/
def EndTriggers (groups : Groups) : Prop :=
  ∃ id action, occasion.engine.endEvent? = some id
    ∧ occasion.engine.actions.find? id = some action ∧ action.groups.meets groups = true
    ∧ ∃ suffix ∈ action.suffixes, suffix.toNat = queue

/-- The full state reflects what happened earlier in the pass. Either the automaton was neither
triggered nor run, and the full state is what a whole buffer has left; or it was just run over the
events that it was triggered with. -/
def Reflects (full : Bytes) (earlier : List JournalEntry) : Prop :=
  ((∀ entry ∈ earlier, ¬entry.Stirs queue)
    ∧ (occasion.mode = .block → session.scratch.fullOf occasion.engine queue = .ok full))
  ∨ ∃ events before, earlier = .executed queue events full true :: before
    ∧ (topsOf queue before).Sublist events

/-- Whenever the automaton was asked, it was in a state that reflects what happened before. -/
def AllReflect (entries : List JournalEntry) : Prop :=
  ∀ full short offset earlier, .asked queue full short offset :: earlier <:+ entries →
    occasion.Reflects session queue full earlier

/-- The automaton was asked in the right states so far. -/
def Reflected (pass : Pass σ) : Prop :=
  ∃ entries, pass.journal = entries ++ session.journal ∧ occasion.AllReflect session queue entries

/-- The automaton was neither triggered nor run so far. -/
structure Unstirred (pass : Pass σ) : Prop where
  sized : pass.scratch.triggered.IsSized
  full : occasion.mode = .block → pass.scratch.fullOf occasion.engine queue
    = session.scratch.fullOf occasion.engine queue
  journal : ∃ entries, pass.journal = entries ++ session.journal
    ∧ (∀ entry ∈ entries, ¬entry.Stirs queue) ∧ occasion.AllReflect session queue entries

/-- What the automaton was triggered with waits for it, if it was triggered at all. -/
def Waits (scratch : Scratch) (tops : List QueueEvent) : Prop :=
  (scratch.triggered.isOn queue = false ∧ tops = [])
  ∨ (scratch.triggered.isOn queue = true
    ∧ ∃ events, scratch.queue queue = .ok events ∧ tops.Sublist events)

/-- The automaton was asked in the right states so far, and what it was triggered with waits. -/
structure Heeds (pass : Pass σ) : Prop where
  sized : pass.scratch.triggered.IsSized
  journal : ∃ entries, pass.journal = entries ++ session.journal
    ∧ occasion.AllReflect session queue entries ∧ Waits queue pass.scratch (topsOf queue entries)

end Definitions

variable {occasion : Occasion σ} {session : Session σ} {queue : Nat}

/-! ## Journals -/

section Journals

variable {entry : JournalEntry} {entries more : List JournalEntry}

theorem allReflect_nil : occasion.AllReflect session queue [] := by
  intro full short offset earlier h
  exact absurd (List.suffix_nil.1 h) (List.cons_ne_nil _ _)

theorem AllReflect.cons (h : occasion.AllReflect session queue entries)
    (hentry : ∀ full short offset, entry = .asked queue full short offset →
      occasion.Reflects session queue full entries) :
    occasion.AllReflect session queue (entry :: entries) := by
  intro full short offset earlier hsuffix
  rcases List.suffix_cons_iff.1 hsuffix with heq | hlater
  · obtain ⟨rfl, rfl⟩ := List.cons.inj heq
    exact hentry full short offset rfl
  · exact h full short offset earlier hlater

theorem AllReflect.append (h : occasion.AllReflect session queue entries)
    (hmore : ∀ entry ∈ more, ¬entry.Concerns queue) :
    occasion.AllReflect session queue (more ++ entries) := by
  induction more with
  | nil => exact h
  | cons entry more ih =>
    obtain ⟨hentry, hmore⟩ := List.forall_mem_cons.1 hmore
    apply (ih hmore).cons
    rintro full short offset rfl
    exact absurd rfl hentry

end Journals

/-! ## What stays so around the automaton -/

section Persists

theorem Unstirred.reflected {pass : Pass σ} (h : occasion.Unstirred session queue pass) :
    occasion.Reflected session queue pass := by
  obtain ⟨entries, hjournal, -, hasked⟩ := h.journal
  exact ⟨entries, hjournal, hasked⟩

theorem Heeds.reflected {pass : Pass σ} (h : occasion.Heeds session queue pass) :
    occasion.Reflected session queue pass := by
  obtain ⟨entries, hjournal, hasked, -⟩ := h.journal
  exact ⟨entries, hjournal, hasked⟩

theorem persists_unstirred : occasion.Persists queue (occasion.Unstirred session queue)
    (occasion.Reflected session queue) where
  around {pass next} haround h := by
    obtain ⟨entries, hjournal, hunstirred, hasked⟩ := h.journal
    obtain ⟨more, hmore, hsilent⟩ := haround.journal
    refine ⟨haround.scratch.sized h.sized, fun hmode => haround.scratch.full.trans (h.full hmode),
      more ++ entries, ?_, fun entry hentry => ?_, hasked.append hsilent⟩
    · rw [hmore, hjournal, List.append_assoc]
    · rcases List.mem_append.1 hentry with hentry | hentry
      · exact fun hstirs => hsilent entry hentry hstirs.concerns
      · exact hunstirred entry hentry
  broken _ h := h.reflected

theorem Waits.around {scratch next : Scratch} {tops : List QueueEvent}
    (h : Waits queue scratch tops) (htriggered : next.triggered.isOn queue
      = scratch.triggered.isOn queue) (hevents : next.queue queue = scratch.queue queue) :
    Waits queue next tops := by
  unfold Waits
  rw [htriggered, hevents]
  exact h

theorem persists_heeds : occasion.Persists queue (occasion.Heeds session queue)
    (occasion.Reflected session queue) where
  around {pass next} haround h := by
    obtain ⟨entries, hjournal, hasked, hwaits⟩ := h.journal
    obtain ⟨more, hmore, hsilent⟩ := haround.journal
    refine ⟨haround.scratch.sized h.sized, more ++ entries, ?_, hasked.append hsilent, ?_⟩
    · rw [hmore, hjournal, List.append_assoc]
    · rw [topsOf_append fun entry hentry hstirs => hsilent entry hentry hstirs.concerns]
      exact hwaits.around haround.scratch.triggered haround.scratch.events
  broken _ h := h.reflected

end Persists

/-! ## Asking the active automata -/

section Active

/-- At the end of a stream the full state is expanded anew. -/
theorem upholds_expand (hmode : occasion.mode = .streaming) (slot : Slot) :
    Upholds (occasion.Unstirred session queue) (occasion.expand queue slot)
      (occasion.Unstirred session queue) (occasion.Reflected session queue) := by
  have hbroken (pass : Pass σ) (hpass : occasion.Unstirred session queue pass) :
      occasion.Reflected session queue pass := hpass.reflected
  apply Upholds.get_bind
  intro pass
  apply Upholds.lift_bind hbroken
  intro full _
  apply Upholds.lift_bind hbroken
  intro short _
  apply Upholds.lift_bind hbroken
  intro made _
  apply Upholds.seq (occasion.Unstirred session queue)
  · apply upholds_changeScratch hbroken
    intro pass scratch hpass hset
    obtain ⟨written, rfl⟩ := Scratch.exists_full_of_setFull hset
    exact ⟨hpass.sized, fun hblock => (nomatch hmode.symm.trans hblock), hpass.journal⟩
  · intro _
    apply Upholds.get_bind
    intro pass
    apply Upholds.lift_bind hbroken
    intro full _
    have hnote : occasion.Spares queue
        (note (.expanded queue short occasion.offset occasion.lastKey full)) :=
      spares_note _ fun h => h
    exact hnote.upholds persists_unstirred

/-- Before anything was done with the automaton, it is asked with the full state that was left. -/
theorem upholds_askFinal_of_unstirred (slot : Slot) (full short : Bytes) :
    Upholds (fun pass => occasion.Unstirred session queue pass
        ∧ pass.scratch.fullOf occasion.engine queue = .ok full)
      (occasion.askFinal queue slot full short)
      (occasion.Unstirred session queue) (occasion.Reflected session queue) := by
  apply Upholds.seq (occasion.Unstirred session queue)
  · apply upholds_note
    rintro pass ⟨hpass, hfull⟩
    obtain ⟨entries, hjournal, hunstirred, hasked⟩ := hpass.journal
    refine ⟨hpass.sized, hpass.full, _ :: entries, congrArg _ hjournal, ?_, ?_⟩
    · exact List.forall_mem_cons.2 ⟨fun h => h, hunstirred⟩
    · apply hasked.cons
      rintro _ _ _ ⟨⟩
      exact .inl ⟨hunstirred, fun hmode => (hpass.full hmode).symm.trans hfull⟩
  · intro _
    exact (spares_finalReports queue _).upholds persists_unstirred

theorem upholds_askActive_self :
    Upholds (occasion.Unstirred session queue) (occasion.askActive queue)
      (occasion.Unstirred session queue) (occasion.Reflected session queue) := by
  have hbroken (pass : Pass σ) (hpass : occasion.Unstirred session queue pass) :
      occasion.Reflected session queue pass := hpass.reflected
  apply Upholds.lift_bind hbroken
  intro slot _
  apply Upholds.ite
  · intro _
    exact upholds_pure fun _ hpass => hpass
  · intro _
    apply Upholds.get_bind
    intro pass
    apply Upholds.lift_bind hbroken
    intro _ _
    apply Upholds.get_bind
    intro pass
    apply Upholds.lift_bind hbroken
    intro short _
    have hask : Upholds (occasion.Unstirred session queue) (do
        let full ← (← get).scratch.fullOf occasion.engine queue
        occasion.askFinal queue slot full short)
        (occasion.Unstirred session queue) (occasion.Reflected session queue) :=
      Upholds.read_bind hbroken fun full => upholds_askFinal_of_unstirred slot full short
    apply Upholds.ite
    · intro hmode
      exact (upholds_expand hmode slot).bind fun _ => hask
    · intro _
      exact hask

theorem upholds_askActive (hapart : occasion.engine.IsApart) (other : Nat) :
    Upholds (occasion.Unstirred session queue) (occasion.askActive other)
      (occasion.Unstirred session queue) (occasion.Reflected session queue) := by
  by_cases hother : other = queue
  · subst hother
    exact upholds_askActive_self
  · exact (spares_askActive hother hapart).upholds persists_unstirred

end Active

/-! ## Triggering the automaton -/

section Trigger

/-- What is known of the automaton once it has been triggered: the events up to the latest trigger
wait, of which the journal may not tell yet. -/
structure Pushed (occasion : Occasion σ) (session : Session σ) (queue : Nat)
    (latest : List QueueEvent) (pass : Pass σ) : Prop where
  sized : pass.scratch.triggered.IsSized
  triggered : pass.scratch.triggered.isOn queue = true
  journal : ∃ entries, pass.journal = entries ++ session.journal
    ∧ occasion.AllReflect session queue entries
    ∧ ∃ events, pass.scratch.queue queue = .ok events
      ∧ (topsOf queue entries ++ latest).Sublist events

theorem Pushed.reflected {latest : List QueueEvent} {pass : Pass σ}
    (h : occasion.Pushed session queue latest pass) : occasion.Reflected session queue pass := by
  obtain ⟨entries, hjournal, hasked, -⟩ := h.journal
  exact ⟨entries, hjournal, hasked⟩

theorem persists_pushed (latest : List QueueEvent) :
    occasion.Persists queue (occasion.Pushed session queue latest)
      (occasion.Reflected session queue) where
  around {pass next} haround h := by
    obtain ⟨entries, hjournal, hasked, events, hevents, hsub⟩ := h.journal
    obtain ⟨more, hmore, hsilent⟩ := haround.journal
    refine ⟨haround.scratch.sized h.sized, haround.scratch.triggered.trans h.triggered,
      more ++ entries, ?_, hasked.append hsilent, events, haround.scratch.events.trans hevents, ?_⟩
    · rw [hmore, hjournal, List.append_assoc]
    · rw [topsOf_append fun entry hentry hstirs => hsilent entry hentry hstirs.concerns]
      exact hsub
  broken _ h := h.reflected

/-- The first trigger of a pass leaves no event from before. -/
theorem upholds_prepare (slot : Slot) :
    Upholds (fun pass => occasion.Heeds session queue pass
        ∧ pass.scratch.triggered.isOn queue = false)
      (occasion.prepare queue slot)
      (occasion.Pushed session queue []) (occasion.Reflected session queue) := by
  have hbroken (pass : Pass σ) (hpass : occasion.Pushed session queue [] pass) :
      occasion.Reflected session queue pass := hpass.reflected
  apply Upholds.get_bind_at
  rintro pass ⟨hpass, hoff⟩
  apply Upholds.lift_bind (fun _ heq => heq ▸ hpass.reflected)
  intro triggered hinsert
  -- Before the old events are dropped, all that counts is that no trigger has been noted.
  apply Upholds.seq fun next => next.scratch.triggered = triggered ∧ next.journal = pass.journal
  · apply upholds_changeScratch (fun _ heq => heq ▸ hpass.reflected)
    rintro _ scratch rfl ⟨⟩
    exact ⟨rfl, rfl⟩
  obtain ⟨entries, hjournal, hasked, hwaits⟩ := hpass.journal
  have htops : topsOf queue entries = [] := by
    rcases hwaits with ⟨-, htops⟩ | ⟨hon, -⟩
    · exact htops
    · exact absurd (hoff.symm.trans hon) Bool.false_ne_true
  have hon : triggered.isOn queue = true := by
    rw [FlagSet.isOn_of_insert hinsert]
    simp
  intro _
  apply Upholds.seq (occasion.Pushed session queue [])
  · apply upholds_changeScratch
    · rintro next ⟨-, hsame⟩
      exact ⟨entries, hsame.trans hjournal, hasked⟩
    · rintro next scratch ⟨htriggered, hsame⟩ hclear
      obtain ⟨hempty, hkept⟩ := Scratch.queue_of_clearQueue hclear
      have hkept := hkept.trans htriggered
      refine ⟨?_, ?_, entries, hsame.trans hjournal, hasked, [], hempty, ?_⟩
      · exact hkept ▸ FlagSet.isSized_of_insert hpass.sized hinsert
      · exact hkept ▸ hon
      · rw [htops]
        exact List.nil_sublist []
  · intro _
    apply Upholds.get_bind
    intro _
    apply Upholds.lift_bind hbroken
    intro full _
    apply Upholds.lift_bind hbroken
    intro made _
    apply Upholds.seq (occasion.Pushed session queue [])
    · apply upholds_changeScratch hbroken
      intro next scratch hnext hset
      obtain ⟨written, rfl⟩ := Scratch.exists_full_of_setFull hset
      exact ⟨hnext.sized, hnext.triggered, hnext.journal⟩
    · intro _
      apply Upholds.get_bind
      intro _
      apply Upholds.lift_bind hbroken
      intro full _
      have hnote : occasion.Spares queue (note (.prepared queue full)) :=
        spares_note _ fun h => h
      exact hnote.upholds (persists_pushed [])

/-- Every trigger of the automaton adds the event that it tells of. -/
theorem upholds_trigger_self {id : QueueId} (hid : id.toNat = queue) (offset : Nat) :
    Upholds (occasion.Heeds session queue) (occasion.trigger offset id)
      (occasion.Heeds session queue) (occasion.Reflected session queue) := by
  subst hid
  apply Upholds.lift_bind fun pass hpass => hpass.reflected
  intro slot _
  have hpush (location : Int64) : Upholds (occasion.Pushed session id.toNat []) (do
      PassM.changeLeaves (·.insert id.toNat)
      PassM.changeScratch (·.pushEvent id.toNat ⟨.top, location⟩)
      PassM.note (.triggered id.toNat location))
      (occasion.Heeds session id.toNat) (occasion.Reflected session id.toNat) := by
    have hleaves : occasion.Spares id.toNat (PassM.changeLeaves (·.insert id.toNat)) :=
      spares_changeLeaves FlagSet.isOn_of_isOn_insert
    apply (hleaves.upholds (persists_pushed [])).bind
    intro _
    apply Upholds.seq (occasion.Pushed session id.toNat [⟨.top, location⟩])
    · apply upholds_changeScratch fun pass hpass => hpass.reflected
      intro pass scratch hpass hpushed
      obtain ⟨entries, hjournal, hasked, events, hevents, hsub⟩ := hpass.journal
      obtain ⟨before, hbefore, hafter⟩ := Scratch.queue_of_pushEvent hpushed
      cases hevents.symm.trans hbefore
      have hkept := Scratch.triggered_of_pushEvent hpushed
      rw [List.append_nil] at hsub
      exact ⟨hkept ▸ hpass.sized, hkept ▸ hpass.triggered, entries, hjournal, hasked, _, hafter,
        hsub.append (List.Sublist.refl _)⟩
    · intro _
      apply upholds_note
      intro pass hpass
      obtain ⟨entries, hjournal, hasked, events, hevents, hsub⟩ := hpass.journal
      refine ⟨hpass.sized, _ :: entries, congrArg _ hjournal, hasked.cons nofun,
        .inr ⟨hpass.triggered, events, hevents, ?_⟩⟩
      rw [topsOf_cons, JournalEntry.top?, if_pos rfl]
      exact hsub
  apply Upholds.get_bind_at
  intro pass hpass
  apply Upholds.lift_bind fun _ heq => heq ▸ hpass.reflected
  intro isTriggered hcontains
  have hanswer := FlagSet.isOn_of_contains hcontains
  cases isTriggered with
  | false =>
    apply Upholds.bind _ fun _ => hpush _
    exact (upholds_prepare slot).imp fun _ heq => heq ▸ ⟨hpass, hanswer⟩
  | true =>
    apply (hpush _).imp
    rintro _ rfl
    obtain ⟨entries, hjournal, hasked, hwaits⟩ := hpass.journal
    rcases hwaits with ⟨hoff, -⟩ | ⟨hon, events, hevents, hsub⟩
    · exact absurd (hoff.symm.trans hanswer) Bool.false_ne_true
    · refine ⟨hpass.sized, hon, entries, hjournal, hasked, events, hevents, ?_⟩
      rwa [List.append_nil]

theorem upholds_trigger (hapart : occasion.engine.IsApart) (offset : Nat) (id : QueueId) :
    Upholds (occasion.Heeds session queue) (occasion.trigger offset id)
      (occasion.Heeds session queue) (occasion.Reflected session queue) := by
  by_cases hid : id.toNat = queue
  · exact upholds_trigger_self hid offset
  · exact (spares_trigger hid hapart rfl offset).upholds persists_heeds

end Trigger

/-! ## Running the automaton -/

section Finish

/-- The events are all that the automaton was triggered with, and maybe more. -/
def Took (session : Session σ) (queue : Nat) (events : List QueueEvent) (pass : Pass σ) : Prop :=
  ∃ entries, pass.journal = entries ++ session.journal ∧ (topsOf queue entries).Sublist events

/-- The automaton was just run over all that it was triggered with. -/
def JustRan (session : Session σ) (queue : Nat) (full : Bytes) (pass : Pass σ) : Prop :=
  ∃ events before, pass.journal = .executed queue events full true :: before ++ session.journal
    ∧ (topsOf queue before).Sublist events

/-- What waits is all that the automaton was triggered with. -/
theorem Heeds.took {pass : Pass σ} (h : occasion.Heeds session queue pass)
    {events : List QueueEvent} (hevents : pass.scratch.queue queue = .ok events) :
    Took session queue events pass := by
  obtain ⟨entries, hjournal, -, hwaits⟩ := h.journal
  refine ⟨entries, hjournal, ?_⟩
  rcases hwaits with ⟨-, htops⟩ | ⟨-, waiting, hwaiting, hsub⟩
  · exact htops ▸ List.nil_sublist events
  · cases hevents.symm.trans hwaiting
    exact hsub

theorem Heeds.note {pass : Pass σ} (h : occasion.Heeds session queue pass) {entry : JournalEntry}
    (htop : entry.top? queue = none)
    (hentry : ∀ entries, pass.journal = entries ++ session.journal →
      ∀ full short offset, entry = .asked queue full short offset →
        occasion.Reflects session queue full entries) :
    occasion.Heeds session queue { pass with journal := entry :: pass.journal } := by
  obtain ⟨entries, hjournal, hasked, hwaits⟩ := h.journal
  refine ⟨h.sized, entry :: entries, congrArg _ hjournal,
    hasked.cons (hentry entries hjournal), ?_⟩
  rw [topsOf_cons, htop]
  exact (List.append_nil _).symm ▸ hwaits

theorem upholds_askFinal_of_justRan (slot : Slot) (full short : Bytes) :
    Upholds (fun pass => occasion.Heeds session queue pass ∧ JustRan session queue full pass)
      (occasion.askFinal queue slot full short)
      (occasion.Heeds session queue) (occasion.Reflected session queue) := by
  apply Upholds.seq (occasion.Heeds session queue)
  · apply upholds_note
    rintro pass ⟨hpass, events, before, hran, hsub⟩
    apply hpass.note rfl
    rintro entries hjournal _ _ _ ⟨⟩
    have hentries := List.append_cancel_right (hjournal.symm.trans hran)
    exact .inr ⟨events, before, hentries, hsub⟩
  · intro _
    exact (spares_finalReports queue _).upholds persists_heeds

/-- The automaton is run over every event that waits, and asked right after that. -/
theorem upholds_finishSuffix_self :
    Upholds (occasion.Heeds session queue) (occasion.finishSuffix queue)
      (occasion.Heeds session queue) (occasion.Reflected session queue) := by
  have hbroken (pass : Pass σ) (hpass : occasion.Heeds session queue pass) :
      occasion.Reflected session queue pass := hpass.reflected
  apply Upholds.lift_bind hbroken
  intro slot _
  apply Upholds.ite
  · intro _
    exact upholds_pure fun _ hpass => hpass
  intro _
  apply Upholds.seq (occasion.Heeds session queue)
  · apply upholds_changeScratch hbroken
    intro pass scratch hpass hpush
    obtain ⟨entries, hjournal, hasked, hwaits⟩ := hpass.journal
    have hkept := Scratch.triggered_of_pushEvent hpush
    refine ⟨hkept ▸ hpass.sized, entries, hjournal, hasked, ?_⟩
    rcases hwaits with ⟨hoff, htops⟩ | ⟨hon, events, hevents, hsub⟩
    · exact .inl ⟨hkept ▸ hoff, htops⟩
    · obtain ⟨before, hbefore, hafter⟩ := Scratch.queue_of_pushEvent hpush
      cases hevents.symm.trans hbefore
      exact .inr ⟨hkept ▸ hon, _, hafter, hsub.trans (List.sublist_append_left ..)⟩
  intro _
  apply Upholds.get_bind
  intro _
  apply Upholds.lift_bind hbroken
  intro full _
  apply Upholds.read_bind hbroken
  intro events
  have htook : ∀ pass, occasion.Heeds session queue pass ∧ pass.scratch.queue queue = .ok events →
      occasion.Heeds session queue pass ∧ Took session queue events pass :=
    fun pass hpass => ⟨hpass.1, hpass.1.took hpass.2⟩
  apply Upholds.imp _ htook
  have hbroken' (pass : Pass σ)
      (hpass : occasion.Heeds session queue pass ∧ Took session queue events pass) :
      occasion.Reflected session queue pass := hpass.1.reflected
  apply Upholds.lift_bind hbroken'
  rintro ⟨made, alive⟩ _
  apply Upholds.seq fun pass => occasion.Heeds session queue pass ∧ Took session queue events pass
  · apply upholds_changeScratch hbroken'
    rintro pass scratch ⟨hpass, hevents⟩ hset
    obtain ⟨written, rfl⟩ := Scratch.exists_full_of_setFull hset
    exact ⟨⟨hpass.sized, hpass.journal⟩, hevents⟩
  intro _
  apply Upholds.get_bind
  intro _
  apply Upholds.lift_bind hbroken'
  intro full _
  apply Upholds.seq fun pass => occasion.Heeds session queue pass
    ∧ (alive = true → JustRan session queue full pass)
  · apply upholds_note
    rintro pass ⟨hpass, entries, hjournal, hsub⟩
    refine ⟨hpass.note rfl nofun, ?_⟩
    rintro rfl
    exact ⟨events, entries, congrArg _ hjournal, hsub⟩
  intro _
  apply Upholds.ite
  · intro _
    exact upholds_pure fun _ hpass => hpass.1
  · intro halive
    have halive : alive = true := by simpa using halive
    apply Upholds.get_bind
    intro _
    apply Upholds.lift_bind fun pass hpass => hpass.1.reflected
    intro short _
    apply (upholds_askFinal_of_justRan slot full short).imp
    exact fun pass hpass => ⟨hpass.1, hpass.2 halive⟩

theorem upholds_finishSuffixes (hapart : occasion.engine.IsApart) :
    Upholds (occasion.Heeds session queue) occasion.finishSuffixes
      (occasion.Heeds session queue) (occasion.Reflected session queue) := by
  apply Upholds.get_bind
  intro pass
  apply Upholds.lift_bind fun next hnext => hnext.reflected
  intro active _
  apply Upholds.visitAll
  intro other _
  by_cases hother : other = queue
  · subst hother
    exact upholds_finishSuffix_self
  · exact (spares_finishSuffix hother hapart).upholds persists_heeds

end Finish

/-! ## The whole pass -/

section Body

/-- Where the pending matches are forgotten, nothing waits for the automaton. -/
theorem upholds_forget : Upholds (occasion.Unstirred session queue) occasion.forget
    (occasion.Heeds session queue) (occasion.Reflected session queue) := by
  intro pass hpass
  obtain ⟨entries, hjournal, hunstirred, hasked⟩ := hpass.journal
  have htops : topsOf queue (entries ++ []) = [] := topsOf_append hunstirred
  rw [List.append_nil] at htops
  rw [forget_eq]
  exact ⟨FlagSet.isSized_clear hpass.sized, entries, hjournal, hasked,
    .inl ⟨FlagSet.isOn_clear _ queue, htops⟩⟩

variable (hsound : occasion.engine.IsSound) (hapart : occasion.engine.IsApart)
include hsound hapart

theorem upholds_resolveTail {matcher : EndMatcher}
    (hmatcher : occasion.engine.matcher? = some matcher) :
    Upholds (occasion.Unstirred session queue) (occasion.resolveTail matcher)
      (occasion.Reflected session queue) (occasion.Reflected session queue) := by
  have hspares {α : Type} {step : PassM σ α} (hstep : occasion.Spares queue step) :
      Upholds (occasion.Heeds session queue) step (occasion.Heeds session queue)
        (occasion.Reflected session queue) := hstep.upholds persists_heeds
  have hreflected (pass : Pass σ) (hpass : occasion.Heeds session queue pass) :
      occasion.Reflected session queue pass := hpass.reflected
  apply upholds_forget.bind
  intro _
  apply (upholds_scanTail persists_heeds (upholds_trigger hapart) hsound hmatcher).andThen
    hreflected
  apply (hspares (spares_dropLastByteRoles _)).bind
  intro _
  apply (hspares (spares_catchUp _)).bind
  intro _
  apply (hspares spares_walk).andThen hreflected
  exact (upholds_finishSuffixes hapart).imp_post hreflected

variable {groups : Groups} (hevent : ¬occasion.EndTriggers queue groups)
include hevent

omit hsound in
/-- The action of the end leaves alone an automaton that it does not trigger. -/
theorem upholds_runEndEvent_of_not_endTriggers {inv broken : Pass σ → Prop}
    (hinv : occasion.Persists queue inv broken) :
    Upholds (fun pass => inv pass ∧ pass.groups = groups) occasion.runEndEvent inv broken := by
  apply upholds_runEndEvent hinv
  intro id action hid haction hlive suffix hsuffix
  have hne : suffix.toNat ≠ queue :=
    fun heq => hevent ⟨id, action, hid, haction, hlive, suffix, hsuffix, heq⟩
  exact (spares_trigger hne hapart rfl _).upholds hinv

theorem upholds_resolve :
    Upholds (fun pass => occasion.Unstirred session queue pass ∧ pass.groups = groups)
      occasion.resolve (occasion.Reflected session queue) (occasion.Reflected session queue) := by
  have hreflected (pass : Pass σ) (hpass : occasion.Unstirred session queue pass) :
      occasion.Reflected session queue pass := hpass.reflected
  have hwalk : Upholds (occasion.Unstirred session queue) occasion.walk
      (occasion.Unstirred session queue) (occasion.Reflected session queue) :=
    spares_walk.upholds persists_unstirred
  apply (upholds_runEndEvent_of_not_endTriggers hapart hevent persists_unstirred).andThen hreflected
  have hask : Upholds (occasion.Unstirred session queue) occasion.askAllActive
      (occasion.Unstirred session queue) (occasion.Reflected session queue) :=
    Upholds.get_bind fun _ => Upholds.lift_bind hreflected fun _ _ =>
      Upholds.visitAll fun other _ => upholds_askActive hapart other
  apply hask.andThen hreflected
  unfold resolveRoles
  cases hmatcher : occasion.engine.matcher? with
  | some matcher => exact hwalk.andThen hreflected (upholds_resolveTail hsound hapart hmatcher)
  | none =>
    apply Upholds.ite
    · intro _
      exact upholds_pure hreflected
    · intro _
      exact hwalk.imp_post hreflected

end Body

theorem unstirred_start (hsized : session.scratch.triggered.IsSized) :
    occasion.Unstirred session queue (occasion.start session) :=
  ⟨FlagSet.isSized_clear hsized, fun _ => rfl, [], rfl, nofun, allReflect_nil⟩

theorem spares_settleFirst : occasion.Spares queue occasion.settleFirst := by
  unfold settleFirst
  cases occasion.mode with
  | block => exact spares_settleBuffer
  | streaming => exact spares_pure ()

theorem reflected_body (hsound : occasion.engine.IsSound) (hapart : occasion.engine.IsApart)
    (hsized : session.scratch.triggered.IsSized)
    (hevent : ¬occasion.EndTriggers queue session.stream.groups) :
    occasion.Reflected session queue (after (occasion.body (occasion.start session))) := by
  have hsettle : Upholds (· = occasion.start session) occasion.settleFirst
      (fun pass => occasion.Unstirred session queue pass ∧ pass.groups = session.stream.groups)
      (occasion.Reflected session queue) := by
    apply Upholds.and_of_ok
    · apply (spares_settleFirst.upholds persists_unstirred).imp
      rintro _ rfl
      exact unstirred_start hsized
    · rintro _ _ _ rfl hrun
      exact (sameDelayed_settleFirst hrun).2
  rw [body_eq_resolve]
  exact (hsettle.bind fun _ => upholds_resolve hsound hapart hevent).of_after rfl fun _ h => h

/-! ## What was active before -/

/-- An active automaton that accepts at the end is asked with the full state that a whole buffer has
left, or else with one that was expanded anew. -/
theorem exists_asked_of_askActive {slot : Slot} (hslot : occasion.engine.slots[queue]? = some slot)
    (haccepts : slot.automaton.acceptsEnd = true) {pass next : Pass σ} {control : Control}
    (h : occasion.askActive queue pass = .ok control next) :
    ∃ entries full short, next.journal = entries ++ pass.journal
      ∧ .asked queue full short occasion.offset ∈ entries
      ∧ (occasion.mode = .block → pass.scratch.fullOf occasion.engine queue = .ok full) := by
  obtain ⟨found, hfound, h⟩ := exists_of_lift_bind h
  cases (Engine.slot_eq_ok hslot).symm.trans hfound
  rw [if_neg (by simp [haccepts])] at h
  obtain ⟨_, _, hget, h⟩ := exists_of_bind h
  cases hget
  obtain ⟨_, -, h⟩ := exists_of_lift_bind h
  obtain ⟨_, _, hget, h⟩ := exists_of_bind h
  cases hget
  obtain ⟨short, -, h⟩ := exists_of_lift_bind h
  have hask {middle : Pass σ} (h : (do
      let full ← (← get).scratch.fullOf occasion.engine queue
      occasion.askFinal queue slot full short : PassM σ Control) middle = .ok control next) :
      ∃ entries full, next.journal
          = entries ++ .asked queue full short occasion.offset :: middle.journal
        ∧ middle.scratch.fullOf occasion.engine queue = .ok full := by
    obtain ⟨_, _, hget, h⟩ := exists_of_bind h
    cases hget
    obtain ⟨full, hfull, h⟩ := exists_of_lift_bind h
    obtain ⟨_, noted, hnote, h⟩ := exists_of_bind h
    cases hnote
    obtain ⟨_, told, hconverse, h⟩ := exists_of_bind h
    cases h
    have haside : Keeps (Pass.Aside occasion fun _ => False)
        (occasion.converse queue (slot.automaton.finalReports full short occasion.offset)) :=
      aside_converse queue _
    obtain ⟨entries, hjournal, -⟩ := (haside hconverse).journal
    exact ⟨entries, full, hjournal, hfull⟩
  by_cases hmode : occasion.mode = .streaming
  · rw [if_pos hmode] at h
    obtain ⟨_, expanded, hexpand, h⟩ := exists_of_bind h
    have haside : Keeps (Pass.Aside occasion fun _ => False) (occasion.expand queue slot) :=
      aside_expand queue slot
    obtain ⟨first, hfirst, -⟩ := (haside hexpand).journal
    obtain ⟨entries, full, hjournal, -⟩ := hask h
    refine ⟨entries ++ .asked queue full short occasion.offset :: first, full, short, ?_, ?_, ?_⟩
    · rw [hjournal, hfirst, List.append_assoc]
      rfl
    · exact List.mem_append_right _ List.mem_cons_self
    · intro hblock
      cases hmode.symm.trans hblock
  · rw [if_neg hmode] at h
    obtain ⟨entries, full, hjournal, hfull⟩ := hask h
    refine ⟨entries ++ [.asked queue full short occasion.offset], full, short, ?_, ?_, ?_⟩
    · rw [hjournal, List.append_assoc]
      rfl
    · exact List.mem_concat_self
    · exact fun _ => hfull

theorem exists_firstWalk {walked : Pass σ}
    (h : occasion.opening (occasion.start session) = .ok .proceed walked) :
    ∃ settled ran asked, occasion.FirstWalk session settled ran asked := by
  obtain ⟨_, settled, hsettle, h⟩ := exists_of_bind h
  obtain ⟨ran, hrun, h⟩ := exists_of_andThen h
  obtain ⟨asked, hask, -⟩ := exists_of_andThen h
  exact ⟨settled, ran, asked, hsettle, hrun, hask⟩

section FirstWalk

variable (hapart : occasion.engine.IsApart) (hsized : session.scratch.triggered.IsSized)
  (hevent : ¬occasion.EndTriggers queue session.stream.groups) {settled ran asked : Pass σ}
include hapart hsized hevent

theorem FirstWalk.exists_asked (h : occasion.FirstWalk session settled ran asked)
    (hactive : session.stream.leaves.isOn queue = true) {slot : Slot}
    (hslot : occasion.engine.slots[queue]? = some slot)
    (haccepts : slot.automaton.acceptsEnd = true) :
    ∃ entries full short, asked.journal = entries ++ ran.journal
      ∧ .asked queue full short occasion.offset ∈ entries
      ∧ (occasion.mode = .block → session.scratch.fullOf occasion.engine queue = .ok full) := by
  have hsettled : Pass.Around occasion.engine queue (occasion.start session) settled :=
    (spares_settleFirst _).of_eq (.refl _) h.settle
  have hran : Pass.Around occasion.engine queue (occasion.start session) ran :=
    (upholds_runEndEvent_of_not_endTriggers hapart hevent (persists_around _)).of_eq
      ⟨hsettled, (sameDelayed_settleFirst h.settle).2⟩ h.run
  have hunstirred := persists_unstirred.around hran (unstirred_start hsized)
  -- The automaton is still active, so that the walk over the active ones comes to it.
  have hmem := FlagSet.mem_toList_iff.2 (hran.active hactive)
  obtain ⟨first, rest, hmembers⟩ := List.append_of_mem hmem
  obtain ⟨_, _, hget, hask⟩ := exists_of_bind h.ask
  cases hget
  obtain ⟨active, hactive, hask⟩ := exists_of_lift_bind hask
  rw [FlagSet.eq_toList_of_members hactive, hmembers, Control.visitAll_append] at hask
  obtain ⟨before, hbefore, hask⟩ := exists_of_andThen hask
  obtain ⟨next, hnext, hrest⟩ := exists_of_andThen hask
  have hfirst : Upholds (occasion.Unstirred session queue)
      (Control.visitAll occasion.askActive first)
      (occasion.Unstirred session queue) (occasion.Reflected session queue) :=
    Upholds.visitAll fun other _ => upholds_askActive hapart other
  have haside (queues : List Nat) : Keeps (Pass.Aside occasion fun _ => False)
      (Control.visitAll occasion.askActive queues) :=
    Keeps.visitAll fun other _ => aside_askActive other
  obtain ⟨earlier, hearlier, -⟩ := (haside first hbefore).journal
  obtain ⟨later, hlater, -⟩ := (haside rest hrest).journal
  obtain ⟨entries, full, short, hjournal, hasked, hfull⟩ :=
    exists_asked_of_askActive hslot haccepts hnext
  refine ⟨later ++ entries ++ earlier, full, short, ?_, ?_, fun hmode => ?_⟩
  · rw [hlater, hjournal, hearlier, List.append_assoc, List.append_assoc]
  · exact List.mem_append_left _ (List.mem_append_right _ hasked)
  · exact ((hfirst.of_eq hunstirred hbefore).full hmode).symm.trans (hfull hmode)

end FirstWalk

/-! ## The state in which an automaton is asked -/

/-- Whenever a pass asks an automaton that the action of the end does not trigger, the automaton has
been run over every event that it was triggered with in this pass; or there was none, it was not
run, and at the end of a whole buffer its full state is as it was left in the working space. In
either mode, an automaton that was active before and accepts at the end is asked before the first
walk, in a whole buffer with that full state. -/
theorem reflects_of_built {plan : Plan} (hbuild : plan.build = .ok occasion.engine)
    (hsized : session.scratch.triggered.IsSized)
    (hevent : ¬occasion.EndTriggers queue session.stream.groups) :
    (∃ entries, (Outcome.of (occasion.perform session)).journal = entries ++ session.journal
      ∧ occasion.AllReflect session queue entries)
    ∧ ∀ settled ran asked, occasion.FirstWalk session settled ran asked →
      session.stream.leaves.isOn queue = true →
      ∀ slot, occasion.engine.slots[queue]? = some slot → slot.automaton.acceptsEnd = true →
      ∃ entries full short, asked.journal = entries ++ ran.journal
        ∧ .asked queue full short occasion.offset ∈ entries
        ∧ (occasion.mode = .block → session.scratch.fullOf occasion.engine queue = .ok full) := by
  have hsound := Plan.isSound_of_build hbuild
  have hapart := Plan.isApart_of_build hbuild
  constructor
  · rcases occasion.perform_cases session with hidle | ⟨fault, hsize⟩ | hbody
    · rw [show occasion.perform session = _ from hidle session.scratch]
      exact ⟨[], rfl, allReflect_nil⟩
    · rw [show occasion.perform session = _ from hsize session.scratch]
      exact ⟨[], rfl, allReflect_nil⟩
    · rw [show occasion.perform session = _ from hbody session.scratch]
      have hreflected : occasion.Reflected session queue _ :=
        reflected_body hsound hapart hsized hevent
      cases hresult : occasion.body (occasion.start session) with
      | ok control pass =>
        rw [hresult] at hreflected
        exact hreflected
      | error fault pass =>
        rw [hresult] at hreflected
        exact hreflected
  · intro settled ran asked hwalk hactive slot hslot haccepts
    exact hwalk.exists_asked hapart hsized hevent hactive hslot haccepts

/-- The end of `ab` as a whole buffer, after the automaton was active and left latched: the action
of the end only reports, and the `b` triggers the automaton in the scan of the last bytes. -/
theorem reflects_of_built_latched :
    ∃ engine scratch, (Plan.sampleWith (some (.wrap 7)) none).build = .ok engine
      ∧ Scratch.fresh engine = .ok scratch
      ∧ let occasion := Plan.sampleOccasion engine .block fun reports _ id =>
          (.proceed, id :: reports)
        let stream := { StreamState.initial engine with leaves := ⟨1, [1]⟩ }
        let session : Session (List ReportId) := ⟨stream, { scratch with full := #[1] }, [], []⟩
        scratch.triggered.IsSized ∧ ¬occasion.EndTriggers 0 stream.groups
        ∧ (∃ entries, (Outcome.of (occasion.perform session)).journal = entries ++ []
          ∧ occasion.AllReflect session 0 entries)
        ∧ ∃ settled ran asked, occasion.FirstWalk session settled ran asked
          ∧ ∃ entries full short, asked.journal = entries ++ ran.journal
            ∧ .asked 0 full short 5 ∈ entries ∧ session.scratch.fullOf engine 0 = .ok full := by
  have hactions : ∀ id, some (.wrap 7) = some id →
      (Plan.sample.actions.find? id).isSome = true := by
    rintro id ⟨⟩
    decide
  have hon : (⟨1, [1]⟩ : FlagSet).isOn 0 = true := by decide
  obtain ⟨engine, hbuild⟩ := @Plan.exists_build_sampleWith _ none hactions
  obtain ⟨-, -, -, -, matcher?, -, -, rfl⟩ := Plan.build_eq_ok_iff.1 hbuild
  refine ⟨_, _, hbuild, rfl, ?_⟩
  intro occasion stream session
  have hfresh : Scratch.fresh occasion.engine = .ok { session.scratch with full := #[0] } := rfl
  have hinitial := @Session.suited_initial (List ReportId) _ _ _ [] [] hbuild (by decide) hfresh
  have hsized : session.scratch.triggered.IsSized := hinitial.scratch.triggered_sized
  have hevent : ¬occasion.EndTriggers 0 stream.groups := by
    rintro ⟨id, action, ⟨⟩, haction, -, suffix, hsuffix, -⟩
    cases haction
    cases hsuffix
  obtain ⟨hreflects, hactive⟩ := @reflects_of_built _ occasion session 0 _ hbuild hsized hevent
  have hsuited : session.Suited occasion.engine :=
    { stream := { hinitial.stream with leaves := rfl, leaves_sized := show 1 = (1 + 63) / 64 by decide }
      scratch := { hinitial.scratch with full := rfl } }
  have hsize : occasion.data.size ≤ occasion.offset := show 2 ≤ 5 by decide
  obtain ⟨_, hperform⟩ := @exists_perform_eq_proceed _ occasion _ _ hbuild (fun _ _ _ => rfl)
    hsize hsuited Plan.isSafe_and_isHonest_sample
  obtain ⟨matcher, hmatcher, -⟩ := Plan.exists_serves_of_build hbuild rfl
  obtain ⟨walked, last, hopening, -⟩ :=
    exists_opening hmatcher rfl hsize hperform
  obtain ⟨settled, ran, asked, hwalk⟩ := exists_firstWalk hopening
  obtain ⟨entries, full, short, hjournal, hasked, hfull⟩ :=
    hactive settled ran asked hwalk hon _ rfl rfl
  exact ⟨hsized, hevent, hreflects, settled, ran, asked, hwalk, entries, full, short, hjournal,
    hasked, hfull rfl⟩

/-- The action of the end triggers the automaton. In a stream the automaton is asked while its event
still waits, and is never run; in a whole buffer the trigger has also unlatched it, which was
latched when the scan of the buffer left it. -/
theorem exists_asked_unrun :
    ∃ engine scratch, Plan.sample.build = .ok engine ∧ Scratch.fresh engine = .ok scratch
      ∧ let stream := { StreamState.initial engine with leaves := ⟨1, [1]⟩ }
        let latched : Session (List ReportId) := ⟨stream, { scratch with full := #[1] }, [], []⟩
        let occasion (mode : Mode) : Occasion (List ReportId) :=
          { engine, mode, data := #[99], offset := 1,
            callback := fun reports _ id => (.proceed, id :: reports) }
        let triggered (location : Int64) : List JournalEntry :=
          [.triggered 0 location, .prepared 0 #[0], .report 1 (.wrap 2) .proceed,
            .acted 1 (.wrap 8)]
        let fired : List JournalEntry := [.report 1 (.wrap 3) .proceed, .fired (.wrap 0)]
        (Outcome.of ((occasion .streaming).perform ⟨.initial engine, scratch, [], []⟩)).journal
            = fired ++ .asked 0 #[0] #[0] 1 :: .expanded 0 #[0] 1 99 #[0] :: triggered 0
          ∧ topsOf 0 (triggered 0) = [⟨.top, 0⟩]
          ∧ latched.scratch.fullOf engine 0 = .ok #[1]
          ∧ (Outcome.of ((occasion .block).perform latched)).journal
            = fired ++ .asked 0 #[0] #[0] 1 :: triggered 1 := by
  obtain ⟨engine, hbuild⟩ := Plan.exists_build_sample
  obtain ⟨matcher, hmatcher, hregion, hserves⟩ := Plan.exists_serves_of_build hbuild rfl
  obtain ⟨-, -, -, -, matcher?, -, -, rfl⟩ := Plan.build_eq_ok_iff.1 hbuild
  refine ⟨_, _, hbuild, rfl, ?_⟩
  intro stream latched occasion triggered fired
  have hinput (mode : Mode) : (occasion mode).tailInput matcher = { buffer := #[99] } := by
    rw [tailInput, hregion]
    rfl
  have hidle (mode : Mode) : (occasion mode).isIdle = false := rfl
  have hsize (mode : Mode) : (occasion mode).data.size ≤ (occasion mode).offset :=
    show 1 ≤ 1 by decide
  refine ⟨?_, rfl, rfl, ?_⟩
  · rw [perform_eq_closed (hidle _) (hsize _), body_eq_opening hmatcher]
    unfold resolveTail
    rw [scanTail_eq_naive hserves, hserves.2.2, hinput]
    cbv
  · rw [perform_eq_closed (hidle _) (hsize _), body_eq_opening hmatcher]
    unfold resolveTail
    rw [scanTail_eq_naive hserves, hserves.2.2, hinput]
    cbv

end Occasion

end Multimatch
