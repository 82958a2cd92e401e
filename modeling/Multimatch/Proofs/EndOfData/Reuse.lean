import Multimatch.Proofs.EndOfData.Halt
import Multimatch.Proofs.EndOfData.Matched

/-!
# Working space can be used again

Nothing that earlier calls left in the working space shows: markers, events, waiting actions and
enabled triggers are each made harmless where a pass starts or an automaton is first triggered. So
two passes over the same stream that differ only in their working space have the same outcome
(`Occasion.outcome_of_used`). Only the scan of a whole buffer hands something over, the full states
of the automata.
-/

namespace Multimatch

open PassM

/-! ## Steps that depend on the mode -/

namespace Occasion

variable {σ : Type} {occasion : Occasion σ} {link : Link} {stage : Stage}

/-- Expanding writes over the full state, once the short state is read. -/
theorem expand_eq {pass : Pass σ} (hsound : occasion.engine.IsSound)
    (hsuited : pass.scratch.Suited occasion.engine) {queue : Nat} {slot : Slot}
    (hslot : occasion.engine.slots[queue]? = some slot) {short : Bytes}
    (hshort : pass.stream.storedOf occasion.engine queue = .ok short) :
    occasion.expand queue slot pass
      = occasion.overwrite queue (.expanded queue short occasion.offset occasion.lastKey)
        (slot.automaton.expand (pass.scratch.full.extract slot.fullStart slot.fullStop) short
          occasion.offset occasion.lastKey) pass :=
  (bind_eq (lift_eq (hsuited.fullOf_eq hsound hslot))).trans (bind_eq (lift_eq hshort))

theorem expand_eq_error {pass : Pass σ} (hsound : occasion.engine.IsSound)
    (hsuited : pass.scratch.Suited occasion.engine) {queue : Nat} {slot : Slot}
    (hslot : occasion.engine.slots[queue]? = some slot) {fault : Fault}
    (hshort : pass.stream.storedOf occasion.engine queue = .error fault) :
    occasion.expand queue slot pass = .error fault pass :=
  (bind_eq (lift_eq (hsuited.fullOf_eq hsound hslot))).trans (bind_eq_error (lift_eq_error hshort))

/-- Two passes have the same full state for a queue. -/
def SameFull (occasion : Occasion σ) (queue : Nat) (p q : Pass σ) : Prop :=
  p.scratch.fullOf occasion.engine queue = q.scratch.fullOf occasion.engine queue

/-- After an automaton was expanded, its full state is the same, be it that it was not triggered. -/
theorem agree_expand (hsound : occasion.engine.IsSound) {queue : Nat} {slot : Slot}
    (hslot : occasion.engine.slots[queue]? = some slot)
    (hexpands : link.whole ∨ slot.automaton.ExpandsAnew) {p q : Pass σ}
    (htwins : Pass.Twins occasion.engine link stage p q) :
    Agree (Pass.Stopped occasion.engine link)
      (fun p q => Pass.Twins occasion.engine link stage p q ∧ occasion.SameFull queue p q)
      (occasion.expand queue slot p) (occasion.expand queue slot q) := by
  have hscratch := htwins.scratch
  have hstored := StreamState.storedOf_congr htwins.stored occasion.engine queue
  cases hshort : p.stream.storedOf occasion.engine queue with
  | error fault =>
    rw [expand_eq_error hsound hscratch.left hslot hshort,
      expand_eq_error hsound hscratch.right hslot (hstored ▸ hshort)]
    exact .error htwins.stopped
  | ok short =>
    rw [expand_eq hsound hscratch.left hslot hshort,
      expand_eq hsound hscratch.right hslot (hstored ▸ hshort)]
    have hmake := hexpands.imp_right fun hanew =>
      hanew short occasion.offset occasion.lastKey
        (size_of_storedOf (Engine.slot_eq_ok hslot) hshort)
    rcases hscratch.made_cases hsound hslot hmake with
      ⟨fault, hp, hq⟩ | ⟨made, made', hp, hq, hmade⟩
    · rw [hp, hq]
      exact .error htwins.stopped
    · have hwritten := hscratch.written hsound hslot hmade
      have hequal := hscratch.extract_written_eq hsound hslot hmade
      rw [hp, hq, overwrite_eq_ok occasion hsound hscratch.left hslot,
        overwrite_eq_ok occasion hsound hscratch.right hslot, hequal]
      refine .ok ⟨{ htwins with
        scratch := hwritten
        journal := htwins.journal_cons
          (.expanded queue short occasion.offset occasion.lastKey _) }, ?_⟩
      show Scratch.fullOf _ _ _ = Scratch.fullOf _ _ _
      rw [hwritten.left.fullOf_eq hsound hslot, hwritten.right.fullOf_eq hsound hslot, hequal]

/-- The full states of active automata are the same, or they are expanded before they are read. -/
def ReadsAlike (occasion : Occasion σ) (link : Link) : Prop :=
  link.whole ∨ (occasion.mode = .streaming
    ∧ ∀ slot ∈ occasion.engine.slots, slot.automaton.ExpandsAnew)

section Steps

variable (h : occasion.Compares occasion.mode link) (hreads : occasion.ReadsAlike link)
include h hreads

theorem matched_askActive (queue : Nat) :
    Matched occasion.engine link stage stage (occasion.askActive queue)
      (occasion.askActive queue) := by
  refine Matched.lift_bind fun slot hslot => ?_
  have hslot := elementAt_eq_ok_iff.1 hslot
  have hmem := List.mem_of_getElem? hslot
  refine Matched.ite (matched_pure _) (Matched.get_bind_at fun p q htwins => ?_)
  rw [bind_eq (lift_eq (htwins.scratch.left.fullOf_eq h.engine hslot)),
    bind_eq (lift_eq (htwins.scratch.right.fullOf_eq h.engine hslot))]
  refine Matched.get_bind (fun p q htwins => ?_) htwins
  rw [StreamState.storedOf_congr htwins.stored]
  refine Matched.lift_bind fun short _ => ?_
  let ask : PassM σ Control := do
    let full ← (← get).scratch.fullOf occasion.engine queue
    occasion.askFinal queue slot full short
  have hask (p q : Pass σ) (htwins : Pass.Twins occasion.engine link stage p q)
      (hfull : occasion.SameFull queue p q) :
      Agree (Pass.Stopped occasion.engine link) (Pass.Twins occasion.engine link stage) (ask p)
        (ask q) := by
    have hread := htwins.scratch.left.fullOf_eq h.engine hslot
    have hleft : ask p = occasion.askFinal queue slot _ short p := bind_eq (lift_eq hread)
    have hright : ask q = occasion.askFinal queue slot _ short q :=
      bind_eq (lift_eq (hfull.symm.trans hread))
    rw [hleft, hright]
    exact matched_askFinal h.calls queue slot _ short htwins
  refine Matched.ite_cases (fun _ p q htwins => ?_) fun hmode p q htwins => ?_
  · have hexpands := hreads.imp_right fun hanew => hanew.2 slot hmem
    exact (agree_expand h.engine hslot hexpands htwins).bind fun _ p q hnext =>
      hask p q hnext.1 hnext.2
  · have hwhole := hreads.resolve_right fun hanew => hmode hanew.1
    exact hask p q htwins (htwins.scratch.fullOf_eq h.engine hslot (.inl hwhole))

theorem matched_resolve (hnear : stage.near) (hcaught : stage.caught) :
    Matched occasion.engine link stage Stage.last occasion.resolve occasion.resolve := by
  have hask : Matched occasion.engine link stage stage occasion.askAllActive
      occasion.askAllActive := by
    refine Matched.get_bind fun p q htwins => ?_
    rw [(htwins.near hnear).2]
    exact Matched.lift_bind fun _ _ => Matched.visitAll fun queue _ =>
      matched_askActive h hreads queue
  refine (matched_runEndEvent h).andThen_of_le (Stage.last_le hnear) ?_
  refine hask.andThen_of_le (Stage.last_le hnear) ?_
  exact matched_resolveRoles h hnear fun _ _ => .inl hcaught

theorem matched_body (hnear : stage.near) (hcaught : stage.caught) :
    Matched occasion.engine link stage Stage.last occasion.body occasion.body := by
  have hresolve : Matched occasion.engine link stage Stage.last occasion.resolve
      occasion.resolve := matched_resolve h hreads hnear hcaught
  have hmove : Matched occasion.engine link stage stage
      (modify fun pass : Pass σ => { pass with lastEnd := occasion.offset })
      (modify fun pass : Pass σ => { pass with lastEnd := occasion.offset }) :=
    matched_modify fun p q htwins => { htwins with lastEnd := rfl }
  unfold body
  cases occasion.mode with
  | streaming => exact hresolve
  | block =>
    refine Matched.bind ((matched_dropLastByteRoles _).bind fun _ => hmove.bind fun _ => ?_)
      fun _ => hresolve
    exact Matched.ite (matched_catchUp hcaught _) (matched_pure ())

end Steps

end Occasion

/-! ## Outcomes -/

/-- What a pass leaves apart from its working space: its answer, the stream, the caller, and
everything that left the library. -/
structure Outcome (σ : Type) where
  answer : Except Fault Control
  stream : StreamState
  caller : σ
  journal : List JournalEntry

/-- The outcome of a result. -/
def Outcome.of {σ : Type} : EStateM.Result Fault (Session σ) Control → Outcome σ
  | .ok control session => ⟨.ok control, session.stream, session.caller, session.journal⟩
  | .error fault session => ⟨.error fault, session.stream, session.caller, session.journal⟩

/-- A result without what only the steps of a pass share. -/
def PassM.closed {σ : Type} :
    EStateM.Result Fault (Pass σ) Control → EStateM.Result Fault (Session σ) Control
  | .ok control pass => .ok control pass.toSession
  | .error fault pass => .error fault pass.toSession

/-- The session in which a result ended. -/
def Session.ended {σ : Type} : EStateM.Result Fault (Session σ) Control → Session σ
  | .ok _ session | .error _ session => session

namespace Occasion

variable {σ : Type} {occasion : Occasion σ} {a b : Scratch} {stream : StreamState} {caller : σ}
  {journal : List JournalEntry}

/-- Two passes over the same stream, of which the full states are the same if that is said. -/
def reuseLink (journal : List JournalEntry) (whole : Prop) : Link where
  same := True
  whole := whole
  distance := 0
  first := journal
  second := journal

/-- Where a pass starts, nothing was triggered and nothing waits. -/
theorem twins_start {whole : Prop} {distance : Int64} (ha : a.Suited occasion.engine)
    (hb : b.Suited occasion.engine) (hfull : whole → a.full = b.full) (groups : Groups) :
    Scratch.Twins occasion.engine whole distance
      { a with
        triggered := a.triggered.clear
        delayed := []
        enabled := occasion.enabledTriggers groups a.enabled }
      { b with
        triggered := b.triggered.clear
        delayed := []
        enabled := occasion.enabledTriggers groups b.enabled } :=
  have hleft : { a with delayed := [] : Scratch }.Suited occasion.engine := { ha with }
  have hright : { b with delayed := [] : Scratch }.Suited occasion.engine := { hb with }
  twins_cleared hleft hright rfl (fun hwhole _ => by rw [hfull hwhole]) groups

theorem shown_reuse {whole : Prop} {p q : Pass σ} (h : Pass.Shown (reuseLink journal whole) p q) :
    p.stream = q.stream ∧ p.caller = q.caller ∧ p.journal = q.journal := by
  obtain ⟨entries, hfirst, hsecond⟩ := h.exists_entries rfl
  exact ⟨(h.same trivial).1, (h.same trivial).2, hfirst.trans hsecond.symm⟩

/-- Two passes over the same stream end alike, whatever their working space has been used for. -/
theorem agree_reuse {whole : Prop} (hsound : occasion.engine.IsSound)
    (hprepares : whole ∨ ∀ slot ∈ occasion.engine.slots, slot.automaton.PreparesAnew)
    (hreads : occasion.ReadsAlike (reuseLink journal whole)) (ha : a.Suited occasion.engine)
    (hb : b.Suited occasion.engine) (hfull : whole → a.full = b.full) :
    Agree (Pass.Stopped occasion.engine (reuseLink journal whole))
      (Pass.Twins occasion.engine (reuseLink journal whole) Stage.last)
      (occasion.body (occasion.start ⟨stream, a, caller, journal⟩))
      (occasion.body (occasion.start ⟨stream, b, caller, journal⟩)) := by
  have hcompares : occasion.Compares occasion.mode (reuseLink journal whole) :=
    { engine := hsound
      start := Int64.add_zero _
      length := (Int64.add_zero _).symm
      calls := .inl trivial
      prepares := hprepares
      run := fun slot _ => slot.automaton.ignoresStart_zero }
  have htwins : Pass.Twins occasion.engine (reuseLink journal whole)
      { Stage.last with caught := True }
      (occasion.start ⟨stream, a, caller, journal⟩)
      (occasion.start ⟨stream, b, caller, journal⟩) :=
    { same := fun _ => ⟨rfl, rfl⟩
      journal := ⟨[], rfl, rfl⟩
      roles := .refl _
      leaves := .refl _
      near := fun _ => ⟨rfl, rfl⟩
      stored := rfl
      halted := rfl
      groups := rfl
      lastEnd := rfl
      caughtUpTo := fun _ => rfl
      scratch := twins_start ha hb hfull _
      heard := False.elim
      marked := False.elim
      triggered := fun _ => False.elim }
  exact matched_body hcompares hreads trivial trivial htwins

/-- A pass that begins ends with what its body ends with. -/
theorem perform_eq_closed {session : Session σ} (hidle : occasion.isIdle = false)
    (hsize : occasion.data.size ≤ occasion.offset) :
    occasion.perform session = closed (occasion.body (occasion.start session)) := by
  refine (if_neg (Bool.eq_false_iff.1 hidle)).trans ((if_neg (Nat.not_lt.2 hsize)).trans ?_)
  cases occasion.body (occasion.start session) with
  | ok control pass => rfl
  | error fault pass => rfl

/-- What a pass ends with, if it begins: nothing, or what its body ends with. -/
theorem perform_cases (session : Session σ) :
    (∀ scratch, occasion.perform { session with scratch }
        = .ok .proceed { session with scratch })
      ∨ (∃ fault, ∀ scratch, occasion.perform { session with scratch }
        = .error fault { session with scratch })
      ∨ ∀ scratch, occasion.perform { session with scratch }
        = closed (occasion.body (occasion.start { session with scratch })) := by
  by_cases hidle : occasion.isIdle = true
  · exact .inl fun scratch => if_pos hidle
  · by_cases hsize : occasion.offset < occasion.data.size
    · exact .inr (.inl ⟨_, fun scratch => (if_neg hidle).trans (if_pos hsize)⟩)
    · have hidle := Bool.eq_false_iff.2 hidle
      exact .inr (.inr fun scratch => perform_eq_closed hidle (Nat.le_of_not_lt hsize))

/-- A pass leaves working space as the engine needs it. -/
theorem suited_of_perform (hsound : occasion.engine.IsSound) {session : Session σ}
    (hsuited : session.scratch.Suited occasion.engine) :
    (Session.ended (occasion.perform session)).scratch.Suited occasion.engine := by
  rcases occasion.perform_cases session with hidle | ⟨fault, hsize⟩ | hbody
  · rw [show occasion.perform session = _ from hidle session.scratch]
    exact hsuited
  · rw [show occasion.perform session = _ from hsize session.scratch]
    exact hsuited
  · rw [show occasion.perform session = _ from hbody session.scratch]
    have hagree : Agree _ _ (occasion.body (occasion.start session))
        (occasion.body (occasion.start session)) :=
      agree_reuse hsound (.inl trivial) (.inl trivial) hsuited hsuited fun _ => rfl
    generalize occasion.body (occasion.start session) = first at hagree ⊢
    cases hagree with
    | ok hnext => exact hnext.scratch.left
    | error hstopped => exact hstopped.left

end Occasion

/-! ## Working space that has been used -/

theorem Mode.streaming_of_ne_block {mode : Mode} (h : mode ≠ .block) : mode = .streaming := by
  cases mode with
  | block => exact absurd rfl h
  | streaming => rfl

namespace Scratch

variable {engine : Engine} {scratch : Scratch}

/-- The working space was made for the engine, be it from that of another one, and has been used
with it ever since. -/
inductive IsUsed (engine : Engine) : Scratch → Prop where
  | fresh {scratch : Scratch} (run : Scratch.fresh engine = .ok scratch) : IsUsed engine scratch
  | reset {old scratch : Scratch} (run : old.reset engine = .ok scratch) : IsUsed engine scratch
  /-- The scan of a whole buffer has left other full states. -/
  | filled {scratch : Scratch} (before : IsUsed engine scratch) {full : Bytes}
      (size : full.size = scratch.full.size) : IsUsed engine { scratch with full }
  /-- A pass was performed, over any stream and for any caller, with an answer or a fault. -/
  | performed {σ : Type} {occasion : Occasion σ} {session : Session σ}
      (before : IsUsed engine session.scratch) (same : occasion.engine = engine) :
      IsUsed engine (Session.ended (occasion.perform session)).scratch

section Suited

variable (hsound : engine.IsSound)
include hsound

theorem suited_of_reset {old : Scratch} (run : old.reset engine = .ok scratch) :
    scratch.Suited engine := by
  obtain ⟨handled, hhandled, hcapacity, rfl⟩ := exists_markers_of_reset run
  exact suited_withMarkers hsound hhandled hcapacity

theorem suited_of_fresh (run : Scratch.fresh engine = .ok scratch) : scratch.Suited engine := by
  obtain ⟨handled, hhandled, hcapacity, rfl⟩ := exists_markers_of_fresh run
  exact suited_withMarkers hsound hhandled hcapacity

theorem IsUsed.suited (h : scratch.IsUsed engine) : scratch.Suited engine := by
  induction h with
  | fresh run => exact suited_of_fresh hsound run
  | reset run => exact suited_of_reset hsound run
  | filled before size ih => exact { ih with full := size.trans ih.full }
  | performed before same ih =>
    cases same
    exact Occasion.suited_of_perform hsound ih

end Suited

/-- Working space can be made ready for an engine exactly if it can be made for it, with the same
full states. -/
theorem reset_cases (old : Scratch) (engine : Engine) :
    (∃ fault, old.reset engine = .error fault ∧ Scratch.fresh engine = .error fault)
      ∨ ∃ a b, old.reset engine = .ok a ∧ Scratch.fresh engine = .ok b ∧ a.full = b.full := by
  unfold Scratch.reset Scratch.fresh MarkerSet.empty MarkerSet.resize
  by_cases hfits : engine.roles.length ≤ MarkerSet.maxCapacity
  · rw [if_pos hfits, if_pos hfits]
    exact .inr ⟨_, _, rfl, rfl, rfl⟩
  · rw [if_neg hfits, if_neg hfits]
    exact .inl ⟨_, rfl, rfl⟩

end Scratch

theorem Plan.exists_fresh_sample {engine : Engine} (hbuild : sample.build = .ok engine) :
    ∃ scratch, Scratch.fresh engine = .ok scratch ∧ scratch.full = #[0] := by
  obtain ⟨-, ⟨scratch, hfresh, -⟩, -⟩ := makesFitting_of_build hbuild
  obtain ⟨-, -, -, -, matcher?, -, -, hengine⟩ := build_eq_ok_iff.1 hbuild
  obtain ⟨handled, -, -, hnext⟩ := Scratch.exists_markers_of_fresh hfresh
  refine ⟨scratch, hfresh, ?_⟩
  rw [hnext, hengine]
  rfl

namespace Occasion

variable {σ : Type} {occasion : Occasion σ} {plan : Plan} {stream : StreamState} {caller : σ}
  {journal : List JournalEntry}

/-- Two passes over the same stream have the same outcome, if automata write their full states anew,
and where the data is a whole buffer the full states are the same. -/
theorem outcome_eq_of_suited (hbuild : plan.build = .ok occasion.engine)
    (hprepares : ∀ automaton ∈ plan.automata, automaton.PreparesAnew)
    (hexpands : ∀ automaton ∈ plan.automata, automaton.ExpandsAnew) {a b : Scratch}
    (ha : a.Suited occasion.engine) (hb : b.Suited occasion.engine)
    (hfull : occasion.mode = .block → a.full = b.full) :
    Outcome.of (occasion.perform ⟨stream, a, caller, journal⟩)
      = Outcome.of (occasion.perform ⟨stream, b, caller, journal⟩) := by
  rcases occasion.perform_cases ⟨stream, a, caller, journal⟩ with hidle | ⟨fault, hsize⟩ | hbody
  · rw [hidle a, hidle b]
    rfl
  · rw [hsize a, hsize b]
    rfl
  · rw [hbody a, hbody b]
    have hslots {property : Automaton → Prop} (h : ∀ automaton ∈ plan.automata, property automaton)
        (slot : Slot) (hslot : slot ∈ occasion.engine.slots) : property slot.automaton :=
      h _ (Plan.automaton_mem_of_build hbuild hslot)
    have hreads : occasion.ReadsAlike (reuseLink journal (occasion.mode = .block)) := by
      refine (Classical.em (occasion.mode = .block)).imp_right fun hmode => ?_
      exact ⟨Mode.streaming_of_ne_block hmode, hslots hexpands⟩
    have hagree : Agree _ _ (occasion.body (occasion.start ⟨stream, a, caller, journal⟩))
        (occasion.body (occasion.start ⟨stream, b, caller, journal⟩)) :=
      agree_reuse (Plan.isSound_of_build hbuild) (.inr (hslots hprepares)) hreads ha hb hfull
    generalize occasion.body (occasion.start ⟨stream, a, caller, journal⟩) = first at hagree ⊢
    generalize occasion.body (occasion.start ⟨stream, b, caller, journal⟩) = second at hagree ⊢
    cases hagree with
    | ok hnext =>
      obtain ⟨hstream, hcaller, hjournal⟩ := shown_reuse hnext.toShown
      simp only [Outcome.of, closed, hstream, hcaller, hjournal]
    | error hstopped =>
      obtain ⟨hstream, hcaller, hjournal⟩ := shown_reuse hstopped.toShown
      simp only [Outcome.of, closed, hstream, hcaller, hjournal]

/-- Two passes over the same stream have the same outcome, whatever their working space has been
used for before, if automata write their full states anew. In a whole buffer the full states have
to be the same, as they are what the scan of the buffer has left. So working space that was made
ready for an engine is like new. -/
theorem outcome_of_used (hbuild : plan.build = .ok occasion.engine)
    (hprepares : ∀ automaton ∈ plan.automata, automaton.PreparesAnew)
    (hexpands : ∀ automaton ∈ plan.automata, automaton.ExpandsAnew) :
    (∀ a b : Scratch, a.IsUsed occasion.engine → b.IsUsed occasion.engine →
      (occasion.mode = .block → a.full = b.full) →
      Outcome.of (occasion.perform ⟨stream, a, caller, journal⟩)
        = Outcome.of (occasion.perform ⟨stream, b, caller, journal⟩))
    ∧ ∀ old : Scratch,
      (∃ fault, old.reset occasion.engine = .error fault
        ∧ Scratch.fresh occasion.engine = .error fault)
      ∨ ∃ a b, old.reset occasion.engine = .ok a ∧ Scratch.fresh occasion.engine = .ok b
        ∧ Outcome.of (occasion.perform ⟨stream, a, caller, journal⟩)
          = Outcome.of (occasion.perform ⟨stream, b, caller, journal⟩) := by
  have hsound := Plan.isSound_of_build hbuild
  have hused (a b : Scratch) (ha : a.IsUsed occasion.engine) (hb : b.IsUsed occasion.engine)
      (hfull : occasion.mode = .block → a.full = b.full) :
      Outcome.of (occasion.perform ⟨stream, a, caller, journal⟩)
        = Outcome.of (occasion.perform ⟨stream, b, caller, journal⟩) :=
    outcome_eq_of_suited hbuild hprepares hexpands (ha.suited hsound) (hb.suited hsound) hfull
  refine ⟨hused, fun old => (old.reset_cases occasion.engine).imp_right ?_⟩
  rintro ⟨a, b, hreset, hfresh, hfull⟩
  exact ⟨a, b, hreset, hfresh, hused a b (.reset hreset) (.fresh hfresh) fun _ => hfull⟩

/-- New working space, and the same with another full state: where a stream ends, nobody can tell
them apart. -/
theorem outcome_of_used_other_full_state :
    ∃ engine a b, Plan.sample.build = .ok engine ∧ Scratch.fresh engine = .ok a
      ∧ b.IsUsed engine ∧ a.full = #[0] ∧ b.full = #[1]
      ∧ let occasion := Plan.sampleOccasion engine .streaming fun reports _ id =>
          (.proceed, id :: reports)
        Outcome.of (occasion.perform ⟨.initial engine, a, [], []⟩)
          = Outcome.of (occasion.perform ⟨.initial engine, b, [], []⟩) := by
  obtain ⟨engine, hbuild⟩ := Plan.exists_build_sample
  obtain ⟨a, hfresh, hfull⟩ := Plan.exists_fresh_sample hbuild
  have hlatch {property : Automaton → Prop} (h : property (.latch (.wrap 4))) :
      ∀ automaton ∈ Plan.sample.automata, property automaton := by
    intro automaton hautomaton
    rw [List.mem_singleton.1 hautomaton]
    exact h
  have hused : ({ a with full := #[1] } : Scratch).IsUsed engine :=
    .filled (.fresh hfresh) (by rw [hfull]; rfl)
  refine ⟨engine, a, { a with full := #[1] }, hbuild, hfresh, hused, hfull, rfl, ?_⟩
  exact (outcome_of_used hbuild (hlatch (Automaton.preparesAnew_latch _))
    (hlatch (Automaton.expandsAnew_latch _))).1 a _ (.fresh hfresh) hused nofun

end Occasion

end Multimatch
