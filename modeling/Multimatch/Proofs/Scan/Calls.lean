import Multimatch.Proofs.Scan.Naive

/-!
# The calls of a scan

What a sink sees of a scan is `Sink.Exchange`: some calls, each of which it answered, and then the
end of the scan. A sink can be made to write down its calls (`Sink.recorded`), which changes nothing
else: what is written down is what the scan and the sink exchange (`Sink.Records`). The calls that a
naive scan makes are in ascending order of their ends and, at one end, of their identifiers, and no
call is made twice (`Naive.exists_records_scan`). This is so whatever the sink answers and whichever
groups it has live.
-/

namespace Multimatch

namespace Sink

variable {σ : Type}

/-! ## What passes between a scan and its sink -/

/-- From a state of the sink on, the calls are made one after the other, and the computation ends as
given: the sink was content with every call, or it halted or faulted at the last one. -/
inductive Exchange (sink : Sink σ) :
    σ → List (Nat × LiteralId) → EStateM.Result Fault σ Control → Prop where
  | silent (s : σ) : Exchange sink s [] (.ok .proceed s)
  | halted {s s' : σ} {matchEnd : Nat} {id : LiteralId}
      (call : sink.onMatch matchEnd id s = .ok .halt s') :
      Exchange sink s [(matchEnd, id)] (.ok .halt s')
  | faulted {s s' : σ} {matchEnd : Nat} {id : LiteralId} {fault : Fault}
      (call : sink.onMatch matchEnd id s = .error fault s') :
      Exchange sink s [(matchEnd, id)] (.error fault s')
  | next {s s' : σ} {matchEnd : Nat} {id : LiteralId} {calls : List (Nat × LiteralId)}
      {result : EStateM.Result Fault σ Control}
      (call : sink.onMatch matchEnd id s = .ok .proceed s') (rest : Exchange sink s' calls result) :
      Exchange sink s ((matchEnd, id) :: calls) result

theorem Exchange.append {sink : Sink σ} {s s' : σ} {first second : List (Nat × LiteralId)}
    {result : EStateM.Result Fault σ Control} (hfirst : sink.Exchange s first (.ok .proceed s'))
    (hsecond : sink.Exchange s' second result) : sink.Exchange s (first ++ second) result := by
  generalize hend : (EStateM.Result.ok Control.proceed s' : EStateM.Result Fault σ Control) = last
    at hfirst
  induction hfirst with
  | silent s => cases hend; exact hsecond
  | halted call => cases hend
  | faulted call => cases hend
  | next call _ ih => exact .next call (ih hend)

/-- After calls that a sink was content with, the call that halts it is the last one. -/
theorem Exchange.eq_halt {sink : Sink σ} {s middle s' : σ} {before calls : List (Nat × LiteralId)}
    {result : EStateM.Result Fault σ Control} (h : sink.Exchange s calls result)
    (hbefore : sink.Exchange s before (.ok .proceed middle)) {matchEnd : Nat} {id : LiteralId}
    (hcalls : calls = before ++ [(matchEnd, id)])
    (hcall : sink.onMatch matchEnd id middle = .ok .halt s') : result = .ok .halt s' := by
  induction h generalizing before with
  | silent s => exact absurd hcalls.symm (by simp)
  | halted call =>
    cases hbefore with
    | silent s =>
      cases hcalls
      rw [← call, hcall]
    | next call' rest =>
      injection hcalls with _ htail
      exact absurd htail.symm (by simp)
  | faulted call =>
    cases hbefore with
    | silent s =>
      cases hcalls
      rw [← call, hcall]
    | next call' rest =>
      injection hcalls with _ htail
      exact absurd htail.symm (by simp)
  | next call rest ih =>
    cases hbefore with
    | silent s =>
      injection hcalls with hhead _
      cases hhead
      rw [call] at hcall
      cases hcall
    | next call' rest' =>
      injection hcalls with hhead htail
      cases hhead
      rw [call] at call'
      cases call'
      exact ih rest' htail

/-- The computation ends in a halt if and only if the sink halted at the last call. -/
theorem Exchange.halt_iff {sink : Sink σ} {s : σ} {calls : List (Nat × LiteralId)}
    {result : EStateM.Result Fault σ Control} (h : sink.Exchange s calls result) {s' : σ} :
    result = .ok .halt s' ↔ ∃ before matchEnd id middle, calls = before ++ [(matchEnd, id)]
      ∧ sink.Exchange s before (.ok .proceed middle)
      ∧ sink.onMatch matchEnd id middle = .ok .halt s' := by
  constructor
  · intro hresult
    induction h with
    | silent s => cases hresult
    | @halted s _ matchEnd id call =>
      cases hresult
      exact ⟨[], matchEnd, id, s, rfl, .silent s, call⟩
    | faulted call => cases hresult
    | next call _ ih =>
      obtain ⟨before, matchEnd, id, middle, rfl, hbefore, hcall⟩ := ih hresult
      exact ⟨_ :: before, matchEnd, id, middle, rfl, .next call hbefore, hcall⟩
  · rintro ⟨before, matchEnd, id, middle, hcalls, hbefore, hcall⟩
    exact h.eq_halt hbefore hcalls hcall

/-! ## Writing calls down -/

variable {sink : Sink σ} {matchEnd : Nat} {ids : List LiteralId}

/-- What a computation comes to, with calls beside the state. -/
def withCalls (calls : List (Nat × LiteralId)) : EStateM.Result Fault σ Control →
    EStateM.Result Fault (σ × List (Nat × LiteralId)) Control
  | .ok control s => .ok control (s, calls)
  | .error fault s => .error fault (s, calls)

/-- The sink that also writes down every call, before it looks at it. -/
def recorded (sink : Sink σ) : Sink (σ × List (Nat × LiteralId)) where
  groups state := sink.groups state.1
  onMatch matchEnd id state :=
    withCalls (state.2 ++ [(matchEnd, id)]) (sink.onMatch matchEnd id state.1)

/-- From a state of the sink on, the computation makes the calls. The same computation with the
recorded sink writes them down, behind what was written before. -/
structure Records (sink : Sink σ) (s : σ) (calls : List (Nat × LiteralId))
    (step : EStateM Fault σ Control)
    (recording : EStateM Fault (σ × List (Nat × LiteralId)) Control) : Prop where
  exchange : sink.Exchange s calls (step s)
  recording : ∀ earlier, recording (s, earlier) = withCalls (earlier ++ calls) (step s)

theorem records_nil (s : σ) : sink.Records s [] (pure .proceed) (pure .proceed) where
  exchange := .silent s
  recording earlier := by rw [List.append_nil]; rfl

theorem records_call (id : LiteralId) (s : σ) : sink.Records s [(matchEnd, id)]
    (sink.onMatch matchEnd id) (sink.recorded.onMatch matchEnd id) where
  exchange := by
    cases hresult : sink.onMatch matchEnd id s with
    | ok control s' =>
      cases control with
      | halt => exact .halted hresult
      | proceed => exact .next hresult (.silent s')
    | error fault s' => exact .faulted hresult
  recording _ := rfl

/-- What follows a computation is called only if the sink was content with it. -/
theorem Records.andThen {first next : EStateM Fault σ Control}
    {first' next' : EStateM Fault (σ × List (Nat × LiteralId)) Control} {s : σ}
    {calls : List (Nat × LiteralId)} (hfirst : sink.Records s calls first first')
    {P : List (Nat × LiteralId) → Prop} (hnil : P [])
    (hnext : ∀ s', ∃ more, sink.Records s' more next next' ∧ P more) :
    ∃ more, sink.Records s (calls ++ more) (Control.andThen first next)
      (Control.andThen first' next') ∧ P more := by
  obtain ⟨hexchange, hrecording⟩ := hfirst
  have hstop (hstop : Control.andThen first next s = first s)
      (hstop' : ∀ earlier, Control.andThen first' next' (s, earlier) = first' (s, earlier)) :
      ∃ more, sink.Records s (calls ++ more) (Control.andThen first next)
        (Control.andThen first' next') ∧ P more := by
    refine ⟨[], ⟨?_, fun earlier => ?_⟩, hnil⟩
    · rw [hstop, List.append_nil]
      exact hexchange
    · rw [hstop, hstop', List.append_nil, hrecording]
  cases hresult : first s with
  | ok control s' =>
    rw [hresult] at hexchange hrecording
    cases control with
    | halt =>
      refine hstop ?_ fun earlier => ?_
      · simp [Control.andThen, bind, EStateM.bind, hresult, pure, EStateM.pure]
      · simp [Control.andThen, bind, EStateM.bind, hrecording, withCalls, pure, EStateM.pure]
    | proceed =>
      obtain ⟨more, ⟨hmore, hrecording'⟩, hP⟩ := hnext s'
      have hthen : Control.andThen first next s = next s' := by
        simp [Control.andThen, bind, EStateM.bind, hresult]
      refine ⟨more, ⟨?_, fun earlier => ?_⟩, hP⟩
      · rw [hthen]
        exact hexchange.append hmore
      · rw [hthen, ← List.append_assoc, ← hrecording']
        simp [Control.andThen, bind, EStateM.bind, hrecording, withCalls]
  | error fault s' =>
    rw [hresult] at hexchange hrecording
    refine hstop ?_ fun earlier => ?_
    · simp [Control.andThen, bind, EStateM.bind, hresult]
    · simp [Control.andThen, bind, EStateM.bind, hrecording, withCalls]

/-! ## The order of calls -/

/-- One call comes before another: it is for an earlier end, or for a smaller identifier there. -/
def Earlier (a b : Nat × LiteralId) : Prop :=
  a.1 < b.1 ∨ (a.1 = b.1 ∧ a.2.toNat < b.2.toNat)

/-- What is delivered at an end is delivered in its order, up to where the sink has enough. -/
theorem exists_records_deliver (s : σ) :
    ∃ calls, sink.Records s calls (sink.deliver matchEnd ids) (sink.recorded.deliver matchEnd ids)
      ∧ calls <+: ids.map fun id => (matchEnd, id) := by
  induction ids generalizing s with
  | nil => exact ⟨[], records_nil s, List.nil_prefix⟩
  | cons id ids ih =>
    -- Calls that come after the first one are only made if the sink was content with it.
    obtain ⟨more, hmore, hinit⟩ := (records_call id s).andThen
      (P := fun calls => calls <+: ids.map fun id => (matchEnd, id)) List.nil_prefix ih
    exact ⟨_, hmore, (List.prefix_cons_inj _).2 hinit⟩

/-- Telling a sink about ends in ascending order makes calls in ascending order, if that is the order
of what is found at one end. -/
theorem exists_records_tell {found : Nat → Groups → List LiteralId} {ends : List Nat}
    {R : Nat × LiteralId → Nat × LiteralId → Prop} (hsorted : ends.Pairwise (· < ·))
    (hends : ∀ {a b}, a.1 < b.1 → R a b)
    (hfound : ∀ matchEnd groups,
      (found matchEnd groups).Pairwise fun a b => R (matchEnd, a) (matchEnd, b)) (s : σ) :
    ∃ calls, sink.Records s calls (Control.visitAll (sink.tell found) ends)
        (Control.visitAll (sink.recorded.tell found) ends)
      ∧ (∀ call ∈ calls, call.1 ∈ ends ∧ ∃ groups, call.2 ∈ found call.1 groups)
      ∧ calls.Pairwise R := by
  induction ends generalizing s with
  | nil => exact ⟨[], records_nil s, nofun, .nil⟩
  | cons matchEnd ends ih =>
    obtain ⟨hlt, hrest⟩ := List.pairwise_cons.1 hsorted
    obtain ⟨calls, hcalls, hinit⟩ :=
      @exists_records_deliver _ sink matchEnd (found matchEnd (sink.groups s)) s
    have htell : sink.Records s calls (sink.tell found matchEnd)
        (sink.recorded.tell found matchEnd) := ⟨hcalls.exchange, hcalls.recording⟩
    have hhere {call : Nat × LiteralId} (hcall : call ∈ calls) :
        call.1 = matchEnd ∧ call.2 ∈ found matchEnd (sink.groups s) := by
      obtain ⟨id, hid, rfl⟩ := List.mem_map.1 (hinit.subset hcall)
      exact ⟨rfl, hid⟩
    have hpairsHere : calls.Pairwise R :=
      (List.pairwise_map.2 (hfound matchEnd (sink.groups s))).sublist hinit.sublist
    obtain ⟨more, hmore, hlater, hpairs⟩ := htell.andThen
      (P := fun calls => (∀ call ∈ calls, call.1 ∈ ends ∧ ∃ groups, call.2 ∈ found call.1 groups)
        ∧ calls.Pairwise R) ⟨nofun, .nil⟩ (ih hrest)
    refine ⟨_, hmore, fun call hcall => ?_, List.pairwise_append.2
      ⟨hpairsHere, hpairs, fun a ha b hb => ?_⟩⟩
    · rcases List.mem_append.1 hcall with hcall | hcall
      · obtain ⟨hend, hid⟩ := hhere hcall
        rw [hend]
        exact ⟨List.mem_cons_self, _, hid⟩
      · exact (hlater call hcall).imp_left (List.mem_cons_of_mem _)
    · exact hends ((hhere ha).1 ▸ hlt _ (hlater b hb).1)

end Sink

/-- The calls of a naive scan are for literals that end there, in ascending order. -/
theorem Naive.exists_records_scan {σ : Type} (literals : List Literal) (input : ScanInput)
    (sink : Sink σ) (s : σ) :
    ∃ calls, sink.Records s calls (Naive.scan literals input sink)
        (Naive.scan literals input sink.recorded)
      ∧ (∀ call ∈ calls, call.1 ∈ input.ends ∧ ∃ literal ∈ literals, literal.id = call.2
        ∧ input.endsAt literal call.1 = true)
      ∧ calls.Pairwise Sink.Earlier := by
  have hascending (matchEnd : Nat) (groups : Groups) :
      (Naive.idsAt literals input matchEnd groups).Pairwise
        fun a b => Sink.Earlier (matchEnd, a) (matchEnd, b) :=
    Naive.pairwise_idsAt.imp fun hlt => .inr ⟨rfl, hlt⟩
  obtain ⟨calls, hcalls, hfound, hpairs⟩ :=
    Sink.exists_records_tell input.pairwise_ends .inl hascending s
  refine ⟨calls, hcalls, fun call hcall => ?_, hpairs⟩
  obtain ⟨hend, groups, hid⟩ := hfound call hcall
  obtain ⟨literal, hliteral, hsame, -, hends⟩ := Naive.mem_idsAt.1 hid
  exact ⟨hend, literal, hliteral, hsame, hends⟩

end Multimatch
