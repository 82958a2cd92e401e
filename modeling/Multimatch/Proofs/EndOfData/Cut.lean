import Mathlib.Tactic.ByContra
import Multimatch.Proofs.EndOfData.Silent

/-!
# Steps that a halt cuts short

A step for a caller who never halts makes some calls. The same step for another caller makes the
same calls up to the first one that this caller answers with a halt, and stops there; without such
an answer it does what it did for the quiet caller (`PassM.Cut`). This is kept when steps are put
together, if the rest of a step does not forget the halt of its beginning (`PassM.Absorbs`).
-/

namespace Multimatch

/-! ## Callers -/

section Caller

variable {τ : Type} (callback : τ → Nat → ReportId → Control × τ)

/-- The caller after some calls. -/
def hear (caller : τ) (calls : List (Nat × ReportId)) : τ :=
  calls.foldl (fun caller call => (callback caller call.1 call.2).2) caller

/-- The caller answers none of the calls with a halt. -/
def IsContent : τ → List (Nat × ReportId) → Prop
  | _, [] => True
  | caller, call :: calls => (callback caller call.1 call.2).1 = .proceed
      ∧ IsContent (callback caller call.1 call.2).2 calls

/-- The caller answers its `n`-th call with a halt, and none before. -/
def HaltsAt (caller : τ) (n : Nat) : Prop :=
  ∀ calls offset id, calls.length < n →
    ((callback (hear callback caller calls) offset id).1 = .halt ↔ calls.length + 1 = n)

variable {callback} {caller : τ} {calls later : List (Nat × ReportId)}

theorem hear_append :
    hear callback caller (calls ++ later) = hear callback (hear callback caller calls) later :=
  List.foldl_append

theorem isContent_append : IsContent callback caller (calls ++ later) ↔
    IsContent callback caller calls ∧ IsContent callback (hear callback caller calls) later := by
  induction calls generalizing caller with
  | nil => simp [IsContent, hear]
  | cons call calls ih =>
    simp only [List.cons_append, IsContent, ih, and_assoc]
    rfl

/-- A caller that halts at its `n`-th call is not content with so many. -/
theorem IsContent.length_lt {n : Nat} (h : IsContent callback caller calls) (hpos : 1 ≤ n)
    (hhalts : HaltsAt callback caller n) : calls.length < n := by
  by_contra hlt
  have hle : n - 1 < calls.length := by omega
  have hsplit : calls = calls.take (n - 1) ++ calls[n - 1] :: calls.drop (n - 1 + 1) := by
    rw [List.getElem_cons_drop, List.take_append_drop]
  rw [hsplit, isContent_append] at h
  have hlength : (calls.take (n - 1)).length = n - 1 := List.length_take_of_le (by omega)
  have hanswer := (hhalts (calls.take (n - 1)) calls[n - 1].1 calls[n - 1].2 (by omega)).2
    (by omega)
  rw [h.2.1] at hanswer
  cases hanswer

end Caller

/-- A call that was answered with `proceed`. -/
def proceeded (call : Nat × ReportId) : Nat × ReportId × Control := (call.1, call.2, .proceed)

/-- The call that was answered. -/
def callOf (answer : Nat × ReportId × Control) : Nat × ReportId := (answer.1, answer.2.1)

theorem map_callOf_proceeded (calls : List (Nat × ReportId)) :
    (calls.map proceeded).map callOf = calls := by
  rw [List.map_map]
  exact List.map_id _

theorem ne_halt_of_mem_proceeded {answer : Nat × ReportId × Control}
    {calls : List (Nat × ReportId)} (h : answer ∈ calls.map proceeded) : answer.2.2 ≠ .halt := by
  obtain ⟨call, -, rfl⟩ := List.mem_map.1 h
  exact nofun

namespace PassM

variable {σ τ α β : Type}

/-! ## Steps that are cut short -/

section Cut

variable (callback : τ → Nat → ReportId → Control × τ)

/-- From a pass that was halted on, the step ends in a halt and tells the caller nothing. -/
def Absorbs (isHalt : α → Prop) (step : PassM τ α) : Prop :=
  ∀ pass : Pass τ, pass.halted = true → ∃ answer next, step pass = .ok answer next
    ∧ isHalt answer ∧ next.halted = true ∧ next.answers = pass.answers
    ∧ next.caller = pass.caller

/-- Of the calls the caller got those up to the first that it answered with a halt, and there the
step ended. -/
def Stops (isHalt : α → Prop) (result : EStateM.Result Fault (Pass τ) α)
    (before : List (Nat × ReportId × Control)) (caller : τ) (calls : List (Nat × ReportId)) :
    Prop :=
  ∃ first last later, calls = first ++ last :: later
    ∧ IsContent callback caller first
    ∧ (callback (hear callback caller first) last.1 last.2).1 = .halt
    ∧ ∃ answer next, result = .ok answer next ∧ isHalt answer ∧ next.halted = true
      ∧ next.answers = before ++ (first.map proceeded ++ [(last.1, last.2, .halt)])
      ∧ next.caller = hear callback caller (first ++ [last])

/-- The first step makes some calls to a caller who never halts. The second step makes the same
calls to another caller and ends alike, or stops at the first halt. -/
def Cut (isHalt : α → Prop) (a : PassM σ α) (b : PassM τ α) : Prop :=
  ∀ (pass : Pass σ) (caller : τ), pass.halted = false → ∃ calls : List (Nat × ReportId),
    (after (a pass)).answers = pass.answers ++ calls.map proceeded
    ∧ (after (a pass)).halted = false
    ∧ ((IsContent callback caller calls
        ∧ b (pass.withCaller caller) = forCaller (a pass) (hear callback caller calls))
      ∨ Stops callback isHalt (b (pass.withCaller caller)) pass.answers caller calls)

variable {callback} {isHalt : α → Prop} {isHalt' : β → Prop} {a a' : PassM σ α}
  {b b' : PassM τ α}

theorem Muted.cut (h : Muted a b) : Cut callback isHalt a b := by
  intro pass caller hrunning
  obtain ⟨hsame, hhalted, hanswers⟩ := h pass caller
  refine ⟨[], ?_, hhalted.trans hrunning, .inl ⟨trivial, hsame⟩⟩
  rw [hanswers, List.map_nil, List.append_nil]

theorem cut_pure (value : α) :
    Cut callback isHalt (pure value : PassM σ α) (pure value : PassM τ α) :=
  Muted.cut (Silent.muted (alike_pure value))

theorem Stops.imp {result : EStateM.Result Fault (Pass τ) α}
    {result' : EStateM.Result Fault (Pass τ) β} {before : List (Nat × ReportId × Control)}
    {caller : τ} {calls more : List (Nat × ReportId)}
    (h : Stops callback isHalt result before caller calls)
    (hstop : ∀ answer next, result = .ok answer next → isHalt answer → next.halted = true →
      ∃ answer' next', result' = .ok answer' next' ∧ isHalt' answer' ∧ next'.halted = true
        ∧ next'.answers = next.answers ∧ next'.caller = next.caller) :
    Stops callback isHalt' result' before caller (calls ++ more) := by
  obtain ⟨first, last, later, rfl, hcontent, hhalt, answer, next, hresult, hanswer, hhalted,
    hanswers, hcaller⟩ := h
  obtain ⟨answer', next', hresult', hanswer', hhalted', hanswers', hcaller'⟩ :=
    hstop answer next hresult hanswer hhalted
  exact ⟨first, last, later ++ more, by simp, hcontent, hhalt, answer', next', hresult', hanswer',
    hhalted', hanswers'.trans hanswers, hcaller'.trans hcaller⟩

/-- Calls that the caller was content with come before those that it stops at. -/
theorem Stops.prepend {result : EStateM.Result Fault (Pass τ) β}
    {before between : List (Nat × ReportId × Control)} {caller : τ}
    {calls more : List (Nat × ReportId)} (hcontent : IsContent callback caller calls)
    (hbetween : between = before ++ calls.map proceeded)
    (h : Stops callback isHalt' result between (hear callback caller calls) more) :
    Stops callback isHalt' result before caller (calls ++ more) := by
  obtain ⟨first, last, later, rfl, hfirst, hhalt, answer, next, hresult, hanswer, hhalted,
    hanswers, hcaller⟩ := h
  refine ⟨calls ++ first, last, later, by simp, isContent_append.2 ⟨hcontent, hfirst⟩, ?_, answer,
    next, hresult, hanswer, hhalted, ?_, ?_⟩
  · rwa [hear_append]
  · simp [hanswers, hbetween]
  · simp [hcaller, hear_append]

/-- A step after another one is cut short where either is, if it keeps to a halt of the first. -/
theorem Cut.bind (h : Cut callback isHalt a b) {f : α → PassM σ β} {g : α → PassM τ β}
    (hrest : ∀ value, Cut callback isHalt' (f value) (g value))
    (habsorbs : ∀ value, isHalt value → Absorbs isHalt' (g value)) :
    Cut callback isHalt' (a >>= f) (b >>= g) := by
  intro pass caller hrunning
  obtain ⟨calls, hanswers, hhalted, hcases⟩ := h pass caller hrunning
  have hstops {more : List (Nat × ReportId)}
      (hstop : Stops callback isHalt (b (pass.withCaller caller)) pass.answers caller calls) :
      Stops callback isHalt' ((b >>= g) (pass.withCaller caller)) pass.answers caller
        (calls ++ more) := by
    refine hstop.imp fun answer next hresult hanswer hnext => ?_
    simp only [Bind.bind, EStateM.bind, hresult]
    exact habsorbs answer hanswer next hnext
  simp only [Bind.bind, EStateM.bind] at hstops ⊢
  cases hresult : a pass with
  | error fault next =>
    rw [hresult] at hanswers hhalted hcases
    refine ⟨calls, hanswers, hhalted, hcases.imp ?_ fun hstop => ?_⟩
    · rintro ⟨hcontent, hsame⟩
      rw [hsame]
      exact ⟨hcontent, rfl⟩
    · rw [← List.append_nil calls]
      exact hstops hstop
  | ok value next =>
    rw [hresult] at hanswers hhalted hcases
    have hanswers : next.answers = pass.answers ++ calls.map proceeded := hanswers
    obtain ⟨more, hmore, hlast, hrest⟩ :=
      hrest value next (hear callback caller calls) hhalted
    refine ⟨calls ++ more, ?_, hlast, ?_⟩
    · rw [hmore, hanswers, List.map_append, List.append_assoc]
    · rcases hcases with ⟨hcontent, hsame⟩ | hstop
      · rw [hsame]
        rcases hrest with ⟨hcontent', hsame'⟩ | hstop
        · refine .inl ⟨isContent_append.2 ⟨hcontent, hcontent'⟩, ?_⟩
          rw [hear_append]
          exact hsame'
        · exact .inr (Stops.prepend hcontent hanswers hstop)
      · exact .inr (hstops hstop)

theorem Muted.cut_bind (h : Muted a b) {f : α → PassM σ β} {g : α → PassM τ β}
    (hrest : ∀ value, Cut callback isHalt' (f value) (g value)) :
    Cut callback isHalt' (a >>= f) (b >>= g) := by
  have hcut : Cut callback (fun _ => False) a b := h.cut
  exact hcut.bind hrest fun _ hfalse => hfalse.elim

theorem Cut.get_bind {f : Pass σ → PassM σ β} {g : Pass τ → PassM τ β}
    (h : ∀ (pass : Pass σ) (caller : τ),
      Cut callback isHalt' (f pass) (g (pass.withCaller caller))) :
    Cut callback isHalt' (get >>= f) (get >>= g) :=
  fun pass caller => h pass caller pass caller

theorem Cut.lift_bind {made : Except Fault α} {f : α → PassM σ β} {g : α → PassM τ β}
    (h : ∀ value, made = .ok value → Cut callback isHalt' (f value) (g value)) :
    Cut callback isHalt' (liftM made >>= f) (liftM made >>= g) := by
  cases made with
  | ok value => exact h value rfl
  | error fault =>
    have hmuted : Muted (σ := σ) (τ := τ) (liftM (Except.error fault : Except Fault β))
        (liftM (Except.error fault : Except Fault β)) := Silent.muted (alike_lift _)
    exact hmuted.cut

theorem Cut.ite {c : Prop} [Decidable c] (h : Cut callback isHalt a b)
    (h' : Cut callback isHalt a' b') :
    Cut callback isHalt (if c then a else a') (if c then b else b') := by
  by_cases hc : c
  · rwa [if_pos hc, if_pos hc]
  · rwa [if_neg hc, if_neg hc]

theorem absorbs_pure {value : β} (h : isHalt' value) : Absorbs isHalt' (pure value : PassM τ β) :=
  fun pass hhalted => ⟨value, pass, rfl, h, hhalted, rfl, rfl⟩

end Cut

section Controls

variable {callback : τ → Nat → ReportId → Control × τ}

/-- Cut short for steps that answer with a signal. -/
abbrev CutControl (callback : τ → Nat → ReportId → Control × τ) (a : PassM σ Control)
    (b : PassM τ Control) : Prop :=
  Cut callback (· = .halt) a b

variable {a a' : PassM σ Control} {b b' : PassM τ Control}

theorem Cut.andThen (h : CutControl callback a b) (h' : CutControl callback a' b') :
    CutControl callback (Control.andThen a a') (Control.andThen b b') := by
  refine h.bind (fun control => ?_) fun control hhalt => ?_
  · cases control with
    | halt => exact cut_pure _
    | proceed => exact h'
  · rw [hhalt]
    exact absorbs_pure rfl

theorem Cut.visitAll {visit : α → PassM σ Control} {visit' : α → PassM τ Control} {xs : List α}
    (h : ∀ x ∈ xs, CutControl callback (visit x) (visit' x)) :
    CutControl callback (Control.visitAll visit xs) (Control.visitAll visit' xs) := by
  induction xs with
  | nil => exact cut_pure _
  | cons x xs ih =>
    exact (h x List.mem_cons_self).andThen (ih fun y hy => h y (List.mem_cons_of_mem _ hy))

end Controls

end PassM

end Multimatch
