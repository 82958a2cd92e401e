import Multimatch.EndOfData.Finish

/-!
# Reasoning about passes

`PassM.Gives step pass post` says that a step has an answer from a pass, and what holds of the
answer and of the pass afterwards. It splits along the step: there is one rule for every way in
which steps are put together, and each is an equivalence where it can be, so that they also rewrite
(`gives_bind`, `gives_get`, …). Steps that may halt are visited one after the other while what holds
of a proceeding pass is kept (`Gives.andThen`, `Gives.visitAll`).
-/

namespace Multimatch

namespace PassM

variable {σ α β : Type} {pass : Pass σ}

theorem get_eq : (get : PassM σ (Pass σ)) = fun pass => .ok pass pass := rfl

theorem set_eq (next : Pass σ) : (set next : PassM σ PUnit) = fun _ => .ok ⟨⟩ next := rfl

/-- From the pass the step has an answer, and the answer and the pass after it are as stated. -/
def Gives (step : PassM σ α) (pass : Pass σ) (post : α → Pass σ → Prop) : Prop :=
  ∃ answer next, step pass = .ok answer next ∧ post answer next

section Rules

variable {step : PassM σ α} {rest : α → PassM σ β} {post mid : α → Pass σ → Prop}
  {last : β → Pass σ → Prop}

theorem Gives.mono (h : Gives step pass mid) (hpost : ∀ answer next, mid answer next →
    post answer next) : Gives step pass post := by
  obtain ⟨answer, next, hstep, hmid⟩ := h
  exact ⟨answer, next, hstep, hpost answer next hmid⟩

theorem gives_iff_of_eq {answer : α} {next : Pass σ} (h : step pass = .ok answer next) :
    Gives step pass post ↔ post answer next := by
  constructor
  · rintro ⟨_, _, hstep, hpost⟩
    cases h.symm.trans hstep
    exact hpost
  · intro hpost
    exact ⟨answer, next, h, hpost⟩

/-- A step that gives an answer has no other one. -/
theorem Gives.of_eq (h : Gives step pass post) {answer : α} {next : Pass σ}
    (hstep : step pass = .ok answer next) : post answer next :=
  (gives_iff_of_eq hstep).1 h

@[simp] theorem gives_pure {answer : α} : Gives (pure answer) pass post ↔ post answer pass :=
  gives_iff_of_eq rfl

@[simp] theorem gives_bind :
    Gives (step >>= rest) pass last ↔ Gives step pass fun answer next =>
      Gives (rest answer) next last := by
  cases hstep : step pass with
  | ok answer next =>
    rw [gives_iff_of_eq hstep]
    simp only [Gives, bind, EStateM.bind, hstep]
  | error fault next => simp [Gives, bind, EStateM.bind, hstep]

@[simp] theorem gives_get {post : Pass σ → Pass σ → Prop} :
    Gives get pass post ↔ post pass pass := gives_iff_of_eq rfl

@[simp] theorem gives_set {next : Pass σ} {post : PUnit → Pass σ → Prop} :
    Gives (set next) pass post ↔ post ⟨⟩ next := gives_iff_of_eq rfl

@[simp] theorem gives_modify {change : Pass σ → Pass σ} {post : PUnit → Pass σ → Prop} :
    Gives (modify change) pass post ↔ post ⟨⟩ (change pass) := gives_iff_of_eq rfl

@[simp] theorem gives_note {entry : JournalEntry} {post : Unit → Pass σ → Prop} :
    Gives (note entry) pass post ↔ post () { pass with journal := entry :: pass.journal } :=
  gives_iff_of_eq rfl

@[simp] theorem gives_lift {made : Except Fault α} :
    Gives (liftM made) pass post ↔ ∃ answer, made = .ok answer ∧ post answer pass := by
  cases made with
  | ok answer =>
    refine (gives_iff_of_eq rfl).trans ⟨fun h => ⟨answer, rfl, h⟩, ?_⟩
    rintro ⟨_, ⟨⟩, h⟩
    exact h
  | error fault =>
    constructor
    · rintro ⟨_, _, h, _⟩
      cases h
    · rintro ⟨_, h, _⟩
      cases h

@[simp] theorem gives_ite {c : Prop} [Decidable c] {other : PassM σ α} :
    Gives (if c then step else other) pass post
      ↔ (c → Gives step pass post) ∧ (¬c → Gives other pass post) := by
  by_cases h : c <;> simp [h]

@[simp] theorem gives_changeScratch {change : Scratch → Except Fault Scratch}
    {post : Unit → Pass σ → Prop} : Gives (changeScratch change) pass post ↔
      ∃ scratch, change pass.scratch = .ok scratch ∧ post () { pass with scratch } := by
  simp [changeScratch]

@[simp] theorem gives_changeRoles {change : FlagSet → Except Fault FlagSet}
    {post : Unit → Pass σ → Prop} : Gives (changeRoles change) pass post ↔
      ∃ roles, change pass.stream.roles = .ok roles
        ∧ post () { pass with stream := { pass.stream with roles } } := by
  simp [changeRoles]

@[simp] theorem gives_changeLeaves {change : FlagSet → Except Fault FlagSet}
    {post : Unit → Pass σ → Prop} : Gives (changeLeaves change) pass post ↔
      ∃ leaves, change pass.stream.leaves = .ok leaves
        ∧ post () { pass with stream := { pass.stream with leaves } } := by
  simp [changeLeaves]

end Rules

section Controls

variable {first next : PassM σ Control} {post : Control → Pass σ → Prop}

theorem Gives.andThen (hfirst : Gives first pass post)
    (hnext : ∀ middle, post .proceed middle → Gives next middle post) :
    Gives (Control.andThen first next) pass post := by
  rw [Control.andThen, gives_bind]
  refine hfirst.mono fun control middle hmiddle => ?_
  cases control with
  | halt => exact gives_pure.2 hmiddle
  | proceed => exact hnext middle hmiddle

/-- What a visit keeps while it proceeds holds after all of them. -/
theorem Gives.visitAll {visit : α → PassM σ Control} {xs : List α}
    (hvisit : ∀ x ∈ xs, ∀ middle, post .proceed middle → Gives (visit x) middle post)
    (hpass : post .proceed pass) : Gives (Control.visitAll visit xs) pass post := by
  induction xs generalizing pass with
  | nil => exact gives_pure.2 hpass
  | cons x xs ih =>
    refine (hvisit x List.mem_cons_self pass hpass).andThen fun middle hmiddle => ?_
    exact ih (fun y hy => hvisit y (List.mem_cons_of_mem _ hy)) hmiddle

end Controls

end PassM

end Multimatch
