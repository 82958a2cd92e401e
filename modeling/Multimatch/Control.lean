/-!
# Control signals

Every match callback and every search step answers with a control signal. A halt is no error: it is
the caller's request to stop, and nothing is reported after it.
-/

namespace Multimatch

/-- Whether a search goes on. -/
inductive Control where
  | proceed
  | halt
deriving DecidableEq, Repr, Inhabited

namespace Control

/-- The signal in force when nobody asked for anything. -/
def initial : Control := .proceed

def isHalt : Control → Bool
  | .proceed => false
  | .halt => true

/-- The signal that says whether to keep going. -/
def ofKeepGoing (keepGoing : Bool) : Control := if keepGoing then .proceed else .halt

/-- Goes on with `next` unless `first` ends in a halt. -/
def andThen {m : Type → Type} [Monad m] (first next : m Control) : m Control := do
  match ← first with
  | .halt => pure .halt
  | .proceed => next

/-- Visits elements in their order until a visit ends in a halt. -/
def visitAll {m : Type → Type} [Monad m] {α : Type} (visit : α → m Control) :
    List α → m Control
  | [] => pure .proceed
  | element :: elements => andThen (visit element) (visitAll visit elements)

section Laws

variable {m : Type → Type} [Monad m] {α : Type}

theorem visitAll_nil (visit : α → m Control) : visitAll visit [] = pure .proceed := rfl

theorem visitAll_cons (visit : α → m Control) (element : α) (elements : List α) :
    visitAll visit (element :: elements) = andThen (visit element) (visitAll visit elements) := rfl

theorem andThen_proceed [LawfulMonad m] (next : m Control) :
    andThen (pure .proceed) next = next := by
  simp [andThen]

theorem andThen_assoc [LawfulMonad m] (first second third : m Control) :
    andThen (andThen first second) third = andThen first (andThen second third) := by
  simp only [andThen, bind_assoc]
  congr 1
  funext control
  cases control <;> simp

/-- Visiting two lists one after the other is visiting them as one. -/
theorem visitAll_append [LawfulMonad m] (visit : α → m Control) (first second : List α) :
    visitAll visit (first ++ second)
      = andThen (visitAll visit first) (visitAll visit second) := by
  induction first with
  | nil => rw [List.nil_append, visitAll_nil, andThen_proceed]
  | cons element elements ih =>
    rw [List.cons_append, visitAll_cons, visitAll_cons, ih, andThen_assoc]

end Laws

end Control

end Multimatch
