/-!
# Faults

A fault is a broken precondition: the operation ends at once and has no answer. Faults are told
apart by cause, and only some causes have a text of their own (`Fault.message?`). An operation that
may also refuse its input with an error value ends in a `Failure`.
-/

namespace Multimatch

/-- Why an operation could not go on. -/
inductive Fault where
  /-- A hashing domain outside the supported ones. -/
  | domainOutside (domain : Nat)
  /-- A bucket or a position that a scheme does not have. -/
  | schemeBitOutside (bucket position : Nat)
  /-- A flag that a flag set cannot hold. -/
  | flagOutside (flag capacity : Nat)
  /-- A value that a marker set cannot hold. -/
  | valueOverCapacity (value capacity : Nat)
  /-- A marker set larger than its entries can address. -/
  | capacityTooBig (capacity : Nat)
  /-- A label longer than a reader would look for. -/
  | labelTooLong
  /-- A label that its own terminator would cut short. -/
  | labelHasNul
  /-- More data than can lie before its end offset. -/
  | dataBeforeStart (length offset : Nat)
  /-- A value that no identifier can hold. -/
  | identOutside (value : Nat)
  /-- A read or write past the end of a sequence. -/
  | outOfBounds (index size : Nat)
  /-- A table that does not fit the buffer made for it. -/
  | bufferOverrun (size : Nat)
deriving DecidableEq, Repr

def Fault.message? : Fault → Option String
  | .domainOutside domain => some s!"domain {domain} outside 9..=15"
  | .flagOutside flag capacity => some s!"bit {flag} out of bounds for {capacity}"
  | .valueOverCapacity value capacity => some s!"{value} exceeds capacity of {capacity}"
  | .labelTooLong => some "label must not be longer than 255 bytes"
  | .labelHasNul => some "label must not contain NUL bytes"
  | .dataBeforeStart length offset =>
    some s!"{length} bytes of data cannot end at offset {offset}"
  | .schemeBitOutside .. | .capacityTooBig .. | .identOutside .. | .outOfBounds ..
  | .bufferOverrun .. => none

/-- The two ways to end without an answer: the input was refused, or a precondition broke. -/
inductive Failure (ε : Type) where
  | refused (error : ε)
  | fault (fault : Fault)
deriving DecidableEq, Repr

instance {ε : Type} : MonadLift (Except Fault) (Except (Failure ε)) where
  monadLift answer := answer.mapError .fault

instance {ε : Type} : MonadLift (Except ε) (Except (Failure ε)) where
  monadLift answer := answer.mapError .refused

/-- A faulting step inside a computation over a state: the state stays as it was. -/
instance {σ : Type} : MonadLift (Except Fault) (EStateM Fault σ) where
  monadLift answer := fun state =>
    match answer with
    | .ok value => .ok value state
    | .error fault => .error fault state

theorem Except.bind_eq_ok_iff {ε α β : Type} {x : Except ε α} {f : α → Except ε β} {b : β} :
    x >>= f = .ok b ↔ ∃ a, x = .ok a ∧ f a = .ok b := by
  cases x <;> simp [bind, Except.bind]

/-- The element at `index`, which has to exist. -/
def elementAt {α : Type} (elements : List α) (index : Nat) : Except Fault α :=
  match elements[index]? with
  | some element => .ok element
  | none => .error (.outOfBounds index elements.length)

theorem elementAt_eq_ok {α : Type} {elements : List α} {index : Nat}
    (inside : index < elements.length) : elementAt elements index = .ok elements[index] := by
  simp [elementAt, inside]

theorem elementAt_eq_ok_iff {α : Type} {elements : List α} {index : Nat} {element : α} :
    elementAt elements index = .ok element ↔ elements[index]? = some element := by
  unfold elementAt
  cases elements[index]? <;> simp

/-- The elements with the one at `index`, which has to exist, replaced. -/
def replaceAt {α : Type} (elements : List α) (index : Nat) (element : α) :
    Except Fault (List α) :=
  if index < elements.length then .ok (elements.set index element)
  else .error (.outOfBounds index elements.length)

theorem length_of_replaceAt {α : Type} {elements next : List α} {index : Nat} {element : α}
    (run : replaceAt elements index element = .ok next) : next.length = elements.length := by
  unfold replaceAt at run
  split at run
  · cases run
    exact List.length_set
  · cases run

end Multimatch
