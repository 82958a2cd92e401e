import Multimatch.Fault

/-!
# Identifiers

Everything that a table or a rule set indexes has a small identifier: 32 bits wide, and valid up to
two less than `2 ^ 31`, so that it fits every integer type in use. The kinds differ in type and in
name only. `Ident.ofNat` accepts the valid values; `Ident.wrap` keeps the low 32 bits of anything.
-/

namespace Multimatch

/-- What an identifier names. -/
inductive IdentKind where
  | index
  | literal
  | report
  | role
  | queue
  | predicate
deriving DecidableEq, Repr

/-- The name of a kind of identifier, as texts write it. -/
def IdentKind.name : IdentKind → String
  | .index => "SmallIndex"
  | .literal => "LiteralID"
  | .report => "ReportID"
  | .role => "RoleID"
  | .queue => "QueueID"
  | .predicate => "PredID"

/-- An identifier of one kind. -/
structure Ident (kind : IdentKind) where
  val : UInt32
deriving DecidableEq, Repr

abbrev LiteralId := Ident .literal
abbrev ReportId := Ident .report
abbrev RoleId := Ident .role
abbrev QueueId := Ident .queue
abbrev PredicateId := Ident .predicate

/-- A value too big for an identifier. -/
structure IdentError (kind : IdentKind) where
  attempted : Nat
deriving DecidableEq, Repr

namespace Ident

variable {kind : IdentKind}

def maxValue : Nat := 2147483646

def limit : Nat := maxValue + 1

def byteSize : Nat := 4

def toNat (ident : Ident kind) : Nat := ident.val.toNat

/-- The identifier whose value is the low 32 bits of `value`, valid or not. -/
def wrap (value : Nat) : Ident kind := ⟨UInt32.ofNat value⟩

def zero : Ident kind := wrap 0

def ofNat (value : Nat) : Except (IdentError kind) (Ident kind) :=
  if value ≤ maxValue then .ok (wrap value) else .error ⟨value⟩

/-- The identifier of a value that is promised to be valid. -/
def must (value : Nat) : Except Fault (Ident kind) :=
  if value ≤ maxValue then .ok (wrap value) else .error (.identOutside value)

def IsValid (ident : Ident kind) : Prop := ident.toNat ≤ maxValue

instance (ident : Ident kind) : Decidable ident.IsValid :=
  inferInstanceAs (Decidable (_ ≤ _))

/-- An identifier in full: the name of its kind around that of the index inside it. -/
def text (ident : Ident kind) : String :=
  match kind with
  | .index => s!"SmallIndex({ident.toNat})"
  | kind => s!"{kind.name}(SmallIndex({ident.toNat}))"

end Ident

def IdentError.message {kind : IdentKind} (error : IdentError kind) : String :=
  let subject := match kind with
    | .index => "small index"
    | kind => kind.name
  let bound := (Ident.wrap Ident.maxValue : Ident kind).text
  s!"failed to create {subject} from {error.attempted}, which exceeds {bound}"

end Multimatch
