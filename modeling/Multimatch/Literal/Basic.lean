import Multimatch.Groups
import Multimatch.Ident
import Multimatch.Literal.Letter

/-!
# Literals

A literal is a byte string to look for, as it stands or without regard to case. It has the
identifier that is reported where it ends and the groups that it belongs to.
-/

namespace Multimatch

/-- A byte string to look for. -/
structure Literal where
  id : LiteralId
  bytes : List UInt8
  nocase : Bool := false
  groups : Groups := Groups.all
deriving DecidableEq, Repr

namespace Literal

def length (literal : Literal) : Nat := literal.bytes.length

def isEmpty (literal : Literal) : Bool := literal.bytes.isEmpty

/-- The literal matches exactly the given bytes. -/
def accepts (literal : Literal) (haystack : List UInt8) : Bool :=
  literal.bytes.isEqv haystack (Letter.agree literal.nocase)

/-- The literal consists of bytes that agree with `byte`, so that it matches inside every run of it
that is long enough. -/
def isRunOf (literal : Literal) (byte : UInt8) : Bool :=
  !literal.isEmpty && literal.bytes.all (Letter.agree literal.nocase · byte)

/-- The bytes that a match may have at position `index` of the literal. -/
def variantsAt (literal : Literal) (index : Nat) : List UInt8 :=
  match literal.bytes[index]? with
  | some byte => Letter.variants literal.nocase byte
  | none => []

/-- The length of the longest literal, zero without literals. -/
def maxLength (literals : List Literal) : Nat := (literals.map length).max?.getD 0

end Literal

end Multimatch
