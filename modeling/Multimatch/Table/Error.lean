import Multimatch.Codec.Error
import Multimatch.Scheme.Basic

/-!
# Errors of building a table

A set of literals that no table can be built for is refused with a cause.
-/

namespace Multimatch

/-- Why no table was built. -/
inductive TableError where
  | noLiterals
  /-- A literal without bytes would match everywhere. -/
  | emptyLiteral (id : LiteralId)
  | noScheme
  /-- There is no scheme with the number asked for. -/
  | unknownScheme (id : Nat)
  | domainOutside (domain : Nat)
  /-- Offsets in the table would not fit 32 bits. -/
  | tooBig
  /-- The table could not be written to the buffer made for it. -/
  | unwritten (error : WriteError)
  /-- A precondition broke, and there is neither a table nor an answer. -/
  | broken (fault : Fault)
deriving DecidableEq, Repr

namespace TableError

def message : TableError → String
  | .noLiterals => "cannot build a literal table from zero literals"
  | .emptyLiteral id =>
    s!"literal {id.toNat} is empty, but literals must have at least one byte"
  | .noScheme => "no literal matching scheme is supported on the target"
  | .unknownScheme id => s!"unknown literal matching scheme id {id}"
  | .domainOutside domain =>
    s!"hashing domain {domain} is outside the supported range {minDomain}..={maxDomain}"
  | .tooBig => "literal table exceeds the 4GB offset limit"
  | .unwritten _ => "error serializing literal table"
  | .broken fault => fault.message?.getD ""

/-- The literals could be built for another target. -/
def isNoScheme : TableError → Bool
  | .noScheme => true
  | _ => false

/-- The error behind the error. -/
def source? : TableError → Option WriteError
  | .unwritten error => some error
  | _ => none

def ofFailure : Failure WriteError → TableError
  | .refused error => .unwritten error
  | .fault fault => .broken fault

end TableError

end Multimatch
