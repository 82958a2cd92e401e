import Multimatch.Scheme.Choice
import Multimatch.Table.Basic
import Multimatch.Table.Options
import Multimatch.Table.Write

/-!
# Building a table

A table can be built for every list of literals with at least one byte each, unless a scheme is
forced that does not exist or a domain that no table can have.
-/

namespace Multimatch

namespace Options

/-- The scheme forced by number or else the best one for the literals. -/
def baseScheme (options : Options) (literals : List Literal) : Except TableError Scheme :=
  match options.forcedScheme? with
  | some id =>
    match Scheme.find? id with
    | some scheme => .ok scheme
    | none => .error (.unknownScheme id)
  | none => Scheme.choose options.target literals options.small

/-- The scheme with the domain that is forced, if one is. -/
def withForcedDomain (options : Options) (scheme : Scheme) : Except TableError Scheme :=
  match options.forcedDomain? with
  | some bits =>
    if Scheme.IsDomain bits then .ok { scheme with bits } else .error (.domainOutside bits)
  | none => .ok scheme

def schemeFor (options : Options) (literals : List Literal) : Except TableError Scheme := do
  if literals.isEmpty then throw .noLiterals
  if let some literal := literals.find? Literal.isEmpty then throw (.emptyLiteral literal.id)
  options.withForcedDomain (← options.baseScheme literals)

end Options

namespace LiteralTable

/-- The largest table: offsets have 32 bits. -/
def maxSize : Nat := 4294967295

def build (options : Options) (literals : List Literal) : Except TableError LiteralTable := do
  let scheme ← options.schemeFor literals
  let buckets ← (Buckets.deal scheme literals).mapError .broken
  let contents := Contents.ofBuckets scheme literals buckets
  if maxSize < contents.bodyLength then throw .tooBig
  let buffer := Array.replicate contents.bodyLength 0
  let arena ← (contents.write .native buffer).mapError .ofFailure
  return ⟨arena, contents.header, scheme⟩

end LiteralTable

end Multimatch
