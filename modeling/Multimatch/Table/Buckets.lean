import Multimatch.Literal.Basic
import Multimatch.Scheme.Basic

/-!
# Buckets

The literals of a table are spread over the buckets of its scheme: sorted by length, then by
identifier, and cut into runs of equal size. Literals that agree in both keep their order.
-/

namespace Multimatch.Buckets

/-- The order in which literals are cut into buckets. -/
def precedes (a b : Literal) : Bool :=
  a.length < b.length || (a.length == b.length && a.id.toNat ≤ b.id.toNat)

def sorted (literals : List Literal) : List Literal := literals.mergeSort precedes

/-- The literals of every bucket but perhaps the last ones: their number is rounded up. -/
def load (scheme : Scheme) (literals : List Literal) : Nat :=
  (literals.length + scheme.buckets - 1) / scheme.buckets

/-- Gives a literal to the bucket that its position falls into. The bucket has to exist. -/
def dealOne (load : Nat) (buckets : List (List Literal)) :
    Literal × Nat → Except Fault (List (List Literal))
  | (literal, position) => do
    let members ← elementAt buckets (position / load)
    replaceAt buckets (position / load) (members ++ [literal])

/-- Deals the literals out one after the other. -/
def deal (scheme : Scheme) (literals : List Literal) : Except Fault (List (List Literal)) :=
  (sorted literals).zipIdx.foldlM (dealOne (load scheme literals))
    (List.replicate scheme.buckets [])

/-- The buckets as runs of the sorted literals: what there is when all of them are dealt out. -/
def assign (scheme : Scheme) (literals : List Literal) : List (List Literal) :=
  (List.range scheme.buckets).map fun bucket =>
    ((sorted literals).drop (bucket * load scheme literals)).take (load scheme literals)

end Multimatch.Buckets
