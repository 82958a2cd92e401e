import Multimatch.Literal.Basic
import Multimatch.Scheme.Basic

/-!
# The cost of a scheme

The cost of scanning a kilobyte is estimated from two facts about the literals: how many there are
and how long the shortest one is. Each term is a definition of its own. All of them fit 64 bits for
any literal set that fits a machine, so that they are plain natural numbers here.
-/

namespace Multimatch

/-- What the cost of a scheme depends on. -/
structure LiteralStats where
  count : Nat
  minLength : Nat
deriving DecidableEq, Repr

/-- The facts about a list of literals. Without literals the shortest length counts as one. -/
def LiteralStats.of (literals : List Literal) : LiteralStats :=
  ⟨literals.length, (literals.map Literal.length).min?.getD 1⟩

namespace Scheme

/-- Wide words are a bit slower to probe. -/
def wordCost (scheme : Scheme) : Nat :=
  if scheme.width = 32 ∨ scheme.width = 64 then 2 else 3

/-- The cost of the probes: a longer stride needs fewer. -/
def probeCost (scheme : Scheme) : Nat := 1024 * scheme.wordCost / scheme.stride

def bucketLoad (scheme : Scheme) (stats : LiteralStats) : Nat :=
  (stats.count + scheme.buckets - 1) / scheme.buckets

/-- How often the literals of a bucket clear its bits: once for each alignment. -/
def occupancy (scheme : Scheme) (stats : LiteralStats) : Nat :=
  scheme.bucketLoad stats * scheme.stride

/-- The probes that tell a candidate apart. -/
def window (scheme : Scheme) (stats : LiteralStats) : Nat :=
  max 1 (min stats.minLength (scheme.bucketWidth / scheme.stride))

/-- Each probe after the first makes a candidate sixteen times rarer, up to a bound. -/
def windowShift (scheme : Scheme) (stats : LiteralStats) : Nat :=
  min 20 (4 * (scheme.window stats - 1))

/-- The chance that a probe flags a bucket, in units of `2 ^ -20`. -/
def flagged (scheme : Scheme) (stats : LiteralStats) : Nat :=
  ((scheme.occupancy stats <<< 20) >>> scheme.bits) >>> scheme.windowShift stats

def confirmCost (scheme : Scheme) (stats : LiteralStats) : Nat :=
  (scheme.flagged stats * scheme.buckets * 1024) >>> 20

/-- The cost of the memory that the table takes. -/
def memoryCost (scheme : Scheme) : Nat := scheme.tableSize / 64

/-- What a stride longer than the shortest literal costs: some positions tell nothing apart. -/
def stridePenalty (scheme : Scheme) (stats : LiteralStats) : Nat :=
  if stats.minLength < scheme.stride then 1 <<< 30 else 0

/-- The cost of a scheme for literals of which these facts hold. -/
def costOf (scheme : Scheme) (stats : LiteralStats) : Nat :=
  scheme.probeCost + scheme.confirmCost stats + scheme.memoryCost + scheme.stridePenalty stats

/-- The estimated cost of scanning a kilobyte for the literals. -/
def cost (scheme : Scheme) (literals : List Literal) : Nat := scheme.costOf (.of literals)

end Scheme

end Multimatch
