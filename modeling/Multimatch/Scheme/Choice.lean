import Multimatch.Scheme.Cost
import Multimatch.Table.Error

/-!
# The choice of a scheme

Every known scheme that runs on the target is a candidate with every domain. The best one has the
least cost and, among equals, the smaller table, then the smaller number. For a small table the size
comes first, so that it is never bigger than the table chosen otherwise.
-/

namespace Multimatch

/-- What candidates are compared by, the most important part first. -/
structure Rank where
  first : Nat
  second : Nat
  id : Nat
  cost : Nat
deriving DecidableEq, Repr

namespace Rank

def of (scheme : Scheme) (stats : LiteralStats) (small : Bool) : Rank :=
  let cost := scheme.costOf stats
  if small then ⟨scheme.tableSize, cost, scheme.id, cost⟩
  else ⟨cost, scheme.tableSize, scheme.id, cost⟩

/-- The parts of a rank in the order of their weight. -/
def parts (rank : Rank) : List Nat := [rank.first, rank.second, rank.id, rank.cost]

/-- A rank is better if it is smaller in the first part that differs. -/
def isBetter (a b : Rank) : Bool := decide (a.parts < b.parts)

end Rank

namespace Scheme

/-- Every scheme that runs on the target, with every domain, by number and then by domain. -/
def candidates (target : Target) : List Scheme :=
  (known.filter (·.runsOn target)).flatMap fun scheme =>
    domains.map fun bits => { scheme with bits }

def best? (stats : LiteralStats) (small : Bool) : List Scheme → Option Scheme
  | [] => none
  | scheme :: schemes => some <| schemes.foldl
      (fun best next =>
        if (Rank.of next stats small).isBetter (Rank.of best stats small) then next else best)
      scheme

/-- The best scheme for the literals on the target. -/
def choose (target : Target) (literals : List Literal) (small : Bool) :
    Except TableError Scheme :=
  if literals.isEmpty then .error .noLiterals
  else
    match literals.find? Literal.isEmpty with
    | some literal => .error (.emptyLiteral literal.id)
    | none =>
      match best? (.of literals) small (candidates target) with
      | some scheme => .ok scheme
      | none => .error .noScheme

end Scheme

end Multimatch
