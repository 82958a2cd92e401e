import Multimatch.Groups
import Multimatch.Ident

/-!
# Actions

An action is what a literal does where it ends: it fires reports, switches roles on, triggers
suffix automata and at last switches groups off. It may wait for some bytes more, and it may be
meant for the end of the data only.
-/

namespace Multimatch

/-- What a literal does where it ends. -/
structure Action where
  /-- The bytes that have to follow first. -/
  delay : Nat := 0
  /-- The action runs while one of these groups is live. -/
  groups : Groups := Groups.all
  /-- The action runs only where the data ends. -/
  onlyAtEnd : Bool := false
  reports : List ReportId := []
  roles : List RoleId := []
  /-- The queues of the automata that it triggers. -/
  suffixes : List QueueId := []
  /-- The groups that it switches off. -/
  squash : Groups := Groups.none
deriving DecidableEq, Repr

/-- The actions of literals, by identifier. -/
abbrev Actions := List (LiteralId × Action)

namespace Actions

def find? (actions : Actions) (id : LiteralId) : Option Action := actions.lookup id

/-- The actions with that of one literal set, in place of the one that it had. -/
def insert (id : LiteralId) (action : Action) : Actions → Actions
  | [] => [(id, action)]
  | (other, known) :: actions =>
    if id.toNat < other.toNat then (id, action) :: (other, known) :: actions
    else if id = other then (id, action) :: actions
    else (other, known) :: insert id action actions

end Actions

end Multimatch
