import Multimatch.Scan.View
import Multimatch.Table.Basic

/-!
# Candidates

A probe flags the buckets of which a literal may end at a place. The confirm region settles which
literals of a flagged bucket do: their groups are live, the quick check passes, and the bytes are
there. Literals without regard to case see another history than the others.
-/

namespace Multimatch

namespace ConfirmEntry

/-- The view that counts for an entry. -/
def viewFor (entry : ConfirmEntry) (cased caseless : View) : View :=
  if entry.nocase then caseless else cased

/-- The last bytes before a place pass the quick check of an entry. -/
def passesQuickCheck (entry : ConfirmEntry) (view : View) (place : Nat) : Bool :=
  view.window place &&& entry.quickMask == entry.quickValue

/-- The entry's literal ends at an end of the buffer, and one of its groups is live. -/
def isConfirmed (entry : ConfirmEntry) (cased caseless : View) (matchEnd : Nat) (groups : Groups) :
    Bool :=
  let view := entry.viewFor cased caseless
  entry.groups.meets groups && entry.passesQuickCheck view (view.placeOf matchEnd)
    && view.endsWith (view.placeOf matchEnd) entry.bytes entry.nocase

end ConfirmEntry

namespace ConfirmLists

/-- The literals of a bucket that end at an end of the buffer, by the lists of a table of the given
scheme. -/
def confirm (lists : ConfirmLists) (scheme : Scheme) (bucket matchEnd : Nat)
    (cased caseless : View) (groups : Groups) : Except Fault (List LiteralId) :=
  match cased.before? (cased.placeOf matchEnd) with
  | none => .ok []
  | some last => do
    let entries ← elementAt lists (scheme.listFor bucket last)
    return (entries.filter (·.isConfirmed cased caseless matchEnd groups)).map (·.id)

end ConfirmLists

end Multimatch
