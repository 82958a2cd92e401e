import Multimatch.Control
import Multimatch.Fault
import Multimatch.Groups
import Multimatch.Ident

/-!
# Sinks

The receiver of matches has a state of its own. It says which groups are live, which a scan asks
once for every end, and it gets every match with its end. It may change its mind about the groups
at any match, and it may halt the scan.
-/

namespace Multimatch

/-- A receiver of matches whose state is a `σ`. -/
structure Sink (σ : Type) where
  groups : σ → Groups
  onMatch : Nat → LiteralId → EStateM Fault σ Control

namespace Sink

/-- Reports literals that end at the same place, until the sink halts. -/
def deliver {σ : Type} (sink : Sink σ) (matchEnd : Nat) (ids : List LiteralId) :
    EStateM Fault σ Control :=
  Control.visitAll (sink.onMatch matchEnd) ids

end Sink

end Multimatch
