/-!
# Literal groups

Every literal belongs to some of 64 groups, and a search has a set of live groups. What belongs to
no live group is switched off.
-/

namespace Multimatch

/-- A set of groups, one bit for each. -/
abbrev Groups := BitVec 64

namespace Groups

def all : Groups := BitVec.allOnes 64

def none : Groups := 0#64

/-- The set whose members are the low 64 bits of a number. -/
def ofNat (bits : Nat) : Groups := BitVec.ofNat 64 bits

def meets (a b : Groups) : Bool := a &&& b != 0#64

def without (a b : Groups) : Groups := a &&& ~~~b

end Groups

end Multimatch
