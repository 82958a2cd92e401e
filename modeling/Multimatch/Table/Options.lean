import Multimatch.Scheme.Target

/-!
# Build options

An option that is not set leaves the choice to whoever comes before: merging two sets of options
prefers the later one wherever it says something. That no scheme or domain is forced can be said
too.
-/

namespace Multimatch

/-- What may be asked for when a table is built. -/
structure Options where
  small? : Option Bool := none
  target? : Option Target := none
  scheme? : Option (Option Nat) := none
  domain? : Option (Option Nat) := none
deriving DecidableEq, Repr

namespace Options

/-- The options of `later`, and where it is silent those of `earlier`. -/
def merge (earlier later : Options) : Options :=
  { small? := later.small?.or earlier.small?
    target? := later.target?.or earlier.target?
    scheme? := later.scheme?.or earlier.scheme?
    domain? := later.domain?.or earlier.domain? }

def small (options : Options) : Bool := options.small?.getD false

def target (options : Options) : Target := options.target?.getD .none

/-- The number of the scheme that is forced, if any. -/
def forcedScheme? (options : Options) : Option Nat := options.scheme?.getD none

/-- The number of hash bits that is forced, if any. -/
def forcedDomain? (options : Options) : Option Nat := options.domain?.getD none

end Options

end Multimatch
