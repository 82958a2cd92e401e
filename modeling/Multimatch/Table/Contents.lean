import Multimatch.Table.Buckets
import Multimatch.Table.Confirm
import Multimatch.Table.Flood
import Multimatch.Table.Header
import Multimatch.Table.Primary

/-!
# The contents of a table

What a table holds, apart from any layout in bytes: the words of its primary table, the confirm
lists and the flood records. `Contents.ofLiterals` computes them and `Contents.body` lays them out
one region after the other.
-/

namespace Multimatch

/-- What a table holds. -/
structure Contents where
  scheme : Scheme
  maxLength : Nat
  /-- The words of the primary table, by key. -/
  words : List Nat
  confirm : ConfirmLists
  flood : FloodIndex
deriving DecidableEq, Repr

namespace Contents

/-- The contents for literals that are spread over the given buckets. -/
def ofBuckets (scheme : Scheme) (literals : List Literal) (buckets : List (List Literal)) :
    Contents :=
  { scheme
    maxLength := Literal.maxLength literals
    words := Primary.words scheme buckets
    confirm := ConfirmLists.of scheme buckets
    flood := FloodIndex.of scheme literals }

def ofLiterals (scheme : Scheme) (literals : List Literal) : Contents :=
  ofBuckets scheme literals (Buckets.assign scheme literals)

def confirmOffset (contents : Contents) : Nat := Header.encodedLength + contents.scheme.tableSize

def floodOffset (contents : Contents) : Nat :=
  contents.confirmOffset + contents.confirm.encodedLength

def bodyLength (contents : Contents) : Nat := contents.floodOffset + contents.flood.encodedLength

/-- One more than the largest size or offset that a header holds. -/
def offsetLimit : Nat := 1 <<< 32

/-- The header of the table. Sizes and offsets have 32 bits. -/
def header (contents : Contents) : Header :=
  { schemeId := contents.scheme.id
    size := contents.bodyLength % offsetLimit
    maxLength := contents.maxLength % offsetLimit
    floodOffset := contents.floodOffset % offsetLimit
    confirmOffset := contents.confirmOffset
    domain := contents.scheme.bits
    wordLength := contents.scheme.wordLength
    keyMask := contents.scheme.keyMask
    tableSize := contents.scheme.tableSize }

def encodedWords (endian : Endian) (contents : Contents) : List UInt8 :=
  contents.words.flatMap (endian.encode contents.scheme.wordLength)

def body (endian : Endian) (contents : Contents) : List UInt8 :=
  contents.header.encode endian ++ contents.encodedWords endian
    ++ contents.confirm.encode endian ++ contents.flood.encode endian

end Contents

end Multimatch
