import Multimatch.Literal.Basic
import Multimatch.Scheme.Basic

/-!
# The primary table

The primary table has a word for every hash key, and a key is made of two adjacent bytes. A bit of a
word is clear if some literal of its bucket allows a candidate there. The bit for position `p` of a
bucket of width `w` says whether the literal byte that sits `w - 1 - p` places back from the end of
the candidate can be the second byte of the pair, preceded by the first. Places that fall outside a
literal tell nothing, so that their bit is clear in every word.
-/

namespace Multimatch.Primary

def without (word mask : Nat) : Nat := word ^^^ (word &&& mask)

def keyOf (scheme : Scheme) (first second : UInt8) : Nat :=
  ((first.toNat <<< 8) ||| second.toNat) &&& scheme.keyMask

def allBytes : List UInt8 := (List.range 256).map UInt8.ofNat

/-- The byte of a literal of the given length that a position looks at. Probes are `stride` bytes
apart, and within a stride the later bytes of the literal are nearer to the probe. -/
def indexAt? (scheme : Scheme) (length position : Nat) : Option Nat :=
  let back := scheme.bucketWidth - 1 - position
  let index : Int := length - 1 + (back % scheme.stride : Nat)
    - (back / scheme.stride * scheme.stride : Nat)
  if 0 ≤ index ∧ index < length then some index.toNat else none

/-- The bytes that may come before position `index` of a literal. -/
def bytesBefore (literal : Literal) (index : Nat) : List UInt8 :=
  if index = 0 then allBytes else literal.variantsAt (index - 1)

/-- The keys of the pairs of bytes that may end at position `index` of a literal. -/
def keysAt (scheme : Scheme) (literal : Literal) (index : Nat) : List Nat :=
  (literal.variantsAt index).flatMap fun second =>
    (bytesBefore literal index).map fun first => keyOf scheme first second

/-- What one position of one literal does to the words: it clears a bit under some keys, or under
every key. -/
structure Clearing where
  bit : Nat
  keys? : Option (List Nat)
deriving Repr

/-- What the positions of a literal in the given bucket do. -/
def clearingsOf (scheme : Scheme) (bucket : Nat) (literal : Literal) : List Clearing :=
  (List.range scheme.bucketWidth).map fun position =>
    ⟨scheme.bitAt bucket position,
      (indexAt? scheme literal.length position).map (keysAt scheme literal)⟩

/-- What all literals do. -/
def clearings (scheme : Scheme) (buckets : List (List Literal)) : List Clearing :=
  buckets.zipIdx.flatMap fun (literals, bucket) =>
    literals.flatMap (clearingsOf scheme bucket)

def clearKeys (bit : Nat) (words : Array Nat) (keys : List Nat) : Array Nat :=
  keys.foldl (fun words key => words.modify key (without · (1 <<< bit))) words

/-- The bits that are clear in every word. -/
def wildcard (clearings : List Clearing) : Nat :=
  clearings.foldl (fun mask clearing =>
    if clearing.keys?.isNone then mask ||| (1 <<< clearing.bit) else mask) 0

def words (scheme : Scheme) (buckets : List (List Literal)) : List Nat :=
  let all := clearings scheme buckets
  let keyed := all.foldl (fun words clearing =>
    clearKeys clearing.bit words (clearing.keys?.getD []))
    (Array.replicate scheme.entries scheme.fullWord)
  keyed.toList.map (without · (wildcard all))

end Multimatch.Primary
