import Multimatch.Codec.Bytes
import Multimatch.Literal.Letter

/-!
# Views of the input

A scan sees its buffer as the end of a longer text: the history carried over from earlier buffers
comes first. Places count from the start of the text, and an end is the place after its last byte.
The text may have fewer bytes before the buffer than a literal is long; what is missing matches
nothing.
-/

namespace Multimatch

/-- A history and the buffer after it. -/
structure View where
  text : Bytes
  origin : Nat

namespace View

def of (history buffer : Bytes) : View := ⟨history ++ buffer, history.size⟩

/-- The place of an end that counts from the start of the buffer. -/
def placeOf (view : View) (matchEnd : Nat) : Nat := view.origin + matchEnd

def before? (view : View) (place : Nat) : Option UInt8 :=
  if place = 0 then none else view.text[place - 1]?

/-- The byte of the needle at `index` agrees with that of the text at `start + index`. -/
def agreesAt (view : View) (start : Nat) (needle : Bytes) (nocase : Bool) (index : Nat) : Bool :=
  match needle[index]?, view.text[start + index]? with
  | some wanted, some found => Letter.agree nocase wanted found
  | _, _ => false

/-- The next `count` bytes of the needle agree with those of the text, from `index` on. The first
byte that does not settles it. -/
def agrees (view : View) (start : Nat) (needle : Bytes) (nocase : Bool) :
    (count index : Nat) → Bool
  | 0, _ => true
  | count + 1, index =>
    view.agreesAt start needle nocase index && agrees view start needle nocase count (index + 1)

/-- The needle is what ends at a place. -/
def endsWith (view : View) (place : Nat) (needle : Bytes) (nocase : Bool) : Bool :=
  decide (needle.size ≤ place) && view.agrees (place - needle.size) needle nocase needle.size 0

theorem agrees_eq_true_iff {view : View} {start : Nat} {needle : Bytes} {nocase : Bool}
    {count index : Nat} :
    view.agrees start needle nocase count index = true ↔
      ∀ offset < count, view.agreesAt start needle nocase (index + offset) = true := by
  induction count generalizing index with
  | zero => simp [agrees]
  | succ count ih =>
    rw [agrees, Bool.and_eq_true, ih]
    constructor
    · intro ⟨first, others⟩ offset below
      cases offset with
      | zero => exact first
      | succ offset =>
        have := others offset (by omega)
        rwa [Nat.add_assoc, Nat.add_comm 1] at this
    · intro every
      refine ⟨every 0 (by omega), fun offset below => ?_⟩
      have := every (offset + 1) (by omega)
      rwa [Nat.add_assoc, Nat.add_comm 1]

/-- The needle ends at a place if and only if there is room for it and every byte agrees. -/
theorem endsWith_eq_true_iff {view : View} {place : Nat} {needle : Bytes} {nocase : Bool} :
    view.endsWith place needle nocase = true ↔ needle.size ≤ place ∧
      ∀ index < needle.size,
        view.agreesAt (place - needle.size) needle nocase index = true := by
  simp only [endsWith, Bool.and_eq_true, decide_eq_true_eq, agrees_eq_true_iff, Nat.zero_add]

/-- The eight bytes that end at a place, as a word with the last byte at the top. Missing bytes are
zero. -/
def window (view : View) (place : Nat) : Nat :=
  Endian.ofLittleBytes <| (List.range 8).map fun index =>
    if place + index < 8 then 0 else view.text[place + index - 8]?.getD 0

end View

end Multimatch
