import Multimatch.Codec.Bytes
import Multimatch.Codec.Error

/-!
# Checked reading

Readers that refuse bytes that are too short, and sums and products that refuse what does not fit 64
bits. A reader gets the position where its slice of the bytes starts; that one has to exist.
-/

namespace Multimatch.Reader

def wordLimit : Nat := 1 <<< 64

def checkLength (length atLeast : Nat) (what : String) : Except LoadError Unit :=
  if length < atLeast then .error (.tooShort what) else .ok ()

/-- The word of `width` bytes that starts at `place`. -/
def tryWordAt (bytes : Bytes) (place width : Nat) (what : String) : Load Nat := do
  if bytes.size < place then throw (.fault (.outOfBounds place bytes.size))
  checkLength (bytes.size - place) width what
  bytes.wordAt place width

/-- The literal identifier that starts at `place`. -/
def tryLiteralIdAt (bytes : Bytes) (place : Nat) (what : String) : Load LiteralId := do
  let value ← tryWordAt bytes place Ident.byteSize what
  match Ident.ofNat value with
  | .ok id => pure id
  | .error error => throw (.refused (.badLiteralId error))

def multiply (a b : Nat) (what : String) : Except LoadError Nat :=
  if a * b < wordLimit then .ok (a * b) else .error (.overflow what)

def add (a b : Nat) (what : String) : Except LoadError Nat :=
  if a + b < wordLimit then .ok (a + b) else .error (.overflow what)

end Multimatch.Reader
