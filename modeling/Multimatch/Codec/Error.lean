import Multimatch.Ident
import Multimatch.Text.Quoted

/-!
# Errors of reading and writing

Bytes that do not hold what a reader expects are refused with a `LoadError`, told apart by cause. A
writer only fails for want of room.
-/

namespace Multimatch

/-- The buffer is too small for what should be written. -/
structure WriteError where
  what : String
deriving DecidableEq, Repr

def WriteError.message (error : WriteError) : String :=
  s!"destination buffer is too small to write {error.what}"

/-- What is wrong with the form of an object. -/
inductive Flaw where
  | labelNotFound
  | labelCutShort
  | unknownScheme
  | domainOutside
  | domainMaskMismatch
  | wordWidthMismatch
  | tableSizeMismatch
  | noLiterals
  | regionsOutside
  | confirmListOutside
  | confirmBytesOutside
  | floodRecordTooFull
  | floodRecordsMissing
  | floodIndexOutside
  | firstFloodRecordInUse
deriving DecidableEq, Repr

def Flaw.message : Flaw → String
  | .labelNotFound => "could not find NUL terminated label at start of serialized object"
  | .labelCutShort => "could not find properly sized label at start of serialized object"
  | .unknownScheme => "unknown literal matching scheme id"
  | .domainOutside => "literal table domain out of range"
  | .domainMaskMismatch => "literal table domain mask does not match its domain"
  | .wordWidthMismatch => "literal table word width does not match its scheme"
  | .tableSizeMismatch => "literal table size does not match its domain"
  | .noLiterals => "literal table has no literals"
  | .regionsOutside => "literal table region offsets out of bounds"
  | .confirmListOutside => "confirm list points outside of its region"
  | .confirmBytesOutside => "confirm literal bytes are empty or out of bounds"
  | .floodRecordTooFull => "flood record has too many literals"
  | .floodRecordsMissing => "flood region is missing its empty record"
  | .floodIndexOutside => "flood record index out of bounds"
  | .firstFloodRecordInUse => "first flood record must be empty"

/-- Why bytes were refused. -/
inductive LoadError where
  | flawed (flaw : Flaw)
  /-- The bytes end before what should be read does. -/
  | tooShort (what : String)
  | versionMismatch (expected found : Nat)
  /-- The object was written in another byte order. -/
  | endianMismatch (expected found : Nat)
  | labelMismatch (expected : String)
  | overflow (what : String)
  | badLiteralId (error : IdentError .literal)
deriving DecidableEq, Repr

/-- A number in hexadecimal, with capital digits. -/
def upperHex (value : Nat) : String :=
  String.ofList ((Nat.toDigits 16 value).map Char.toUpper)

def LoadError.message : LoadError → String
  | .flawed flaw => flaw.message
  | .tooShort what => s!"buffer is too small to read {what}"
  | .versionMismatch expected found =>
    s!"unsupported version: expected version {expected} but found version {found}"
  | .endianMismatch expected found =>
    "endianness mismatch: expected 0x" ++ upperHex expected ++ " but got 0x" ++ upperHex found
      ++ ". (Are you trying to load an object serialized with a different endianness?)"
  | .labelMismatch expected =>
    "label mismatch: start of serialized object should contain a NUL terminated "
      ++ Text.quote expected ++ " label, but a different label was found"
  | .overflow what => s!"arithmetic overflow for {what}"
  | .badLiteralId error => error.message

/-- Reading that may refuse the bytes. -/
abbrev Load := Except (Failure LoadError)

def Load.flawed {α : Type} (flaw : Flaw) : Load α := .error (.refused (.flawed flaw))

/-- Refuses the bytes for a flaw unless the condition holds. -/
def Load.require (condition : Prop) [Decidable condition] (flaw : Flaw) : Load Unit :=
  if condition then .ok () else Load.flawed flaw

end Multimatch
