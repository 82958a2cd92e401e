/-!
# Letters and their cases

Case folding knows the ASCII letters only: a byte matches another one without regard to case if both
have the same lower case.
-/

namespace Multimatch.Letter

def isUpper (byte : UInt8) : Bool := 0x41 ≤ byte && byte ≤ 0x5a

def isLower (byte : UInt8) : Bool := 0x61 ≤ byte && byte ≤ 0x7a

def isLetter (byte : UInt8) : Bool := isUpper byte || isLower byte

/-- The small letter of a letter; other bytes stay. -/
def lower (byte : UInt8) : UInt8 := if isUpper byte then byte + 32 else byte

/-- The capital letter of a letter; other bytes stay. -/
def upper (byte : UInt8) : UInt8 := if isLower byte then byte - 32 else byte

/-- The bytes agree, up to case if `nocase` is set. -/
def agree (nocase : Bool) (a b : UInt8) : Bool :=
  if nocase then lower a == lower b else a == b

/-- The bytes that agree with a byte: it alone, or both cases of a letter. -/
def variants (nocase : Bool) (byte : UInt8) : List UInt8 :=
  if nocase && isLetter byte then [lower byte, upper byte] else [byte]

end Multimatch.Letter
