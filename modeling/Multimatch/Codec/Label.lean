import Multimatch.Codec.Reader

/-!
# The head of a saved object

A saved object starts with a label, a word that shows the byte order, and a version. The label ends
with a NUL and is padded with NULs to a multiple of eight bytes. Each part has a reader that gives
the number of bytes read, the bytes that a writer puts, and a writer into a buffer.
-/

namespace Multimatch.Codec

/-- The word that shows the byte order: its bytes differ. -/
def endianMark : Nat := 0xFEFF

def endianLength : Nat := 8

def versionLength : Nat := 8

/-- A reader looks for the end of a label among so many bytes. -/
def labelReach : Nat := 256

/-- The bytes that a label takes, with its terminator and padding. -/
def labelLength (label : String) : Except Fault Nat :=
  if 255 < label.utf8ByteSize then .error .labelTooLong
  else if label.toUTF8.toList.contains 0 then .error .labelHasNul
  else .ok (label.utf8ByteSize + 1 + paddingLength (label.utf8ByteSize + 1))

/-- The bytes of a label up to the given length. -/
def labelBytes (label : String) (length : Nat) : List UInt8 :=
  label.toUTF8.toList ++ List.replicate (length - label.utf8ByteSize) 0

/-- Puts bytes at the start of a buffer, if it has room for them. The buffer stays as it is if not.
The answer is the number of bytes put and the buffer after it. -/
def put (buffer : Bytes) (bytes : List UInt8) (what : String) :
    Except WriteError Nat × Bytes :=
  if buffer.size < bytes.length then (.error ⟨what⟩, buffer)
  else (.ok bytes.length, bytes.toArray ++ buffer.extract bytes.length)

def writeLabel (label : String) (buffer : Bytes) :
    Except Fault (Except WriteError Nat × Bytes) := do
  let length ← labelLength label
  return put buffer (labelBytes label length) "label"

/-- Reads a label from the start of the bytes and compares it with the one expected. The first NUL
ends it, and a label that ends at a multiple of eight bytes counts without its terminator. -/
def readLabel (bytes : Bytes) (expected : String) : Except LoadError Nat :=
  let reach := (bytes.extract 0 labelReach).toList
  match reach.findIdx? (· == 0) with
  | none => .error (.flawed .labelNotFound)
  | some nul =>
    let length := nul + paddingLength nul
    if bytes.size < length then .error (.flawed .labelCutShort)
    else if reach.take nul = expected.toUTF8.toList then .ok length
    else .error (.labelMismatch expected)

def endianBytes (endian : Endian) : List UInt8 := endian.encode endianLength endianMark

/-- Writes the order mark at the start of a buffer. -/
def writeEndian (endian : Endian) (buffer : Bytes) : Except WriteError Nat × Bytes :=
  put buffer (endianBytes endian) "endianness check"

/-- Reads the order mark from `place` on; it has to be in native order. -/
def readEndian (bytes : Bytes) (place : Nat) : Load Nat := do
  let mark ← Reader.tryWordAt bytes place endianLength "endianness check"
  if mark = endianMark then pure endianLength
  else throw (.refused (.endianMismatch endianMark mark))

def versionBytes (endian : Endian) (version : Nat) : List UInt8 :=
  endian.encode versionLength version

def writeVersion (endian : Endian) (version : Nat) (buffer : Bytes) :
    Except WriteError Nat × Bytes :=
  put buffer (versionBytes endian version) "version number"

/-- Reads a version from `place` on and compares it with the one expected. -/
def readVersion (bytes : Bytes) (place expected : Nat) : Load Nat := do
  let found ← Reader.tryWordAt bytes place versionLength "version"
  if found = expected then pure versionLength
  else throw (.refused (.versionMismatch expected found))

end Multimatch.Codec
