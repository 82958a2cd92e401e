import Multimatch.Codec.Word

/-!
# Fields

A layout is a list of fields, and a field is a number of so many bytes or so many bytes that are
taken as they are. `Field.readAll` reads bytes by a layout, with every number in the given order of
bytes. `Field.Reads` says what a part of the bytes is read as, whatever follows it, and has a rule
for each way to put parts together: one after the other (`Reads.append`), and one for each element
of a list (`Reads.flatMap`, `Reads.numbers`).
-/

namespace Multimatch

/-- A part of the bytes before it is read. -/
inductive Field where
  /-- A number, whose bytes have the order of the whole. -/
  | number (width : Nat)
  /-- Bytes that are the same in either order. -/
  | raw (length : Nat)
deriving DecidableEq, Repr

namespace Field

/-- What a field holds. -/
inductive Value where
  | number (value : Nat)
  | raw (bytes : List UInt8)
deriving DecidableEq, Repr

def length : Field → Nat
  | .number width => width
  | .raw length => length

def read (endian : Endian) : Field → List UInt8 → Value
  | .number _, bytes => .number (endian.decode bytes)
  | .raw _, bytes => .raw bytes

/-- Reads fields one after the other, if there are bytes for all of them. The answer is what they
hold and the bytes that are left. -/
def readAll (endian : Endian) : List Field → List UInt8 → Option (List Value × List UInt8)
  | [], bytes => some ([], bytes)
  | field :: fields, bytes =>
    if bytes.length < field.length then none
    else (readAll endian fields (bytes.drop field.length)).map fun read =>
      (field.read endian (bytes.take field.length) :: read.1, read.2)

theorem readAll_append (endian : Endian) (first second : List Field) (bytes : List UInt8) :
    readAll endian (first ++ second) bytes = (readAll endian first bytes).bind fun read =>
      (readAll endian second read.2).map fun more => (read.1 ++ more.1, more.2) := by
  induction first generalizing bytes with
  | nil => simp [readAll]
  | cons field fields ih =>
    rw [List.cons_append, readAll, readAll]
    split
    · rfl
    · rw [ih, Option.map_bind, Option.bind_map]
      simp only [Function.comp_def, Option.map_map, List.cons_append]

/-- By these fields the bytes are read as these values, whatever follows them. -/
def Reads (endian : Endian) (fields : List Field) (bytes : List UInt8) (values : List Value) :
    Prop :=
  ∀ rest, readAll endian fields (bytes ++ rest) = some (values, rest)

namespace Reads

variable {endian : Endian}

theorem nil : Reads endian [] [] [] := fun _ => rfl

theorem append {first second : List Field} {before behind : List UInt8} {values more : List Value}
    (h : Reads endian first before values) (h' : Reads endian second behind more) :
    Reads endian (first ++ second) (before ++ behind) (values ++ more) := by
  intro rest
  simp only [readAll_append, List.append_assoc, h (behind ++ rest), Option.bind_some, h' rest,
    Option.map_some]

theorem number (width : Nat) {value : Nat} (hvalue : value < 1 <<< (8 * width)) :
    Reads endian [.number width] (endian.encode width value) [.number value] := by
  intro rest
  have hlength := Endian.length_encode endian width value
  have hroom : ¬ (endian.encode width value ++ rest).length < width := by
    rw [List.length_append, hlength]
    omega
  simp only [readAll, Field.length, hroom, if_false, Option.map_some, Field.read,
    List.take_left' hlength, List.drop_left' hlength, Endian.decode_encode,
    Nat.mod_eq_of_lt hvalue]

theorem raw (bytes : List UInt8) : Reads endian [.raw bytes.length] bytes [.raw bytes] := by
  intro rest
  have hroom : ¬ (bytes ++ rest).length < bytes.length := by
    rw [List.length_append]
    omega
  simp only [readAll, Field.length, hroom, if_false, Option.map_some, Field.read,
    List.take_left, List.drop_left]

/-- A number of one byte is the same in either order. -/
theorem byte (value : Nat) :
    Reads endian [.raw 1] (endian.encode 1 value) [.raw [UInt8.ofNat value]] := by
  have hbyte : endian.encode 1 value = [UInt8.ofNat value] := by cases endian <;> rfl
  rw [hbyte]
  exact raw [UInt8.ofNat value]

section Lists

variable {α : Type} {xs : List α} {fields : List Field} {encode : α → List UInt8}

/-- Parts of one kind are read one after the other. -/
theorem flatMap {values : α → List Value}
    (h : ∀ x ∈ xs, Reads endian fields (encode x) (values x)) :
    Reads endian (List.replicate xs.length fields).flatten (xs.flatMap encode)
      (xs.flatMap values) := by
  induction xs with
  | nil => exact nil
  | cons x xs ih =>
    rw [List.length_cons, List.replicate_succ, List.flatten_cons, List.flatMap_cons,
      List.flatMap_cons]
    exact (h x List.mem_cons_self).append (ih fun y hy => h y (List.mem_cons_of_mem _ hy))

theorem numbers {width : Nat} {values : List Nat}
    (h : ∀ value ∈ values, value < 1 <<< (8 * width)) :
    Reads endian (List.replicate values.length (.number width))
      (values.flatMap (endian.encode width)) (values.map .number) := by
  have hall := @flatMap endian _ values [.number width] (endian.encode width)
    (fun value => [.number value]) fun value hvalue => number width (h value hvalue)
  rwa [List.flatten_replicate_singleton, ← List.map_eq_flatMap] at hall

end Lists

end Reads

end Field

end Multimatch
