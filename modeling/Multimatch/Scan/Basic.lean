import Multimatch.Scan.Candidate
import Multimatch.Scan.Sink

/-!
# Scanning

A scan visits the ends in a buffer in ascending order and reports every literal that ends there,
by ascending identifier. It works on a text, the history followed by the buffer, with one probe
for every stride: the state is shifted on by a stride and joined with the word under the key of
the two bytes at the probe. A bucket may end a literal where its bit is clear afterwards.

Inside a long run of one byte the flood record of the byte says what ends, so that no probe is
needed. The decision is `Scanner.floodAt`; where it says no, it also says from where on it is
worth asking again.
-/

namespace Multimatch

/-- What a scan is given. -/
structure ScanInput where
  buffer : Bytes
  history : Bytes := #[]
  /-- What comes before the buffer for literals without regard to case. -/
  caselessHistory : Bytes := #[]
  /-- Matches are reported if their last byte is at this offset of the buffer or after it. -/
  start : Nat := 0
  /-- The flood path may be taken from this offset of the buffer on. -/
  floodFrom : Nat := 0

/-- What stays the same during a scan. -/
structure Scanner where
  table : LiteralTable
  /-- The confirm lists, which are decoded once: a scan looks at the same entries again and again.
  -/
  confirm : ConfirmLists
  flood : FloodRegion
  cased : View
  caseless : View
  /-- The first place that both histories reach back to. -/
  reach : Nat
  /-- The first place where the flood path may be taken. -/
  floodFrom : Nat

/-- How far a scan has come. -/
structure ScanCursor where
  /-- The words of the last probes, shifted over each other. -/
  state : Nat
  /-- The next last byte of a match. -/
  next : Nat
  /-- The flood path is not taken before this place. -/
  noFloodUntil : Nat
deriving DecidableEq, Repr

/-- What becomes of the flood path at a place. -/
inductive FloodDecision where
  /-- It is not taken, and need not be tried before `resume`. -/
  | skip (resume : Nat)
  /-- It is taken for the run from `start` to `stop`. -/
  | take (record : FloodRecord) (start stop : Nat)
deriving Repr

namespace Scanner

/-- A run has to go on for so many bytes for the flood path to pay. -/
def minAhead : Nat := 16

/-- The scanner of a table for an input. The place where floods start to count has 64 bits. -/
def of (table : LiteralTable) (input : ScanInput) : Except Fault Scanner := do
  let confirm ← (← table.confirmRegion).lists
  let flood ← table.floodRegion
  return {
    table, confirm, flood
    cased := .of input.history input.buffer
    caseless := .of input.caselessHistory input.buffer
    reach := input.history.size - min input.history.size input.caselessHistory.size
    floodFrom := (input.history.size + input.floodFrom) % Reader.wordLimit }

def length (scanner : Scanner) : Nat := scanner.cased.text.size

/-- The end that belongs to a last byte, counted from the start of the buffer. -/
def endOf (scanner : Scanner) (place : Nat) : Nat := place + 1 - scanner.cased.origin

/-- Where the run of a byte that includes the byte at `place` starts, as far as both histories
reach. -/
def runStart (scanner : Scanner) (byte : UInt8) : Nat → Nat
  | 0 => 0
  | place + 1 =>
    if scanner.reach < place + 1 ∧ scanner.cased.text[place]? = some byte then
      runStart scanner byte place
    else place + 1

/-- Where the run of a byte stops that goes on at `place`, looking at no more than `count` bytes. -/
def runStop (scanner : Scanner) (byte : UInt8) : (count place : Nat) → Nat
  | 0, place => place
  | count + 1, place =>
    if scanner.cased.text[place]? = some byte then runStop scanner byte count (place + 1)
    else place

/-- Whether the flood path is taken at a place. The run behind it, the byte at the place included,
has to cover the suffix, and enough of the run has to be left. -/
def floodAt (scanner : Scanner) (place : Nat) : Except Fault FloodDecision := do
  let byte ← scanner.cased.text.byteAt place
  let some record ← scanner.flood.record? byte | return .skip (place + 1)
  let start := scanner.runStart byte place
  if place - start + 1 < record.suffix then return .skip (start + record.suffix - 1)
  let stop := scanner.runStop byte (scanner.length - place) place
  if stop - place < minAhead then return .skip stop
  return .take record start stop

/-- The word for a probe. A probe past the end, or with no byte before it, rules nothing out. -/
def probeWord (scanner : Scanner) (probe : Nat) : Except Fault Nat := do
  if scanner.length ≤ probe ∨ probe = 0 then return 0
  let first ← scanner.cased.text.byteAt (probe - 1)
  let second ← scanner.cased.text.byteAt probe
  scanner.table.wordAt (((first.toNat <<< 8) ||| second.toNat) &&& scanner.table.header.keyMask)

/-- The state after a probe. -/
def shift (scanner : Scanner) (state word : Nat) : Nat :=
  let scheme := scanner.table.scheme
  ((state <<< (scheme.stride * scheme.buckets)) ||| word) &&& scheme.fullWord

/-- The literals of one bucket that end with the byte at `place`, which is `back` bytes before the
probe. -/
def bucketMatches (scanner : Scanner) (state back place : Nat) (groups : Groups) (bucket : Nat) :
    Except Fault (List LiteralId) := do
  let scheme := scanner.table.scheme
  let bit ← scheme.bitAt? bucket (scheme.bucketWidth - 1 - back)
  if state.testBit bit then return []
  scanner.confirm.confirm scheme bucket (scanner.endOf place) scanner.cased scanner.caseless groups

/-- Identifiers in ascending order, each of them once. -/
def ascending (ids : List LiteralId) : List LiteralId :=
  (ids.mergeSort fun a b => a.toNat ≤ b.toNat).eraseReps

/-- The literals that end with the byte at `place`. -/
def matchesAt (scanner : Scanner) (state back place : Nat) (groups : Groups) :
    Except Fault (List LiteralId) := do
  let found ← (List.range scanner.table.scheme.buckets).mapM
    (scanner.bucketMatches state back place groups)
  return ascending found.flatten

variable {σ : Type}

/-- Reports the literals that end with the byte at `place`. -/
def reportAt (scanner : Scanner) (sink : Sink σ) (state back place : Nat) :
    EStateM Fault σ Control := do
  let ids ← scanner.matchesAt state back place (sink.groups (← get))
  sink.deliver (scanner.endOf place) ids

/-- Reports the literals that end with the next `count` bytes, of which the first is at `place`. -/
def reportUpTo (scanner : Scanner) (sink : Sink σ) (state probe count place : Nat) :
    EStateM Fault σ Control :=
  Control.visitAll (fun place => scanner.reportAt sink state (probe - place) place)
    (List.range' place count)

/-- Reports what ends with the byte at `place` of a flood that started at `start`. -/
def reportInFlood (scanner : Scanner) (sink : Sink σ) (record : FloodRecord) (start place : Nat) :
    EStateM Fault σ Control := do
  sink.deliver (scanner.endOf place)
    (record.ending (place - start + 1) (sink.groups (← get)))

/-- Reports what ends with the next `count` bytes of a flood, of which the first is at `place`. -/
def reportFlood (scanner : Scanner) (sink : Sink σ) (record : FloodRecord)
    (start count place : Nat) : EStateM Fault σ Control :=
  Control.visitAll (scanner.reportInFlood sink record start) (List.range' place count)

/-- Makes one probe and reports every end up to it. -/
def probeStep (scanner : Scanner) (sink : Sink σ) (cursor : ScanCursor) :
    EStateM Fault σ (Control × ScanCursor) := do
  let probe := cursor.next + scanner.table.scheme.stride - 1
  let word ← scanner.probeWord probe
  let state := scanner.shift cursor.state word
  let last := min probe (scanner.length - 1)
  let control ← scanner.reportUpTo sink state probe (last + 1 - cursor.next) cursor.next
  return (control, { cursor with state, next := probe + 1 })

/-- Goes on from a cursor: along a flood, if there is one, or else by a probe. A flood leaves
nothing for the probes before its end to say. -/
def step (scanner : Scanner) (sink : Sink σ) (cursor : ScanCursor) :
    EStateM Fault σ (Control × ScanCursor) := do
  if scanner.floodFrom ≤ cursor.next ∧ cursor.noFloodUntil ≤ cursor.next then
    match ← scanner.floodAt cursor.next with
    | .skip resume => scanner.probeStep sink { cursor with noFloodUntil := resume }
    | .take record start stop =>
      let control ← scanner.reportFlood sink record start (stop - cursor.next) cursor.next
      return (control, { cursor with state := 0, next := stop })
  else scanner.probeStep sink cursor

/-- Goes on from a cursor to the end of the text. Each step gets further by at least one byte, so
that the number of bytes left bounds the number of steps. -/
def run (scanner : Scanner) (sink : Sink σ) : Nat → ScanCursor → EStateM Fault σ Control
  | 0, _ => pure .proceed
  | steps + 1, cursor =>
    if scanner.length ≤ cursor.next then pure .proceed
    else do
      match ← scanner.step sink cursor with
      | (.halt, _) => pure .halt
      | (.proceed, cursor) => run scanner sink steps cursor

end Scanner

/-- Reports every match in the input to the sink. The answer is a halt if and only if the sink
halted. -/
def LiteralTable.scan {σ : Type} (table : LiteralTable) (input : ScanInput) (sink : Sink σ) :
    EStateM Fault σ Control := do
  if input.buffer.size ≤ input.start then return .proceed
  let scanner ← Scanner.of table input
  scanner.run sink (input.buffer.size - input.start)
    ⟨0, input.history.size + input.start, 0⟩

end Multimatch
