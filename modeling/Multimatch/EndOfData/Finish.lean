import Multimatch.EndOfData.Pass

/-!
# The end of the data

When the last byte has been seen, some matches are still open. `finishStream` and `finishBuffer`
resolve them in a fixed order:

1. the action of the end itself,
2. the automata that were active and accept at the end,
3. the roles that are on and whose predicate holds, by a walk over the flags,
4. the literals in the last bytes, whose actions may switch on roles and trigger automata,
5. the roles that these switched on, by a second walk,
6. the automata that these triggered.

A pass ends at the first halt of the caller, and its answer is a halt exactly then.
-/

namespace Multimatch

namespace Occasion

variable {σ : Type} (occasion : Occasion σ)

/-- The last byte before the end of a stream, zero if it is not known. -/
def lastKey : UInt8 :=
  match occasion.mode with
  | .block => 0
  | .streaming => occasion.data.back?.getD 0

def expand (queue : Nat) (slot : Slot) : PassM σ Unit := do
  let pass ← get
  let full ← pass.scratch.fullOf occasion.engine queue
  let short ← pass.stream.storedOf occasion.engine queue
  let full ← slot.automaton.expand full short occasion.offset occasion.lastKey
  PassM.changeScratch (·.setFull occasion.engine queue full)
  let full ← (← get).scratch.fullOf occasion.engine queue
  PassM.note (.expanded queue short occasion.offset occasion.lastKey full)

/-- Asks an active automaton for its final reports, if it accepts at the end. -/
def askActive (queue : Nat) : PassM σ Control := do
  let slot ← occasion.engine.slot queue
  if !slot.automaton.acceptsEnd then return .proceed
  let _ ← (← get).scratch.fullOf occasion.engine queue
  let short ← (← get).stream.storedOf occasion.engine queue
  if occasion.mode = .streaming then occasion.expand queue slot
  let full ← (← get).scratch.fullOf occasion.engine queue
  occasion.askFinal queue slot full short

/-- Asks the active automata for their final reports. -/
def askAllActive : PassM σ Control := do
  let active ← (← get).stream.leaves.members
  Control.visitAll occasion.askActive active

/-- The predicate of an entry holds where the data ends. What has no predicate is not held back. -/
def predicateHolds (entry : WalkEntry) : Except Fault Bool := do
  match entry.predicate? with
  | some id => return (← occasion.engine.predicate id).holdsAt occasion.offset
  | none => return true

/-- Fires the role of an entry, unless this walk has fired it or its predicate does not hold. -/
def visitEntry (entry : WalkEntry) : PassM σ Control := do
  if (← get).scratch.handled.contains entry.role.toNat then return .proceed
  let role ← occasion.engine.role entry.role
  if !role.isSimple then
    if !(← occasion.predicateHolds entry) then return .proceed
  let (_, handled) ← (← get).scratch.handled.insert entry.role.toNat
  PassM.changeScratch fun scratch => .ok { scratch with handled }
  PassM.note (.fired entry.role)
  occasion.report occasion.offset role.report

def visitStop (stop : WalkStop) : PassM σ Control := do
  let isOn ← (← get).stream.roles.contains stop.state
  if isOn then Control.visitAll occasion.visitEntry stop.entries else return .proceed

/-- Walks over the flags in ascending order and fires the roles that they lead to, each of them
once. -/
def walk : PassM σ Control := do
  PassM.changeScratch fun scratch => .ok { scratch with handled := scratch.handled.clear }
  Control.visitAll occasion.visitStop occasion.engine.walk

/-- Looks for the literals in the last bytes of the data. Data shorter than each of them is left
alone. Actions that are still waiting at the end will not be due. -/
def scanTail (matcher : EndMatcher) : PassM σ Control := do
  if occasion.data.size < matcher.minWidth then return .proceed
  modify fun pass => { pass with caughtUpTo := occasion.dataStart }
  let start := occasion.data.size - min occasion.data.size matcher.region
  Control.andThen
    (matcher.table.scan { buffer := occasion.data, start } occasion.sink) do
      let control ← occasion.runDelayed occasion.offset
      PassM.changeScratch fun scratch => .ok { scratch with delayed := [] }
      return control

/-- Runs a triggered automaton to the end of the data and asks it for its final reports, if it
accepts at the end and is still alive there. -/
def finishSuffix (queue : Nat) : PassM σ Control := do
  let slot ← occasion.engine.slot queue
  if !slot.automaton.acceptsEnd then return .proceed
  PassM.changeScratch (·.pushEvent queue ⟨.finish, .ofNat occasion.bufferLength⟩)
  let full ← (← get).scratch.fullOf occasion.engine queue
  let events ← (← get).scratch.queue queue
  let (full, alive) ← slot.automaton.run events full
  PassM.changeScratch (·.setFull occasion.engine queue full)
  let full ← (← get).scratch.fullOf occasion.engine queue
  PassM.note (.executed queue events full alive)
  if !alive then return .proceed
  let short ← (← get).stream.storedOf occasion.engine queue
  occasion.askFinal queue slot full short

/-- Runs the triggered automata to the end of the data. -/
def finishSuffixes : PassM σ Control := do
  let active ← (← get).stream.leaves.members
  Control.visitAll occasion.finishSuffix active

/-- Forgets which roles are on and which automata are active: what they led to has been reported. -/
def forget : PassM σ Unit := do
  PassM.changeRoles fun roles => .ok roles.clear
  PassM.changeLeaves fun leaves => .ok leaves.clear
  PassM.changeScratch fun scratch => .ok { scratch with triggered := scratch.triggered.clear }
  occasion.enableTriggers

/-- Runs the action of the end itself, if it has one. -/
def runEndEvent : PassM σ Control :=
  match occasion.engine.endEvent? with
  | some id => occasion.runOrDelay occasion.offset id true
  | none => pure .proceed

/-- Resolves what the literals in the last bytes lead to. -/
def resolveTail (matcher : EndMatcher) : PassM σ Control := do
  occasion.forget
  Control.andThen (occasion.scanTail matcher) do
    occasion.dropLastByteRoles occasion.offset
    occasion.catchUp occasion.offset
    Control.andThen occasion.walk occasion.finishSuffixes

/-- Resolves the roles that are on, then the literals in the last bytes. -/
def resolveRoles : PassM σ Control :=
  match occasion.engine.matcher? with
  | some matcher => Control.andThen occasion.walk (occasion.resolveTail matcher)
  | none => if occasion.engine.walk.isEmpty then pure .proceed else occasion.walk

def resolve : PassM σ Control :=
  Control.andThen occasion.runEndEvent (Control.andThen occasion.askAllActive occasion.resolveRoles)

/-- Brings the roles up to the end of a whole buffer. -/
def settleBuffer : PassM σ Unit := do
  occasion.dropLastByteRoles occasion.offset
  modify fun pass => { pass with lastEnd := occasion.offset }
  if occasion.engine.catchesUpTriggers then occasion.catchUp occasion.offset

def body : PassM σ Control :=
  match occasion.mode with
  | .block => do
    occasion.settleBuffer
    occasion.resolve
  | .streaming => occasion.resolve

/-- Nothing can match here: no rule waits for the end, or all ends that count are passed. -/
def isIdle : Bool :=
  !occasion.engine.needsEndOfData || occasion.engine.maxWidth?.any (· < occasion.offset)

def perform : EStateM Fault (Session σ) Control := fun session =>
  if occasion.isIdle then .ok .proceed session
  else if occasion.offset < occasion.data.size then
    .error (.dataBeforeStart occasion.data.size occasion.offset) session
  else
    match occasion.body (occasion.start session) with
    | .ok control pass => .ok control pass.toSession
    | .error fault pass => .error fault pass.toSession

end Occasion

/-- Resolves what is open at the end of a stream, of which the last bytes are known. -/
def finishStream {σ : Type} (engine : Engine) (history : Bytes) (offset : Nat)
    (callback : σ → Nat → ReportId → Control × σ) (search : ByteSearch) :
    EStateM Fault (Session σ) Control :=
  Occasion.perform { engine, mode := .streaming, data := history, offset, callback, search }

/-- Resolves what is open at the end of a buffer, of which every byte is known. -/
def finishBuffer {σ : Type} (engine : Engine) (buffer : Bytes) (offset : Nat)
    (callback : σ → Nat → ReportId → Control × σ) (search : ByteSearch) :
    EStateM Fault (Session σ) Control :=
  Occasion.perform { engine, mode := .block, data := buffer, offset, callback, search }

end Multimatch
