import Multimatch.EndOfData.State
import Multimatch.EndOfData.Watch
import Multimatch.Scan.Basic

/-!
# A pass in progress

A pass works on a `Session` (a stream, working space, the caller) on some `Occasion` (an engine
and the data that has ended). What it shares between its steps is the `Pass`. Everything that
leaves the library goes into the journal, in order: reports to the caller and what automata were
asked to do. So does what led there: actions that were run, automata that were triggered and roles
that were fired. Reports are passed on until the caller halts, and never after.
-/

namespace Multimatch

/-- Whether the data is one whole buffer or the end of a stream. -/
inductive Mode where
  | block
  | streaming
deriving DecidableEq, Repr

/-- What happened in a pass. -/
inductive JournalEntry where
  | report (offset : Nat) (id : ReportId) (control : Control)
  /-- An automaton got the signal for a report that it had made. -/
  | told (queue : Nat) (control : Control)
  | expanded (queue : Nat) (short : Bytes) (offset : Nat) (key : UInt8) (full : Bytes)
  /-- An automaton was asked for the reports of its final state. -/
  | asked (queue : Nat) (full short : Bytes) (offset : Nat)
  | executed (queue : Nat) (events : List QueueEvent) (full : Bytes) (alive : Bool)
  | prepared (queue : Nat) (full : Bytes)
  /-- The action of a literal was run at an offset, be it that it does something there or not. -/
  | acted (offset : Nat) (id : LiteralId)
  /-- An action triggered an automaton at a place. -/
  | triggered (queue : Nat) (location : Int64)
  | fired (role : RoleId)
deriving DecidableEq, Repr

/-- What a pass is done with: a stream, working space, and the caller, whose state is a `σ`. -/
structure Session (σ : Type) where
  stream : StreamState
  scratch : Scratch
  caller : σ
  journal : List JournalEntry := []

/-- What a pass is done for. -/
structure Occasion (σ : Type) where
  engine : Engine
  mode : Mode
  /-- The whole buffer, or what is left of the stream's history. It ends at `offset`. -/
  data : Bytes
  offset : Nat
  callback : σ → Nat → ReportId → Control × σ
  /-- How the bytes of triggers are looked for. -/
  search : ByteSearch := .plain

/-- A pass in progress. -/
structure Pass (σ : Type) extends Session σ where
  halted : Bool
  groups : Groups
  lastEnd : Nat
  caughtUpTo : Nat

/-- A step of a pass. -/
abbrev PassM (σ : Type) := EStateM Fault (Pass σ)

namespace Occasion

variable {σ : Type}

def dataStart (occasion : Occasion σ) : Nat := occasion.offset - occasion.data.size

/-- The length of the current buffer: a stream has none left. -/
def bufferLength (occasion : Occasion σ) : Nat :=
  match occasion.mode with
  | .block => occasion.data.size
  | .streaming => 0

def bufferStart (occasion : Occasion σ) : Nat := occasion.offset - occasion.bufferLength

/-- The place of an offset, counted from the start of the current buffer: a difference of numbers
that have 64 bits, of which one is the sign. -/
def locate (occasion : Occasion σ) (offset : Nat) : Int64 :=
  .ofNat offset - .ofNat occasion.bufferStart

/-- The triggers of which some group is live, in place of those enabled before. -/
def enabledTriggers (occasion : Occasion σ) (groups : Groups) (enabled : List Bool) : List Bool :=
  (List.zipWith (fun _ trigger => trigger.groups.meets groups) enabled occasion.engine.triggers)
    ++ enabled.drop occasion.engine.triggers.length

def start (occasion : Occasion σ) (session : Session σ) : Pass σ :=
  { session with
    scratch := { session.scratch with
      triggered := session.scratch.triggered.clear
      delayed := []
      enabled := occasion.enabledTriggers session.stream.groups session.scratch.enabled }
    halted := false
    groups := session.stream.groups
    lastEnd := match occasion.mode with
      | .block => session.stream.lastEnd
      | .streaming => occasion.offset
    caughtUpTo := match occasion.mode with
      | .block => occasion.dataStart
      | .streaming => occasion.offset }

end Occasion

namespace PassM

variable {σ : Type}

def note (entry : JournalEntry) : PassM σ Unit :=
  modify fun pass => { pass with journal := entry :: pass.journal }

/-- Replaces the working space by what a step makes of it. -/
def changeScratch (step : Scratch → Except Fault Scratch) : PassM σ Unit := do
  let pass ← get
  let scratch ← step pass.scratch
  set { pass with scratch }

/-- Replaces the flags of roles by what a step makes of them. -/
def changeRoles (step : FlagSet → Except Fault FlagSet) : PassM σ Unit := do
  let pass ← get
  let roles ← step pass.stream.roles
  set { pass with stream := { pass.stream with roles } }

/-- Replaces the active queues by what a step makes of them. -/
def changeLeaves (step : FlagSet → Except Fault FlagSet) : PassM σ Unit := do
  let pass ← get
  let leaves ← step pass.stream.leaves
  set { pass with stream := { pass.stream with leaves } }

end PassM

namespace Occasion

variable {σ : Type} (occasion : Occasion σ)

/-- Reports to the caller, unless the caller has halted. -/
def report (offset : Nat) (id : ReportId) : PassM σ Control := do
  let pass ← get
  if pass.halted then return .halt
  let (control, caller) := occasion.callback pass.caller offset id
  set { pass with
    caller, halted := control.isHalt, journal := .report offset id control :: pass.journal }
  return control

/-- Holds a dialogue: passes every report on and tells the automaton the signal for it. -/
def converse (queue : Nat) : Dialogue → PassM σ Control
  | .done control => pure control
  | .fault fault => throw fault
  | .ask offset id next => do
    let control ← occasion.report offset id
    PassM.note (.told queue control)
    converse queue (next control)

/-- Asks an automaton for the reports of its final state. An automaton that goes on after a halt
does not hide it. -/
def askFinal (queue : Nat) (slot : Slot) (full short : Bytes) : PassM σ Control := do
  PassM.note (.asked queue full short occasion.offset)
  let control ← occasion.converse queue (slot.automaton.finalReports full short occasion.offset)
  return if (← get).halted then .halt else control

def switchOn (id : RoleId) : PassM σ Unit := do
  match (← occasion.engine.role id).state? with
  | some state => PassM.changeRoles (·.insert state)
  | none => pure ()

def switchAllOn : List RoleId → PassM σ Unit
  | [] => pure ()
  | id :: ids => do
    occasion.switchOn id
    switchAllOn ids

/-- Enables the triggers of which some group is live. -/
def enableTriggers : PassM σ Unit :=
  modify fun pass => { pass with scratch := { pass.scratch with
    enabled := occasion.enabledTriggers pass.groups pass.scratch.enabled } }

/-- Switches on the roles of the enabled triggers whose byte is in the window. -/
def pullTriggers (window : Bytes) : PassM σ Unit := do
  let pulled ← occasion.engine.pulled occasion.search (← get).scratch.enabled window
  occasion.switchAllOn pulled

/-- Looks for triggers in the data up to an offset, from where this was done last. -/
def catchUp (upTo : Nat) : PassM σ Unit := do
  let first := max (← get).caughtUpTo occasion.dataStart
  let start := first - occasion.dataStart
  let stop := min (upTo - occasion.dataStart) occasion.data.size
  if first < upTo ∧ start < stop then occasion.pullTriggers (occasion.data.extract start stop)
  modify fun pass => { pass with caughtUpTo := max pass.caughtUpTo upTo }

def switchAllOff : List Nat → PassM σ Unit
  | [] => pure ()
  | state :: states => do
    PassM.changeRoles (·.erase state)
    switchAllOff states

/-- Switches off the roles that need the last byte, unless the last literal ended at the offset. -/
def dropLastByteRoles (offset : Nat) : PassM σ Unit := do
  if (← get).lastEnd ≠ offset then switchAllOff occasion.engine.lastByteStates

/-- Prepares an automaton that is triggered for the first time: no event of an earlier call
counts. -/
def prepare (queue : Nat) (slot : Slot) : PassM σ Unit := do
  let triggered ← (← get).scratch.triggered.insert queue
  PassM.changeScratch fun scratch => .ok { scratch with triggered }
  PassM.changeScratch (·.clearQueue queue)
  let full ← (← get).scratch.fullOf occasion.engine queue
  let full ← slot.automaton.prepare full
  PassM.changeScratch (·.setFull occasion.engine queue full)
  PassM.note (.prepared queue (← (← get).scratch.fullOf occasion.engine queue))

/-- Triggers the automaton of a queue at an offset. -/
def trigger (offset : Nat) (queue : QueueId) : PassM σ Unit := do
  let slot ← occasion.engine.slot queue.toNat
  let isTriggered ← (← get).scratch.triggered.contains queue.toNat
  if !isTriggered then occasion.prepare queue.toNat slot
  PassM.changeLeaves (·.insert queue.toNat)
  PassM.changeScratch (·.pushEvent queue.toNat ⟨.top, occasion.locate offset⟩)
  PassM.note (.triggered queue.toNat (occasion.locate offset))

def triggerAll (offset : Nat) : List QueueId → PassM σ Unit
  | [] => pure ()
  | queue :: queues => do
    occasion.trigger offset queue
    triggerAll offset queues

/-- Does what an action does once its reports are out. -/
def settle (offset : Nat) (action : Action) : PassM σ Control := do
  occasion.switchAllOn action.roles
  occasion.triggerAll offset action.suffixes
  modify fun pass => { pass with groups := pass.groups.without action.squash }
  return .proceed

/-- Runs the action of a literal that ended at an offset, whatever its delay. -/
def runAction (offset : Nat) (id : LiteralId) : PassM σ Control := do
  let some action := occasion.engine.actions.find? id | return .proceed
  PassM.note (.acted offset id)
  if action.onlyAtEnd ∧ offset ≠ occasion.offset then return .proceed
  Control.andThen (Control.visitAll (occasion.report offset) action.reports)
    (occasion.settle offset action)

/-- The offset at which an action is due that waits for some bytes: offsets have 64 bits. -/
def dueAt (offset delay : Nat) : Nat := (offset + delay) % Reader.wordLimit

/-- Runs the action of a literal if one of its groups is live, or puts it off if it has to wait. An
action at the end of the data has nothing to wait for. -/
def runOrDelay (offset : Nat) (id : LiteralId) (isEndEvent : Bool) : PassM σ Control := do
  let some action := occasion.engine.actions.find? id | return .proceed
  if !action.groups.meets (← get).groups then return .proceed
  if 0 < action.delay ∧ !isEndEvent then
    PassM.changeScratch fun scratch =>
      .ok { scratch with delayed := Delayed.insert ⟨dueAt offset action.delay, id⟩ scratch.delayed }
    return .proceed
  occasion.runAction offset id

/-- Runs the waiting actions that are due by an offset. After a halt none is left to wait. -/
def runDelayed (upTo : Nat) : PassM σ Control := do
  let due := (← get).scratch.delayed.takeWhile (·.due ≤ upTo)
  let control ← Control.visitAll (fun delayed => occasion.runAction delayed.due delayed.id) due
  PassM.changeScratch fun scratch =>
    .ok { scratch with delayed := match control with
      | .halt => []
      | .proceed => scratch.delayed.drop due.length }
  return control

/-- Takes in a literal that ends in the data: what is due by then comes first. -/
def onLiteral (matchEnd : Nat) (id : LiteralId) : PassM σ Control := do
  let offset := occasion.dataStart + matchEnd
  Control.andThen (occasion.runDelayed offset) do
    modify fun pass => { pass with lastEnd := offset }
    occasion.runOrDelay offset id false

def sink : Sink (Pass σ) := ⟨(·.groups), occasion.onLiteral⟩

end Occasion

end Multimatch
