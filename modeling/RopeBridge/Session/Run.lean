import RopeBridge.Session.Marking
import RopeBridge.Session.Ropes
import RopeBridge.Session.Strings
import RopeBridge.Session.Threads
import RopeBridge.Session.Values

/-! Running a session: a list of steps on a fresh bridge. Every plain step leaves an entry in the
log. Steps that contain steps run them as a body, whose frames are popped when it ends. -/

namespace RopeBridge.Session

inductive Ending where
  | finished
  | failed (fault : Fault)
  | unwound (message : String)
  /-- A step that makes no sense, or one that ends the whole program. -/
  | unusable

namespace Plain

def perform : Plain → Op Outcome
  | make m => m.perform
  | ask r q => do return (← q.perform (← Op.rope r), none)
  | native s => s.perform
  | string v s => do s.perform (← Op.value v)
  | value s => s.perform
  | handle s => s.perform
  | marking s => s.perform
  | thread s => s.perform
  | finalizer s => s.perform
  | register s => s.perform

end Plain

open State

def store (into : Option Register) (p : Plain) : Op Answer := do
  let (answer, item) ← p.perform
  if let some r := into then
    if let some i := item then Op.store r i
  return answer

/-- Adds the passes over bytes made since the log of the ledger had a length to the counters of the
current thread, and tells them. -/
def countScans (before : Nat) : StateM State ScanCounts := fun s =>
  let log := s.bridge.ledger.log
  let scans := ScanCounts.ofLog (log.take (log.length - before))
  (scans, { s with
    bridge := s.bridge.updateThread s.thread fun t => { t with scans := t.scans.add scans } })

def runPlain (into : Option Register) (p : Plain) : StateM State Ending := do
  let before := (← get).bridge.ledger.log.length
  let result ← (store into p).run
  let scans ← countScans before
  settle
  match result with
  | .ok answer => write (.done (.ok answer) scans (← takeRan)); return .finished
  | .error (.fault fault) => write (.done (.error fault) scans (← takeRan)); return .finished
  | .error (.unwound message) => return .unwound message
  | .error .unusable => return .unusable

/-- Pops the frames that a body has pushed and left. -/
def popLeft : Nat → StateM State Unit
  | 0 => return
  | n + 1 => do
    let me := (← get).thread
    act (modify fun b => b.updateStack me CallStack.pop)
    popLeft n

def framed (body : StateM State Ending) : StateM State Ending := do
  let outer := (← get).pushed
  modify fun s => { s with pushed := 0 }
  let ending ← body
  popLeft (← get).pushed
  modify fun s => { s with pushed := outer }
  settle
  return ending

/-- Writes how a nested step ended. A failure ends the enclosing body too if it is to be
propagated. -/
def leave (name : String) (propagate : Bool) (ending : Ending) (answer : StateM State Answer) :
    StateM State Ending := do
  match ending with
  | .finished =>
    let answer ← answer
    write (.exit name (.ok answer) (← takeRan))
    return .finished
  | .failed fault =>
    write (.exit name (.error fault) (← takeRan))
    return if propagate then .failed fault else .finished
  | other => return other

def lockAnswer : StateM State Answer := return .lock (← State.lockView)

/-- What becomes of a body when the lock has been taken back after it. A failure on the way wins,
but does not stop an unwinding. A thread that stops while it unwinds ends the program. -/
def afterRelock (ending : Ending) (acquisition : Acquisition) (ran : List SafepointAction) :
    StateM State Ending := do
  noteActions ran
  match ending, acquisition with
  | .unwound _, .stopped _ => return .unusable
  | .unwound message, _ => return .unwound message
  | _, .stopped overflow => return .unwound overflow.message
  | _, .blocked => return .unusable
  | _, .interrupted fault => return .failed fault
  | ending, .taken => return ending

def runGuard (propagate : Bool) (body : StateM State Ending) : StateM State Ending := do
  write (.enter "catch")
  match ← framed body with
  | .unwound message => leave "catch" propagate .finished (return .caught message)
  | ending => leave "catch" propagate ending (return .nothing)

def runCall (block : Value) (keep : Option Value) (propagate : Bool) (body : StateM State Ending) :
    StateM State Ending := do
  write (.enter "call")
  let me := (← get).thread
  let refused (entrance : Bridge.Entrance) : StateM State Ending := do
    noteActions entrance.ran
    match entrance.acquisition with
    | .interrupted fault => return .failed fault
    | .stopped overflow => return .unwound overflow.message
    | _ => return .unusable
  let inside (entrance : Bridge.Entrance) : StateM State Ending := do
    noteActions entrance.ran
    if let some v := keep then act (modify fun b => b.updateStack me (·.keepAlive v))
    write (.inside (← State.lockView) (some ((← get).bridge.thread me).stack.depth))
    framed body
  let ending ← Bridge.callWith act me block refused inside
  settle
  leave "call" propagate ending lockAnswer

def runWithoutLock (contend propagate : Bool) (body : StateM State Ending) :
    StateM State Ending := do
  write (.enter "without_lock")
  let me := (← get).thread
  let inside : StateM State Ending := do
    write (.inside (← State.lockView) none)
    let ending ← framed body
    match ending with
    | .finished | .failed _ => if contend then act (modify Bridge.contend)
    | _ => pure ()
    return ending
  let ending ← Bridge.callWithout act me inside afterRelock
  act (modify Bridge.dismissContender)
  leave "without_lock" propagate ending lockAnswer

def runThread (propagate : Bool) (body : StateM State Ending) : StateM State Ending := do
  write (.enter "thread")
  let outer := (← get).thread
  let me ← act Bridge.startThread
  modify fun s => { s with thread := me }
  let ending ← framed body
  act (modify (Bridge.endThread me))
  modify fun s => { s with thread := outer }
  settle
  leave "thread" propagate ending (return .nothing)

def callValues (block : ValueRef) (keep : Option ValueRef) : Op (Value × Option Value) := do
  let block ← Op.value block
  return (block, ← keep.mapM Op.value)

mutual

def runStep : Step → StateM State Ending
  | .plain into p => runPlain into p
  | .raise message => return .failed (.interrupted message)
  | .panic message => return .unwound message
  | .nested n propagate body =>
    match n with
    | .guard => runGuard propagate (runSteps body)
    | .call block keep => do
      match ← (callValues block keep).run with
      | .ok (block, keep) => runCall block keep propagate (runSteps body)
      | .error _ => return .unusable
    | .withoutLock contend => runWithoutLock contend propagate (runSteps body)
    | .thread => runThread propagate (runSteps body)

/-- Runs steps up to the first that ends the body. -/
def runSteps : List Step → StateM State Ending
  | [] => return .finished
  | step :: rest => do
    match ← runStep step with
    | .finished => runSteps rest
    | ending => return ending

end

inductive Transcript where
  | log (entries : List Entry)
  /-- An unwinding met no guard. -/
  | unwound
  | unusable

/-- Runs a session on a fresh bridge. A failure that ends it is the last entry of its log. -/
def run (options : Options) (steps : List Step) : Transcript :=
  let (ending, s) := (runSteps steps).run { bridge := Bridge.ofOptions options }
  match ending with
  | .finished => .log s.log.reverse
  | .failed fault => .log (.done (.error fault) {} [] :: s.log).reverse
  | .unwound _ => .unwound
  | .unusable => .unusable

end RopeBridge.Session
