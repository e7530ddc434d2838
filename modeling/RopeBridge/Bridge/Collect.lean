import RopeBridge.Bridge.Handles

/-! Marker runs and collection. A run lets every marker whose owner is alive find again what native
code holds on behalf of the owner, and only then lets go of the values that were queued. -/

namespace RopeBridge.Bridge

def mark (s : MarkSession) (h : Handle) (b : Bridge) : MarkSession := s.add b.handles b.heap h

def markValue (me : ThreadId) (s : MarkSession) (v : Value) : StateM Bridge MarkSession := do
  let h ← wrap me v
  return mark s h (← get)

def perform (me : ThreadId) (owner : ObjectId) (s : MarkSession) (act : MarkAct) :
    ExceptT String (StateM Bridge) MarkSession := do
  match act with
  | .pointer =>
    let b ← get
    let word := ((b.heap.get? owner).bind Object.pointer?).getD 0
    return mark s ⟨word⟩ b
  | .handle h => return mark s h (← get)
  | .value v => markValue me s v
  | .previous => s.previous.foldlM (fun s v => markValue me s v) s
  | .wrap v => let _ ← wrap me v; return s
  | .keep v => modify fun b => { b with marking := b.marking.keepObject v }; return s
  | .queue vs => modify fun b => { b with marking := b.marking.enqueue vs }; return s
  | .fail reason => throw reason

/-- Does the acts of a marker up to the first that fails, and tells its reason. -/
def performAll (me : ThreadId) (owner : ObjectId) (s : MarkSession) :
    List MarkAct → StateM Bridge (MarkSession × Option String)
  | [] => return (s, none)
  | act :: rest => do
    match ← (perform me owner s act).run with
    | .ok s => performAll me owner s rest
    | .error reason => return (s, some reason)

/-- Runs one marker. If it does not fail, what it marked takes the place of what its owner held. -/
def runMarker (me : ThreadId) (m : Marker) : StateM Bridge MarkerReport := do
  let before := ((← get).heap.get? m.owner).elim [] (·.marked)
  let (s, failure) ← performAll me m.owner ⟨before, [], []⟩ m.script
  if failure.isNone then
    modify fun b => settle { b with heap := b.heap.setMarked m.owner s.marks }
  return {
    tag := m.tag, owner := m.owner, previous := before.length, marked := s.marks.length, failure }

/-- Drops the markers whose owners have died, in order; what only a dropped marker held dies with
it. -/
def dropDeadMarkers (kept : List Marker) (b : Bridge) : List Marker → Bridge
  | [] => { b with marking := { b.marking with markers := kept } }
  | m :: rest =>
    if b.heap.isAlive m.owner then dropDeadMarkers (kept ++ [m]) b rest
    else
      dropDeadMarkers kept (settle { b with marking := { b.marking with markers := kept ++ rest } })
        rest

/-- Takes over the values that are queued, to hold them until the end of a run. -/
def takeQueue (b : Bridge) : Bridge :=
  { b with
    marking := { b.marking with queue := [] }, running := b.marking.queue.flatten ++ b.running }

def liveMarkers (b : Bridge) : List Marker :=
  b.marking.markers.filter fun m => b.heap.isAlive m.owner

/-- Holds the owners of the markers that are to run, and pushes a frame for them. -/
def enterRun (me : ThreadId) (live : List Marker) (b : Bridge) : Bridge :=
  let b : Bridge := { b with running := live.map (fun m => .object m.owner) ++ b.running }
  b.updateStack me fun stack => stack.push stack.block

/-- Pops the frame of a run and goes back to what was held before it. -/
def leaveRun (me : ThreadId) (outer : List Value) (b : Bridge) : Bridge :=
  let b := b.updateStack me CallStack.pop
  { b with marking := { b.marking with runs := b.marking.runs + 1 }, running := outer }

/-- Runs every marker whose owner is alive, in the order in which they were added. The values queued
before the run are let go of at its end. -/
def runMarkers (me : ThreadId) : StateM Bridge (List MarkerReport) := do
  let outer := (← get).running
  modify takeQueue
  modify fun b => b.dropDeadMarkers [] b.marking.markers
  let live := (← get).liveMarkers
  modify (enterRun me live)
  let reports ← live.mapM (runMarker me)
  modify fun b => settle (leaveRun me outer b)
  return reports

structure Collection where
  reports : List MarkerReport
  handlesReleased : Nat
  finalized : List Finalizer

/-- Runs the markers, releases the handles of objects that have died, and runs the finalizers whose
owners have ended. -/
def collect (me : ThreadId) : StateM Bridge Collection := do
  let reports ← runMarkers me
  let released ← releaseUnreachable
  return ⟨reports, released, ← drain⟩

end RopeBridge.Bridge
