import RopeBridge.Session.State

/-! Session steps that mark and collect. -/

namespace RopeBridge.Session

def writeReports (reports : List MarkerReport) : Op Unit :=
  liftM <| reports.forM fun report => do
    match report.failure with
    | some reason => State.write (.markerFailed report.tag reason report.marked)
    | none =>
      let owner ← State.nameOf report.owner
      State.write (.marked report.tag owner report.previous report.marked)

namespace ScriptAct

def resolve : ScriptAct → Op MarkAct
  | pointer => return .pointer
  | handle h => return .handle (← Op.handle h)
  | value v => return .value (← Op.value v)
  | previous => return .previous
  | fail reason => return .fail reason

end ScriptAct

namespace MarkingStep

/-- Changes a mark session in its register, and tells how much it has marked. -/
def update (m : Register) (s : MarkSession) : Op Outcome := do
  Op.store m (.marking s)
  return (.marks s.marks.length, none)

/-- Changes what the marking service holds, and tells whether a batch is waiting. -/
def updateService (change : Marking → Marking) : Op Outcome := do
  Op.act (modify fun b => { b with marking := change b.marking })
  return (.truth (← Op.bridge).marking.hasPending, none)

def perform : MarkingStep → Op Outcome
  | collect => do
    let done ← Op.act (Bridge.collect (← Op.me))
    writeReports done.reports
    liftM (State.noteFinalizers done.finalized)
    return (.collected done.reports.length done.handlesReleased done.finalized.length, none)
  | runMarkers => do
    let reports ← Op.act (Bridge.runMarkers (← Op.me))
    writeReports reports
    return (.count reports.length, none)
  | addMarker owner tag script => do
    let owner ← Op.ofOption (← Op.value owner).object?
    let script ← script.mapM ScriptAct.resolve
    Op.act (modify fun b => { b with marking := b.marking.addMarker ⟨owner, tag, script⟩ })
    return (.count (← Op.bridge).marking.markers.length, none)
  | queue vs => do
    let vs ← Op.values vs
    updateService (·.enqueue vs)
  | keepObject v => do
    let v ← Op.value v
    updateService (·.keepObject v)
  | state => do
    let m := (← Op.bridge).marking
    return (.marking m.hasPending m.markers.length m.runs m.caption, none)
  | start previous => return (.nothing, some (.marking { previous := ← Op.values previous }))
  | mark m h => do update m (Bridge.mark (← Op.marking m) (← Op.handle h) (← Op.bridge))
  | markValue m v => do
    let s ← Op.marking m
    let v ← Op.value v
    update m (← Op.act (Bridge.markValue (← Op.me) s v))
  | finish m => do
    let s ← Op.marking m
    Op.drop m
    let previous ← Op.views s.previous
    return (.finished previous (← Op.views s.marks), none)

end MarkingStep

end RopeBridge.Session
