import RopeBridge.Session.State

/-! Session steps on frames, the extension lock, safepoints, finalizers and registers. -/

namespace RopeBridge.Session

namespace Op

def lockView : Op LockView := liftM State.lockView

def stack : Op CallStack := return ((← bridge).thread (← me)).stack

def updateStack (f : CallStack → CallStack) : Op Unit := do
  let me ← me
  act (modify fun b => b.updateStack me f)

def safepoints : Op (List SafepointAction) := return ((← bridge).thread (← me)).safepoints

end Op

namespace ThreadStep

/-- Goes on once the lock has been taken. -/
def settled (outcome : Acquisition × List SafepointAction) : Op Unit := do
  liftM (State.noteActions outcome.2)
  match outcome.1 with
  | .taken => return
  | .interrupted fault => throw (.fault fault)
  | .stopped overflow => throw (.unwound overflow.message)
  | .blocked => Op.unusable

def perform : ThreadStep → Op Outcome
  | push block => do
    let block ← Op.value block
    Op.updateStack (·.push block)
    modify fun s => { s with pushed := s.pushed + 1 }
    return (.count (← Op.stack).depth, none)
  | pop => do
    let pushed := (← get).pushed
    if 0 < pushed then
      Op.updateStack CallStack.pop
      modify fun s => { s with pushed := pushed - 1 }
    return (.popped (0 < pushed) (← Op.stack).depth, none)
  | stack => do
    let s ← Op.stack
    let block ← Op.view s.block
    return (.stack s.depth block (← Op.views s.kept), none)
  | keepAlive v => do
    let v ← Op.value v
    Op.updateStack (·.keepAlive v)
    return (.count (← Op.stack).kept.length, none)
  | keepInBridge v => do
    let v ← Op.value v
    let me ← Op.me
    Op.act (modify (Bridge.keepAlive me v))
    return (.count (← Op.stack).kept.length, none)
  | lock => do
    settled (← Op.act (Bridge.acquireLock (← Op.me)))
    return (.lock (← Op.lockView), none)
  | unlock => do
    match ← Op.act (Bridge.unlock (← Op.me)) with
    | some overflow => throw (.unwound overflow.message)
    | none => return (.lock (← Op.lockView), none)
  | lockState => return (.lock (← Op.lockView), none)
  | releaseAll => do
    let levels ← Op.act (Bridge.releaseLock (← Op.me))
    return (.released levels (← Op.lockView), none)
  | reacquire count => do
    settled (← Op.act (Bridge.reacquireLock (← Op.me) count))
    return (.lock (← Op.lockView), none)
  | post tag failure releases => do
    let me ← Op.me
    let action : SafepointAction := { tag, releases, failure }
    Op.act (modify fun b =>
      b.updateThread me fun t => { t with safepoints := t.safepoints ++ [action] })
    return (.truth (!(← Op.safepoints).isEmpty), none)
  | poll => do
    let (failure, ran) ← Op.act (Bridge.poll (← Op.me))
    liftM (State.noteActions ran)
    match failure with
    | some fault => throw (.fault fault)
    | none => return (.count ran.length, none)
  | safepoints => do
    let waiting := (← Op.safepoints).length
    return (.safepoints (waiting ≠ 0) ("SafepointQueue \x7b " ++ s!"pending: {waiting} \x7d"), none)

end ThreadStep

namespace FinalizerStep

def ownerOf : Item → Option Owner
  | .token id => some (.token id)
  | .value v => v.object?.map .object
  | _ => none

/-- The finalizer with a tag: the one registered last, or one that another has registered. -/
def find (tag : String) : Op (Option FinalizerId) := do
  let s ← get
  match s.finalizers.lookup tag with
  | some id => return some id
  | none =>
    return (s.bridge.finalization.waiting.find? fun x => x.action.tag? = some tag).map (·.id)

def perform : FinalizerStep → Op Outcome
  | owner => do
    let id := (← get).tokens
    modify fun s => { s with tokens := id + 1 }
    return (.nothing, some (.token id))
  | register r tag next => do
    let owner ← Op.ofOption (ownerOf (← Op.item r))
    let next := next.toList.map fun tag => (Owner.gone, FinalAction.report tag [])
    let (id, finalization) := (← Op.bridge).finalization.register owner (.report tag next)
    Op.act (modify fun b => { b with finalization })
    modify fun s => { s with finalizers := (tag, id) :: s.finalizers }
    return (.count finalization.pending, none)
  | finalizeNow tag => do
    match ← find tag with
    | none => return (.truth false, none)
    | some id =>
      let ran ← Op.act fun b =>
        let (ran, finalization) := b.finalization.finalizeNow b.isOwnerAlive id
        (ran, { b with finalization })
      liftM (State.noteFinalizers ran.toList)
      return (.truth ran.isSome, none)
  | drain => do
    let ran ← Op.act Bridge.drain
    liftM (State.noteFinalizers ran)
    return (.count ran.length, none)
  | state => do
    let f := (← Op.bridge).finalization
    return (.finalizers f.pending f.finalized ("FinalizationService \x7b " ++
      s!"pending: {f.pending}, total_finalized: {f.finalized} \x7d"), none)

end FinalizerStep

namespace RegisterStep

def perform : RegisterStep → Op Outcome
  | drop r => do
    let held := ((← get).registers.lookup r).isSome
    Op.drop r
    return (.truth held, none)
  | isAlive name => do
    let id := (← get).seen[name]?
    return (.truth (id.any (← Op.heap).isAlive), none)
  | resetScans => do
    let me ← Op.me
    Op.act (modify fun b => b.updateThread me fun t => { t with scans := {} })
    return (.nothing, none)
  | scans => return (.scans ((← Op.bridge).thread (← Op.me)).scans, none)

end RegisterStep

end RopeBridge.Session
