import RopeBridge.Session.State
import RopeBridge.Heap.Show

/-! Session steps on values and on the handles of values. -/

namespace RopeBridge.Session

namespace ValueStep

/-- Describes a value that a register may take. -/
def given (v : Value) : Op Outcome := return (.value (← Op.view v), some (.value v))

def create (payload : Payload) : Op Outcome := do given (← Op.act (Bridge.newObject payload))

def object? (v : Value) : Op (Option Object) := return (← Op.heap).object? v

def perform : ValueStep → Op Outcome
  | newString r => do create (.string (.managed (← Op.rope r)))
  | newZeros byteLength => do given (← Op.attempt (Bridge.newNativeString byteLength))
  | newData typeName address => create (.data typeName address)
  | newArray vs => do create (.array (← Op.values vs).toArray)
  | literal v => do given (← Op.value v)
  | intern r => do given (← Op.act (Bridge.intern (← Op.rope r)))
  | internText word => do
    let name ← Op.act (Bridge.query (Rope.utf8 word))
    given (← Op.act (Bridge.intern name))
  | lookup r => do
    let name ← Op.rope r
    match ← Op.act (Bridge.query ((← Op.bridge).symbols.lookup name)) with
    | some symbol => given (.object symbol)
    | none => return (.nothing, none)
  | element v index => do
    match ((← object? (← Op.value v)).elim [] (·.elements))[index]? with
    | some item => given item
    | none => return (.nothing, none)
  | symbolHandle word => do
    let h ← Op.act (Bridge.symbolHandle (← Op.me) word)
    return (.handle h, some (.handle h))
  | symbolCount => return (.symbols (← Op.bridge).symbols.size, none)
  | symbolName v => do
    match (← object? (← Op.value v)).bind Object.symbolName? with
    | some name => return (.rope (← Op.ropeView name), none)
    | none => return (.nothing, none)
  | describe v => return (.value (← Op.view (← Op.value v)), none)
  | text v => do
    let v ← Op.value v
    return (.text (← Op.act (Bridge.query ((← Op.heap).text v))), none)
  | kind v => return (.text ((← Op.heap).kind (← Op.value v)).name, none)
  | equal v w => return (.truth ((← Op.value v) = (← Op.value w)), none)
  | push array item => do
    let array ← Op.value array
    return (.count (← Op.attempt (Bridge.push array (← Op.value item))), none)
  | elements v => do
    let elements := (← object? (← Op.value v)).elim [] (·.elements)
    return (.values (← Op.views elements), none)
  | pointer v => do
    match (← object? (← Op.value v)).bind Object.pointer? with
    | some address => return (.count address.toNat, none)
    | none => return (.nothing, none)
  | setPointer v h => do
    let v ← Op.value v
    let h ← Op.handle h
    match v, (← object? v).map Object.payload with
    | .object id, some (Payload.data typeName _) =>
      Op.act (modify fun b => { b with heap := b.heap.setPayload id (.data typeName h.word) })
      return (.text typeName, none)
    | _, _ => return (.nothing, none)
  | share v => do return (.count (← Op.act (Bridge.share (← Op.value v))), none)
  | marked v => do
    let marked := (← object? (← Op.value v)).elim [] (·.marked)
    return (.values (← Op.views marked), none)
  | setMarked v vs => do
    let v ← Op.value v
    let vs ← Op.values vs
    if let .object id := v then
      Op.act (modify fun b => { b with heap := b.heap.setMarked id vs })
    return (.nothing, none)

end ValueStep

namespace HandleStep

/-- Wraps each of the values that `make` gives for the numbers from `next` on, and then adds it to
an array. Tells the last handle. -/
def wrapEach (me : ThreadId) (make : Nat → StateM Bridge Value) (into : Option Value) :
    (count next : Nat) → Handle → ExceptT Fault (StateM Bridge) Handle
  | 0, _, last => return last
  | count + 1, next, _ => do
    let v ← make next
    let h ← Bridge.wrap me v
    if let some array := into then let _ ← Bridge.push array v
    wrapEach me make into count (next + 1) h

/-- Wraps a number of values, and tells the first and the last handle. -/
def wrapMany (make : Nat → StateM Bridge Value) (count start : Nat) (into : Option ValueRef) :
    Op Outcome := do
  let into ← into.mapM Op.value
  let me ← Op.me
  match count with
  | 0 => return (.handles none, none)
  | count + 1 =>
    let first ← Op.attempt (wrapEach me make into 1 start default)
    let last ← Op.attempt (wrapEach me make into count (start + 1) first)
    return (.handles (some (first, last)), none)

/-- The float a quarter above the one that is nearest to a natural number. -/
def quarterAbove (n : Nat) : Value := .float (Float.ofNat n + 0.25).toBits

/-- Describes a wrapper that a register may take. -/
def given (w : WrapperId) : Op Outcome :=
  return (.wrapper (← liftM (State.wrapperView w)), some (.wrapper w))

def perform : HandleStep → Op Outcome
  | wrap v => do
    let v ← Op.value v
    let h ← Op.act (Bridge.wrap (← Op.me) v)
    return (.handle h, some (.handle h))
  | wrapData count start into =>
    wrapMany (fun i => Bridge.newObject (.data "Many" (UInt64.ofNat i))) count start into
  | wrapFloats count start into => wrapMany (fun i => return quarterAbove i) count start into
  | unwrap h => do
    let v ← Op.ofExcept ((← Op.bridge).unwrap (← Op.handle h))
    return (.value (← Op.view v), some (.value v))
  | isObject h => return (.truth (← Op.handle h).isObject, none)
  | wrapperAt h => do
    match (← Op.bridge).handles.wrapperAt? (← Op.handle h) with
    | some w => given w
    | none => return (.nothing, none)
  | wrapperFor v => do
    let v ← Op.value v
    match ← Op.act (Bridge.wrapperFor (← Op.me) v) with
    | some w => given w
    | none => return (.nothing, none)
  | wrapperState r => do
    match ← Op.item r with
    | .wrapper w => return ((← given w).1, none)
    | _ => Op.unusable
  | pinFor v => do
    match (← Op.bridge).pinFor (← Op.value v) with
    | some pin => return (.value (← Op.view pin), none)
    | none => return (.nothing, none)
  | retire => do
    let me ← Op.me
    Op.act (modify (Bridge.retire me))
    return (.count (← Op.bridge).handles.current.length, none)
  | releaseUnreachable => return (.count (← Op.act Bridge.releaseUnreachable), none)
  | threadsWithBlocks => return (.count (← Op.bridge).handles.current.length, none)
  | tableStats => do
    let b ← Op.bridge
    return (.table (b.handles.stats b.heap) (b.handles.caption b.heap), none)
  | stats => return (.stats (← snapshot), none)
  | report => return (.text (← snapshot).report, none)
where
  snapshot : Op BridgeStats := do
    let b ← Op.bridge
    return b.stats (b.thread (← Op.me)).scans

end HandleStep

end RopeBridge.Session
