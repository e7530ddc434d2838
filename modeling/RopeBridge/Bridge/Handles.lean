import RopeBridge.Bridge.Basic

/-! Handles for values and values for handles. A value handed out is shared with all that can be
reached from it; its handle is the same for as long as it resolves. -/

namespace RopeBridge.Bridge

def enqueuePins (b : Bridge) : Option (List ObjectId) → Bridge
  | none => b
  | some pins => { b with marking := b.marking.enqueue (pins.map Value.object) }

/-- The object that stands for a value on the heap: an object is shared, a number gets a box. -/
def expose (v : Value) : StateM Bridge (Option ObjectId) := fun b =>
  match v with
  | .object id => (some id, { b with heap := (b.heap.share v).2 })
  | .number n =>
    let (id, heap) := b.heap.add (.boxed n)
    (some id, { b with heap })
  | _ => (none, b)

/-- A new wrapper for a value, at the next handle of a thread. -/
def allocate (me : ThreadId) (v : Value) (object : ObjectId) : StateM Bridge WrapperId := fun b =>
  let (w, retired, handles) := b.handles.allocate me object
  (w, enqueuePins { b with handles := handles.enter v w } retired)

/-- The wrapper of a value, made if there is none that resolves. A value that is written in its
handle has no wrapper. -/
def wrapperFor (me : ThreadId) (v : Value) : StateM Bridge (Option WrapperId) := do
  if (Handle.ofImmediate? v).isSome then return none
  let b ← get
  match b.handles.lookup b.heap v with
  | some w => return some w
  | none =>
    match ← expose v with
    | some object => return some (← allocate me v object)
    | none => return none

def wrap (me : ThreadId) (v : Value) : StateM Bridge Handle := do
  match Handle.ofImmediate? v with
  | some h => return h
  | none =>
    let w ← wrapperFor me v
    return w.elim .ofUndef (← get).handles.handleOf

def unwrap (b : Bridge) (h : Handle) : Except Fault Value :=
  match h.immediate? with
  | some v => .ok v
  | none =>
    match (b.handles.wrapperAt? h).bind (b.handles.referent? b.heap) with
    | some v => .ok v
    | none => .error (.handleNotFound h.word)

/-- The object that keeps the handle of a value resolvable: the value itself, or the box of a number
that has a handle. -/
def pinFor (b : Bridge) (v : Value) : Option Value :=
  match v with
  | .object _ => some v
  | v => (b.handles.entries[v.rank]?.bind (b.handles.pin? b.heap)).map .object

def symbolHandle (me : ThreadId) (name : String) : StateM Bridge Handle := do
  wrap me (← intern (← query (Rope.utf8 name)))

def retire (me : ThreadId) (b : Bridge) : Bridge :=
  let (retired, handles) := b.handles.retireThread me
  enqueuePins { b with handles } retired

def endThread (me : ThreadId) (b : Bridge) : Bridge := (b.retire me).updateThread me fun _ => {}

def releaseUnreachable : StateM Bridge Nat := fun b =>
  let (n, handles) := b.handles.releaseUnreachable b.heap
  (n, { b with handles })

/-- Keeps a value alive until the innermost call of a thread has ended and the marking service has
let go of it. A number with a handle is kept by its box. -/
def keepAlive (me : ThreadId) (v : Value) (b : Bridge) : Bridge :=
  let pinned := (b.pinFor v).getD v
  let b := b.updateStack me (·.keepAlive pinned)
  { b with marking := b.marking.keepObject pinned }

end RopeBridge.Bridge
