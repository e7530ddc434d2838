import RopeBridge.CallStack
import RopeBridge.Heap.Settle
import RopeBridge.Heap.Share
import RopeBridge.Marking.Service
import RopeBridge.Options.Basic
import RopeBridge.OwnedString.Primitives
import RopeBridge.SymbolTable

/-! The bridge between managed values and native code: the heap and everything that holds objects
of it, and the threads that call native code. Operations on it run one after the other; those of
different threads may alternate in any order. -/

namespace RopeBridge

structure Thread where
  stack : CallStack := {}
  safepoints : List SafepointAction := []
  scans : ScanCounts := {}
deriving Inhabited

structure Clients where
  values : List Value := []
  tokens : List Nat := []
  buffers : List BufferId := []
deriving Inhabited

structure Bridge where
  options : Options
  ledger : Ledger := Ledger.initial
  heap : Heap := {}
  symbols : SymbolTable := {}
  finalization : Finalization := {}
  handles : HandleTable
  marking : Marking
  lock : ExtensionLock := {}
  threads : Array Thread := #[{}]
  /-- The helper thread that has taken the lock while another one was out of it. -/
  contender : Option ThreadId := none
  clients : Clients := {}
  /-- What a marker run in progress holds. -/
  running : List Value := []

namespace Bridge

/-- A new bridge. The main thread has number 0. -/
def ofOptions (options : Options) : Bridge where
  options := options
  handles := .ofOptions options.keepHandlesAlive options.countAllocations
  marking := .ofCache options.markingCache

/-- Every object that is held from outside the heap. -/
def roots (b : Bridge) : List ObjectId :=
  b.symbols.entries.map (·.2) ++ b.handles.pins ++
    Value.objects (b.clients.values ++ b.running ++ b.marking.values ++
      b.threads.toList.flatMap fun t => t.stack.values)

def settle (b : Bridge) : Bridge := { b with heap := b.heap.settle b.roots }

/-- The native buffers that a string on the heap or outside code holds. -/
def liveBuffers (b : Bridge) : List BufferId :=
  b.clients.buffers ++ b.heap.objects.toList.filterMap fun o =>
    o.bind Object.string? |>.bind OwnedString.buffer?

def isOwnerAlive (b : Bridge) : Owner → Bool :=
  let buffers := b.liveBuffers
  fun
    | .token id => b.clients.tokens.contains id
    | .object id => b.heap.isAlive id
    | .buffer id => buffers.contains id
    | .gone => false

def thread (b : Bridge) (me : ThreadId) : Thread := b.threads[me]?.getD {}

def updateThread (b : Bridge) (me : ThreadId) (f : Thread → Thread) : Bridge :=
  { b with threads := b.threads.modify me f }

def updateStack (b : Bridge) (me : ThreadId) (f : CallStack → CallStack) : Bridge :=
  b.updateThread me fun t => { t with stack := f t.stack }

def startThread (b : Bridge) : ThreadId × Bridge :=
  (b.threads.size, { b with threads := b.threads.push {} })

def query {α : Type} (q : Query α) : StateM Bridge α := fun b =>
  let (answer, ledger) := q.run b.ledger
  (answer, { b with ledger })

def build {α : Type} (r : Build α) : ExceptT Fault (StateM Bridge) α := query r.run

def onString {α : Type} (v : Value) (op : StringOp α) : ExceptT Fault (StateM Bridge) α := do
  let b ← get
  match v.object?, (b.heap.object? v).bind Object.string? with
  | some id, some string =>
    let (answer, w) := op.run.run ⟨string, b.ledger, b.finalization⟩
    set { b with
      heap := b.heap.setPayload id (.string w.string)
      ledger := w.ledger
      finalization := w.finalization }
    liftExcept answer
  | _, _ => throw (.wrongType Kind.string.name (b.heap.kind v).name)
where
  liftExcept : Except Fault α → ExceptT Fault (StateM Bridge) α
    | .ok a => return a
    | .error fault => throw fault

def newObject (payload : Payload) : StateM Bridge Value := fun b =>
  let (id, heap) := b.heap.add payload
  (.object id, { b with heap })

def newNativeString (byteLength : Nat) : ExceptT Fault (StateM Bridge) Value := do
  let b ← get
  match NativeText.zeros b.finalization byteLength byteLength .binary with
  | .error fault => throw fault
  | .ok (text, finalization) =>
    set { b with finalization }
    newObject (.string (.native text))

def concat (left right : Rope) : ExceptT Fault (StateM Bridge) Rope := do
  build (Rope.concatWithin (← get).options.flattenDepth left right)

def intern (name : Rope) : StateM Bridge Value := do
  let b ← get
  let (symbol, symbols, heap) ← query (b.symbols.intern b.heap name)
  modify fun b => { b with symbols, heap }
  return .object symbol

/-- Adds an element to an array, and tells the new length. -/
def push (array : Value) (v : Value) : ExceptT Fault (StateM Bridge) Nat := do
  let kind := (← get).heap.kind array
  match array.object?, kind with
  | some id, .array =>
    modify fun b => { b with heap := b.heap.push id v }
    return ((← get).heap.get? id).elim 0 Object.size
  | _, _ => throw (.wrongType Kind.array.name kind.name)

def share (v : Value) : StateM Bridge Nat := fun b =>
  let (n, heap) := b.heap.share v
  (n, { b with heap })

/-- Runs the finalizers whose owners have ended. -/
def drain : StateM Bridge (List Finalizer) := fun b =>
  let (ran, finalization) := b.finalization.drain b.isOwnerAlive
  (ran, { b with finalization })

def stats (b : Bridge) (scans : ScanCounts) : BridgeStats where
  handles := b.handles.stats b.heap
  markers := b.marking.markers.length
  markerRuns := b.marking.runs
  markingPending := b.marking.hasPending
  pendingFinalizers := b.finalization.pending
  finalized := b.finalization.finalized
  symbols := b.symbols.size
  scans := scans

end Bridge

end RopeBridge
