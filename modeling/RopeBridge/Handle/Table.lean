import Std.Data.TreeMap
import RopeBridge.ExtensionLock
import RopeBridge.Handle.Word
import RopeBridge.Heap.Basic
import RopeBridge.Stats

/-! The table that gives handles to values and finds the values again. Handles are the slots of
blocks; every thread fills a block of its own, which holds its objects until it is retired. A
wrapper stands for one slot that has been given out, and does not hold its object. A block all of
whose objects have died is given up and its number used again. -/

namespace RopeBridge

abbrev WrapperId := Nat

structure Wrapper where
  handle : Handle
  target : ObjectId
  /-- The handle has been found dead and resolves no more. -/
  released : Bool := false
deriving Inhabited

structure Block where
  index : Nat
  /-- The wrappers of the slots given out so far, in order. -/
  wrappers : Array WrapperId := #[]
  pins : Array ObjectId := #[]
  retired : Bool := false
deriving Inhabited

structure HandleTable where
  /-- Retired blocks go on holding their objects. -/
  keepAlive : Bool
  countAllocations : Bool
  /-- The wrapper last made for a value, by the rank of the value. -/
  entries : Std.TreeMap Nat WrapperId := {}
  wrappers : Array Wrapper := #[]
  /-- The blocks by number; those given up have left a gap. -/
  blocks : Array (Option Block) := #[]
  current : List (ThreadId × Nat) := []
  /-- The numbers of the blocks given up, the latest first. -/
  freeBlocks : List Nat := []
  allocations : Nat := 0

def Wrapper.release (w : Wrapper) : Wrapper := { w with released := true }

namespace Block

def isFull (b : Block) : Bool := b.wrappers.size = Handle.slotsPerBlock

end Block

namespace HandleTable

def ofOptions (keepAlive countAllocations : Bool) : HandleTable := { keepAlive, countAllocations }

def block? (t : HandleTable) (index : Nat) : Option Block := (t.blocks[index]?).join

/-- The wrapper at a handle, whether it is live or not. -/
def wrapperAt? (t : HandleTable) (h : Handle) : Option WrapperId := do
  let block ← t.block? (← h.block?)
  block.wrappers[h.slot]?

/-- The object behind a wrapper that has to stay alive for the handle to resolve. -/
def pin? (t : HandleTable) (heap : Heap) (w : WrapperId) : Option ObjectId := do
  let wrapper ← t.wrappers[w]?
  if wrapper.released ∨ !heap.isAlive wrapper.target then none else some wrapper.target

def isLive (t : HandleTable) (heap : Heap) (w : WrapperId) : Bool := (t.pin? heap w).isSome

/-- The value behind a wrapper. A boxed number reads back as the number. -/
def referent? (t : HandleTable) (heap : Heap) (w : WrapperId) : Option Value := do
  let id ← t.pin? heap w
  match (heap.get? id).bind Object.boxed? with
  | some n => return .number n
  | none => return .object id

/-- A wrapper whose object has died unnoticed. -/
def isDying (t : HandleTable) (heap : Heap) (w : WrapperId) : Bool :=
  t.wrappers[w]?.any fun wrapper => !wrapper.released && !heap.isAlive wrapper.target

/-- The wrapper of a value, if it resolves. -/
def lookup (t : HandleTable) (heap : Heap) (v : Value) : Option WrapperId :=
  t.entries[v.rank]?.filter (t.isLive heap)

def currentBlock? (t : HandleTable) (thread : ThreadId) : Option Block :=
  (t.current.lookup thread).bind t.block?

def setBlock (t : HandleTable) (b : Block) : HandleTable :=
  { t with blocks := t.blocks.setIfInBounds b.index (some b) }

/-- Retires a block, and tells which objects it lets go of. -/
def retireBlock (t : HandleTable) (b : Block) : List ObjectId × HandleTable :=
  if t.keepAlive then ([], t.setBlock { b with retired := true })
  else (b.pins.toList, t.setBlock { b with retired := true, pins := #[] })

def retireThread (t : HandleTable) (thread : ThreadId) : Option (List ObjectId) × HandleTable :=
  match t.current.lookup thread with
  | none => (none, t)
  | some index =>
    let t := { t with current := t.current.filter (·.1 ≠ thread) }
    match t.block? index with
    | none => (some [], t)
    | some b =>
      let (pins, t) := t.retireBlock b
      (some pins, t)

/-- A number for a new block: one given up, or else the next. -/
def takeBlockIndex (t : HandleTable) : Nat × HandleTable :=
  match t.freeBlocks with
  | index :: rest => (index, { t with freeBlocks := rest })
  | [] => (t.blocks.size, { t with blocks := t.blocks.push none })

def openBlock (t : HandleTable) (thread : ThreadId) : Block × HandleTable :=
  let (index, t) := t.takeBlockIndex
  ({ index }, { t with current := (thread, index) :: t.current.filter (·.1 ≠ thread) })

/-- Gives the next slot of a block to an object. -/
def allocateIn (t : HandleTable) (b : Block) (object : ObjectId) : WrapperId × HandleTable :=
  let w := t.wrappers.size
  let wrapper : Wrapper := { handle := Handle.ofSlot b.index b.wrappers.size, target := object }
  let t := { t with
    wrappers := t.wrappers.push wrapper
    blocks := t.blocks.setIfInBounds b.index none }
  (w, t.setBlock { b with wrappers := b.wrappers.push w, pins := b.pins.push object })

/-- Gives a handle to an object on behalf of a thread. The thread goes on to a new block when its
block is full; then the objects that the full one lets go of are told. -/
def allocate (t : HandleTable) (thread : ThreadId) (object : ObjectId) :
    WrapperId × Option (List ObjectId) × HandleTable :=
  let t := if t.countAllocations then { t with allocations := t.allocations + 1 } else t
  match t.currentBlock? thread with
  | none =>
    let (b, t) := t.openBlock thread
    let (w, t) := t.allocateIn b object
    (w, none, t)
  | some b =>
    if b.isFull then
      let (pins, t) := t.retireBlock b
      let (b, t) := t.openBlock thread
      let (w, t) := t.allocateIn b object
      (w, some pins, t)
    else
      let (w, t) := t.allocateIn b object
      (w, none, t)

def enter (t : HandleTable) (v : Value) (w : WrapperId) : HandleTable :=
  { t with entries := t.entries.insert v.rank w }

def handleOf (t : HandleTable) (w : WrapperId) : Handle := (t.wrappers[w]?.map (·.handle)).getD ⟨0⟩

/-- A retired block that holds nothing and of whose wrappers none is live. -/
def isVacated (t : HandleTable) (heap : Heap) (b : Block) : Bool :=
  b.retired && b.pins.isEmpty && b.wrappers.all fun w => !t.isLive heap w

def slots (t : HandleTable) : List WrapperId :=
  t.blocks.toList.flatMap fun b => b.elim [] (·.wrappers.toList)

/-- The wrappers in blocks whose objects have died unnoticed. -/
def dying (t : HandleTable) (heap : Heap) : List WrapperId := t.slots.filter (t.isDying heap)

/-- The numbers of the blocks that can be given up, in order. -/
def vacated (t : HandleTable) (heap : Heap) : List Nat :=
  if t.keepAlive then []
  else (t.blocks.toList.filterMap fun b => b.filter (t.isVacated heap)).map (·.index)

/-- Forgets values that have died, releases their wrappers, gives up vacated blocks, and counts the
wrappers released. -/
def releaseUnreachable (t : HandleTable) (heap : Heap) : Nat × HandleTable :=
  let dying := t.dying heap
  let vacated := t.vacated heap
  (dying.length, { t with
    entries := t.entries.filter fun _ w => t.isLive heap w
    wrappers := dying.foldl (fun ws w => ws.modify w Wrapper.release) t.wrappers
    blocks := vacated.foldl (fun bs index => bs.setIfInBounds index none) t.blocks
    freeBlocks := vacated.foldl (fun free index => index :: free) t.freeBlocks })

def pins (t : HandleTable) : List ObjectId :=
  t.blocks.toList.flatMap fun b => b.elim [] (·.pins.toList)

def stats (t : HandleTable) (heap : Heap) : HandleStats where
  liveWrappers := t.entries.size
  liveHandles := t.slots.countP (t.isLive heap)
  blocks := t.blocks.toList.countP (·.isSome)
  freeBlocks := t.freeBlocks.length
  allocations := t.allocations

def caption (t : HandleTable) (heap : Heap) : String :=
  let s := t.stats heap
  "ValueWrapperManager \x7b stats: HandleTableStats \x7b " ++
    s!"live_wrappers: {s.liveWrappers}, live_handles: {s.liveHandles}, blocks: {s.blocks}, " ++
    s!"free_blocks: {s.freeBlocks}, total_handle_allocations: {s.allocations} \x7d, " ++
    s!"keep_handles_alive: {t.keepAlive}, record_allocations: {t.countAllocations} \x7d"

end HandleTable

end RopeBridge
