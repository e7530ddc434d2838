import Std.Data.TreeMap
import RopeBridge.Session.Log
import RopeBridge.Session.Step

/-! The state of a session: the bridge, the registers and the names given to objects. An operation
of a step can fail with a fault of the library, by an overflow, or because the step does not fit
what its registers hold. -/

namespace RopeBridge.Session

inductive Item where
  | rope (r : Rope)
  | native (t : NativeText)
  | buffer (b : Buffer)
  | value (v : Value)
  | handle (h : Handle)
  | wrapper (w : WrapperId)
  | token (id : Nat)
  | marking (s : MarkSession)

namespace Item

def values : Item → List Value
  | value v => [v]
  | marking s => s.previous ++ s.marks
  | _ => []

def buffer? : Item → Option BufferId
  | native t => some t.buffer.id
  | buffer b => some b.id
  | _ => none

def token? : Item → Option Nat
  | token id => some id
  | _ => none

end Item

structure State where
  bridge : Bridge
  registers : List (Register × Item) := []
  /-- The objects seen so far, in order; the name of an object is its position. -/
  seen : Array ObjectId := #[]
  /-- The names of the objects seen so far. -/
  names : Std.TreeMap ObjectId Nat := {}
  thread : ThreadId := 0
  /-- How many frames the current body has pushed and not popped. -/
  pushed : Nat := 0
  /-- Tags of actions that have run and are not yet reported. -/
  ran : List String := []
  tokens : Nat := 0
  /-- The finalizers registered by steps, the latest first. -/
  finalizers : List (String × FinalizerId) := []
  log : List Entry := []

/-- Why an operation ends without an answer. -/
inductive Stop where
  | fault (f : Fault)
  /-- The thread stops and unwinds. -/
  | unwound (message : String)
  /-- The step does not fit the registers, or waits for what never happens. -/
  | unusable

abbrev Op := ExceptT Stop (StateM State)

namespace State

def act {α : Type} (x : StateM Bridge α) : StateM State α := fun s =>
  let (a, bridge) := x.run s.bridge
  (a, { s with bridge })

def write (e : Entry) : StateM State Unit := modify fun s => { s with log := e :: s.log }

/-- Tells the bridge what the registers hold, and lets die what nothing holds. -/
def settle : StateM State Unit := modify fun s =>
  let items := s.registers.map (·.2)
  let clients : Clients := {
    values := items.flatMap Item.values
    tokens := items.filterMap Item.token?
    buffers := items.filterMap Item.buffer? }
  { s with bridge := { s.bridge with clients }.settle }

/-- The name of an object, which is given at first sight. -/
def nameOf (id : ObjectId) : StateM State Nat := fun s =>
  match s.names[id]? with
  | some name => (name, s)
  | none =>
    (s.seen.size, { s with seen := s.seen.push id, names := s.names.insert id s.seen.size })

def view (v : Value) : StateM State ValueView := do
  match v with
  | .object id =>
    let name ← nameOf id
    let heap := (← get).bridge.heap
    let object := heap.get? id
    return .object name (heap.kindOf id) (object.elim false (·.shared)) (object.bind Object.boxed?)
  | v => return .immediate v

def views (vs : List Value) : StateM State (List ValueView) := vs.mapM view

def viewOption (v : Option Value) : StateM State (Option ValueView) := v.mapM view

def wrapperView (w : WrapperId) : StateM State WrapperView := do
  let b := (← get).bridge
  let referent ← viewOption (b.handles.referent? b.heap w)
  let pin ← viewOption ((b.handles.pin? b.heap w).map .object)
  return {
    handle := b.handles.handleOf w
    live := b.handles.isLive b.heap w
    released := b.handles.wrappers[w]?.elim false (·.released)
    referent, pin }

def noteActions (ran : List SafepointAction) : StateM State Unit :=
  modify fun s => { s with ran := s.ran ++ ran.map (·.tag) }

/-- Notes the tags of finalizers that have run, in alphabetical order. -/
def noteFinalizers (ran : List Finalizer) : StateM State Unit :=
  modify fun s =>
    { s with ran := s.ran ++ (ran.filterMap (·.action.tag?)).mergeSort fun a b => a ≤ b }

def takeRan : StateM State (List String) := fun s => (s.ran, { s with ran := [] })

def lockView : StateM State LockView := do
  let s ← get
  return Session.lockView s.bridge s.thread

end State

namespace Op

def unusable {α : Type} : Op α := throw .unusable

def ofExcept {α : Type} : Except Fault α → Op α
  | .ok a => return a
  | .error fault => throw (.fault fault)

def ofOption {α : Type} : Option α → Op α
  | some a => return a
  | none => unusable

def act {α : Type} (x : StateM Bridge α) : Op α := liftM (State.act x)

def attempt {α : Type} (x : ExceptT Fault (StateM Bridge) α) : Op α := do ofExcept (← act x.run)

def bridge : Op Bridge := return (← get).bridge

def heap : Op Heap := return (← get).bridge.heap

def me : Op ThreadId := return (← get).thread

def item (r : Register) : Op Item := do ofOption ((← get).registers.lookup r)

def store (r : Register) (i : Item) : Op Unit :=
  modify fun s => { s with registers := (r, i) :: s.registers.filter (·.1 ≠ r) }

def drop (r : Register) : Op Unit :=
  modify fun s => { s with registers := s.registers.filter (·.1 ≠ r) }

def rope (r : Register) : Op Rope := do
  match ← item r with
  | .rope rope => return rope
  | _ => unusable

def native (r : Register) : Op NativeText := do
  match ← item r with
  | .native text => return text
  | _ => unusable

def marking (r : Register) : Op MarkSession := do
  match ← item r with
  | .marking s => return s
  | _ => unusable

def value : ValueRef → Op Value
  | .literal v => return v
  | .register r => do
    match ← item r with
    | .value v => return v
    | _ => unusable

def values (vs : List ValueRef) : Op (List Value) := vs.mapM value

def handle : HandleRef → Op Handle
  | .raw h => return h
  | .register r => do
    match ← item r with
    | .handle h => return h
    | _ => unusable

def ropeView (r : Rope) : Op RopeView := return Session.ropeView (← get).bridge.ledger r

def view (v : Value) : Op ValueView := liftM (State.view v)

def views (vs : List Value) : Op (List ValueView) := liftM (State.views vs)

/-- The view of the string a value refers to. -/
def stringView (v : Value) : Op StringView := do
  let b ← bridge
  let string ← ofOption ((b.heap.object? v).bind Object.string?)
  return Session.stringView b.ledger string

end Op

/-- An answer and what a register is to hold from now on, if the step names one. -/
abbrev Outcome := Answer × Option Item

end RopeBridge.Session
