import RopeBridge.Marking.Session

/-! What native code holds on to. A marker belongs to an object and finds again, on each run, the
values that native code holds on behalf of that object. Values that are not yet found that way wait
in a queue for the end of the next run; single values are buffered before they are queued. -/

namespace RopeBridge

inductive MarkAct where
  /-- Marks the handle that the owner's native structure points to. -/
  | pointer
  | handle (h : Handle)
  | value (v : Value)
  /-- Marks what was marked by the run before. -/
  | previous
  /-- Gives a value a handle and does not mark it. -/
  | wrap (v : Value)
  /-- Keeps a value until a run after the buffer has filled. -/
  | keep (v : Value)
  /-- Keeps values until the end of the next run. -/
  | queue (vs : List Value)
  | fail (reason : String)
deriving DecidableEq, Inhabited

namespace MarkAct

def values : MarkAct → List Value
  | value v | wrap v | keep v => [v]
  | queue vs => vs
  | _ => []

end MarkAct

structure Marker where
  owner : ObjectId
  tag : String
  script : List MarkAct
deriving Inhabited

structure MarkerReport where
  tag : String
  owner : ObjectId
  /-- How many values were marked by the run before, and how many now. -/
  previous : Nat
  marked : Nat
  failure : Option String
deriving DecidableEq, Inhabited

structure Marking where
  markers : List Marker := []
  /-- The batches of values that wait for the end of the next run. -/
  queue : List (List Value) := []
  /-- The values buffered for the next batch. -/
  kept : List Value := []
  cache : Nat
  runs : Nat := 0
deriving Inhabited

namespace Marking

/-- At least one value makes a batch. -/
def ofCache (cache : Nat) : Marking := { cache := max cache 1 }

def hasPending (m : Marking) : Bool := !m.queue.isEmpty

def enqueue (m : Marking) (vs : List Value) : Marking := { m with queue := m.queue ++ [vs] }

/-- Buffers a value. A full buffer becomes a batch of the queue. -/
def keepObject (m : Marking) (v : Value) : Marking :=
  let kept := m.kept ++ [v]
  if m.cache ≤ kept.length then { m with kept := [], queue := m.queue ++ [kept] }
  else { m with kept }

def addMarker (m : Marking) (marker : Marker) : Marking :=
  { m with markers := m.markers ++ [marker] }

def values (m : Marking) : List Value :=
  m.kept ++ m.queue.flatten ++ m.markers.flatMap fun x => x.script.flatMap MarkAct.values

def caption (m : Marking) : String :=
  "MarkingService \x7b " ++ s!"markers: {m.markers.length}, queued: {m.queue.length}, " ++
    s!"kept: {m.kept.length}, marking_cache: {m.cache} \x7d"

end Marking

end RopeBridge
