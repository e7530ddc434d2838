import RopeBridge.OwnedString.Basic

/-! The heap of objects. An object lives as long as something holds it: a holder outside of the
heap, or an object that lives itself. The numbers of objects that have died are not used again. -/

namespace RopeBridge

inductive Payload where
  | string (content : OwnedString)
  | symbol (name : Rope)
  | array (elements : Array Value)
  /-- The owner of a native structure: its type and its address. -/
  | data (typeName : String) (pointer : UInt64)
  /-- A number that has no word of its own, kept on the heap while native code holds it. -/
  | boxed (n : Number)

structure Object where
  payload : Payload
  shared : Bool := false
  /-- The values that native code holds on behalf of the object. -/
  marked : List Value := []

namespace Object

def kind (o : Object) : Kind :=
  match o.payload with
  | .string _ => .string
  | .symbol _ => .symbol
  | .array _ => .array
  | .data .. => .data
  | .boxed n => n.kind

/-- The elements of an array; other objects have none. -/
def elements (o : Object) : List Value :=
  match o.payload with
  | .array elements => elements.toList
  | _ => []

def size (o : Object) : Nat :=
  match o.payload with
  | .array elements => elements.size
  | _ => 0

def children (o : Object) : List Value := o.elements ++ o.marked

@[simp] theorem length_elements (o : Object) : o.elements.length = o.size := by
  unfold elements size
  split <;> simp

def boxed? (o : Object) : Option Number :=
  match o.payload with
  | .boxed n => some n
  | _ => none

def string? (o : Object) : Option OwnedString :=
  match o.payload with
  | .string content => some content
  | _ => none

def symbolName? (o : Object) : Option Rope :=
  match o.payload with
  | .symbol name => some name
  | _ => none

def pointer? (o : Object) : Option UInt64 :=
  match o.payload with
  | .data _ pointer => some pointer
  | _ => none

end Object

structure Heap where
  /-- The objects by number; the dead have left a gap. -/
  objects : Array (Option Object) := #[]

namespace Heap

def get? (h : Heap) (id : ObjectId) : Option Object := (h.objects[id]?).join

def isAlive (h : Heap) (id : ObjectId) : Bool := (h.get? id).isSome

def add (h : Heap) (payload : Payload) : ObjectId × Heap :=
  (h.objects.size, ⟨h.objects.push (some { payload })⟩)

/-- Changes an object that is alive. -/
def update (h : Heap) (id : ObjectId) (f : Object → Object) : Heap :=
  ⟨h.objects.modify id (Option.map f)⟩

def setPayload (h : Heap) (id : ObjectId) (payload : Payload) : Heap :=
  h.update id fun o => { o with payload }

def setMarked (h : Heap) (id : ObjectId) (marked : List Value) : Heap :=
  h.update id fun o => { o with marked }

def push (h : Heap) (id : ObjectId) (v : Value) : Heap :=
  h.update id fun
    | ⟨.array elements, shared, marked⟩ => ⟨.array (elements.push v), shared, marked⟩
    | o => o

def kindOf (h : Heap) (id : ObjectId) : Kind := (h.get? id).elim .undef Object.kind

def kind (h : Heap) (v : Value) : Kind := v.kind h.kindOf

def object? (h : Heap) (v : Value) : Option Object := v.object?.bind h.get?

def holds (h : Heap) (id : ObjectId) : List ObjectId :=
  (h.get? id).elim [] fun o => Value.objects o.children

theorem get?_update (h : Heap) (id other : ObjectId) (f : Object → Object) :
    (h.update id f).get? other =
      if id = other then (h.get? other).map f else h.get? other := by
  unfold get? update
  by_cases same : id = other
  · subst same
    cases hx : h.objects[id]? <;> simp [Array.getElem?_modify, hx]
  · simp [Array.getElem?_modify, same]

theorem get?_add (h : Heap) (payload : Payload) (id : ObjectId) :
    (h.add payload).2.get? id = if id = h.objects.size then some { payload } else h.get? id := by
  unfold get? add
  simp only [Array.getElem?_push]
  split <;> simp

theorem lt_size_of_isAlive {h : Heap} {id : ObjectId} (alive : h.isAlive id) :
    id < h.objects.size := by
  unfold isAlive get? at alive
  cases hx : h.objects[id]? with
  | none => simp [hx] at alive
  | some o => exact (Array.getElem?_eq_some_iff.1 hx).1

end Heap

end RopeBridge
