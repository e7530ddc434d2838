import RopeBridge.Heap.Basic

/-! The end of objects. After every operation the objects that nothing holds any more die, then
those that only they have held, until nothing changes. Objects that hold each other stay. -/

namespace RopeBridge.Heap

/-- Which objects are held by a root or by an object that is alive. -/
def heldBy (h : Heap) (roots : List ObjectId) : Array Bool :=
  let mark (held : Array Bool) (id : ObjectId) : Array Bool := held.setIfInBounds id true
  let fromRoots := roots.foldl mark (Array.replicate h.objects.size false)
  h.objects.foldl (fun held o =>
    match o with
    | some o => (Value.objects o.children).foldl mark held
    | none => held) fromRoots

def sweep (h : Heap) (roots : List ObjectId) : Heap :=
  let held := h.heldBy roots
  ⟨h.objects.mapIdx fun id o => if held.getD id false then o else none⟩

def aliveCount (h : Heap) : Nat := h.objects.countP (·.isSome)

def settle (h : Heap) (roots : List ObjectId) : Heap :=
  let swept := h.sweep roots
  if swept.aliveCount < h.aliveCount then swept.settle roots else h
termination_by h.aliveCount

end RopeBridge.Heap
