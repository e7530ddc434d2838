import RopeBridge.Handle.Table

/-! A pass that collects the objects behind handles, each handle once. -/

namespace RopeBridge

structure MarkSession where
  /-- The values marked by the pass before, which stay alive until this one ends. -/
  previous : List Value
  marks : List Value := []
  seen : List Handle := []
deriving DecidableEq, Inhabited

namespace MarkSession

/-- Marks the object behind a handle. A handle that is no object or does not resolve is ignored. -/
def add (s : MarkSession) (t : HandleTable) (heap : Heap) (h : Handle) : MarkSession :=
  if !h.isObject || s.seen.contains h then s
  else
    match (t.wrapperAt? h).bind (t.pin? heap) with
    | none => s
    | some id => { s with marks := s.marks ++ [.object id], seen := h :: s.seen }

end MarkSession

end RopeBridge
