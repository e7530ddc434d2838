import RopeBridge.Rope.Build

/-! The switches of a bridge. -/

namespace RopeBridge

structure Options where
  /-- Native calls hold the extension lock. -/
  extensionLock : Bool := true
  /-- Handle blocks are never recycled and keep their objects. -/
  keepHandlesAlive : Bool := false
  countAllocations : Bool := false
  /-- How many kept objects are buffered before they are queued for marking. -/
  markingCache : Nat := 100
  /-- Concatenations deeper than this are flattened. -/
  flattenDepth : Nat := Rope.defaultFlattenDepth
  /-- How often a waiting thread polls its safepoints, in milliseconds. -/
  pollMillis : Nat := 10
deriving DecidableEq, Inhabited

namespace Options

/-- A waiting thread never polls more often than once a millisecond. -/
def pollInterval (o : Options) : Nat := max o.pollMillis 1

end Options

end RopeBridge
