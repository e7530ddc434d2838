import RopeBridge.Rope.Ledger

/-! Reading the bytes of a rope. `window` walks the tree for a stretch of bytes, taking flattened
bytes where the ledger has them; `bytes` flattens a node once and keeps the result. `byteAt` goes
down to the one leaf, or flattened node, that holds a byte, and flattens nothing. -/

namespace RopeBridge

/-- The `len` bytes from `offset` on of `unit` repeated without end. -/
def cyclic (unit : List UInt8) (offset len : Nat) : List UInt8 :=
  let start := offset % unit.length
  (((List.replicate (len / unit.length + 2) unit).flatten).drop start).take len

namespace Rope

def slice (bytes : List UInt8) (offset len : Nat) : List UInt8 := (bytes.drop offset).take len

/-- The bytes of a node: a leaf has them, another node computes them once. -/
def flattened (r : Rope) (compute : Query (List UInt8)) : Query (List UInt8) :=
  match r with
  | leaf _ bytes => return bytes
  | r => do
    match (← Query.entry r.id).bytes with
    | some bytes => return bytes
    | none =>
      Query.note .flatten r.id
      let bytes ← compute
      Query.update r.id fun e => { e with bytes := some bytes }
      return bytes

/-- The `len` bytes of a rope from `offset` on, and `tail` behind them. Only the units of
repetitions are flattened. The parts of a concatenation are put in front of the tail from the back
to the front, so no byte is copied twice, however deep the tree. -/
def windowOnto (r : Rope) (offset len : Nat) (tail : List UInt8) : Query (List UInt8) := do
  if len = 0 then return tail
  if let some bytes := (← Query.entry r.id).bytes then return slice bytes offset len ++ tail
  match r with
  | leaf _ bytes => return slice bytes offset len ++ tail
  | joined _ left right =>
    let split := left.byteLength
    let stop := offset + len
    let tail ← if split < stop then
        right.windowOnto (max offset split - split) (stop - max offset split) tail
      else pure tail
    if offset < split then left.windowOnto offset (min stop split - offset) tail else return tail
  | excerpt _ child base => child.windowOnto (base + offset) len tail
  | repeated _ child _ =>
    return cyclic (← child.flattened (child.windowOnto 0 child.byteLength [])) offset len ++ tail

def window (r : Rope) (offset len : Nat) : Query (List UInt8) := r.windowOnto offset len []

def bytes (r : Rope) : Query (List UInt8) := r.flattened (r.window 0 r.byteLength)

/-- The byte at `index`, given what the ledger has. -/
def byteAt (l : Ledger) (r : Rope) (index : Nat) : UInt8 :=
  match (l.entry r.id).bytes with
  | some bytes => bytes.getD index 0
  | none =>
    match r with
    | leaf _ bytes => bytes.getD index 0
    | joined _ left right =>
      if index < left.byteLength then byteAt l left index
      else byteAt l right (index - left.byteLength)
    | excerpt _ child offset => byteAt l child (index + offset)
    | repeated _ child _ => byteAt l child (index % child.byteLength)

def getByte (r : Rope) (index : Nat) : Build UInt8 := do
  if r.byteLength ≤ index then throw (.outOfBounds index r.byteLength)
  return byteAt (← get) r index

def hasBytes (l : Ledger) (r : Rope) : Bool := r.isLeaf || (l.entry r.id).bytes.isSome

def knownCodeRange (r : Rope) : Query CodeRange := return (← Query.entry r.id).codeRange

def knownCharacterLength (r : Rope) : Query (Option Nat) :=
  return (← Query.entry r.id).characterLength

end Rope

end RopeBridge
