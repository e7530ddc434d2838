import RopeBridge.Rope.Build
import RopeBridge.SipHash

/-! Equality and hashing of ropes, both by encoding and bytes alone. The comparison answers early
where the node, the length or two remembered hashes decide it. -/

namespace RopeBridge

/-- The hash of some bytes under an encoding: that of the position of the encoding and the number of
bytes, each a word, and of the bytes after them. -/
def contentHash (e : Encoding) (bytes : List UInt8) : UInt64 :=
  SipHash.hash 0 0 <| SipHash.wordBytes (UInt64.ofNat e.index) ++
    (SipHash.wordBytes (UInt64.ofNat bytes.length) ++ bytes)

namespace Rope

def hashCode (r : Rope) : Query UInt64 := do
  match (← Query.entry r.id).hash with
  | some h => return h
  | none =>
    let h := contentHash r.encoding (← r.bytes)
    Query.update r.id fun e => { e with hash := some h }
    return h

def equal (a b : Rope) : Query Bool := do
  if a.sameNode b then return true
  if a.byteLength ≠ b.byteLength ∨ a.encoding ≠ b.encoding then return false
  match (← Query.entry a.id).hash, (← Query.entry b.id).hash with
  | some x, some y => if x ≠ y then return false
  | _, _ => pure ()
  return (← a.bytes) == (← b.bytes)

def hashesAlike (a b : Rope) : Query Bool := do
  return (← a.hashCode) == (← b.hashCode)

end Rope

end RopeBridge
