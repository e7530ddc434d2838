import RopeBridge.Metadata

/-! Ropes: immutable trees of bytes labelled with an encoding. A leaf holds bytes; the other nodes
put two ropes together, cut a window out of one or repeat one. `toBytes` is what a rope denotes.
Every node carries the number under which a `Ledger` keeps what has been found out about it, so a
node that occurs in several ropes is examined once. -/

namespace RopeBridge

abbrev NodeId := Nat

structure Node where
  id : NodeId
  encoding : Encoding
  byteLength : Nat
  depth : Nat
deriving DecidableEq, Inhabited

inductive Rope where
  | leaf (node : Node) (bytes : List UInt8)
  | joined (node : Node) (left right : Rope)
  /-- The window of `node.byteLength` bytes of `child` that begins at `offset`. -/
  | excerpt (node : Node) (child : Rope) (offset : Nat)
  | repeated (node : Node) (child : Rope) (times : Nat)
deriving Inhabited

namespace Rope

def node : Rope → Node
  | leaf n _ | joined n _ _ | excerpt n _ _ | repeated n _ _ => n

def id (r : Rope) : NodeId := r.node.id

def encoding (r : Rope) : Encoding := r.node.encoding

def byteLength (r : Rope) : Nat := r.node.byteLength

/-- The height of the tree; a leaf has depth 1. -/
def depth (r : Rope) : Nat := r.node.depth

def isEmpty (r : Rope) : Bool := r.byteLength == 0

def isLeaf : Rope → Bool
  | leaf .. => true
  | _ => false

def sameNode (a b : Rope) : Bool := a.id == b.id

/-- The bytes a rope denotes, whatever has been computed so far. -/
def toBytes : Rope → List UInt8
  | leaf _ bytes => bytes
  | joined _ left right => left.toBytes ++ right.toBytes
  | excerpt n child offset => (child.toBytes.drop offset).take n.byteLength
  | repeated _ child times => (List.replicate times child.toBytes).flatten

@[simp] theorem toBytes_leaf (n : Node) (bytes : List UInt8) : (leaf n bytes).toBytes = bytes := rfl

@[simp] theorem toBytes_joined (n : Node) (left right : Rope) :
    (joined n left right).toBytes = left.toBytes ++ right.toBytes := rfl

@[simp] theorem toBytes_excerpt (n : Node) (child : Rope) (offset : Nat) :
    (excerpt n child offset).toBytes = (child.toBytes.drop offset).take n.byteLength := rfl

@[simp] theorem toBytes_repeated (n : Node) (child : Rope) (times : Nat) :
    (repeated n child times).toBytes = (List.replicate times child.toBytes).flatten := rfl

end Rope

end RopeBridge
