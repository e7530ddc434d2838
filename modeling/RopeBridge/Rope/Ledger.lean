import RopeBridge.Rope.Basic
import RopeBridge.Fault

/-! What has been found out about the nodes of ropes: code range, character length, flattened bytes
and hash, each kept once known. The ledger also logs the passes over bytes that were needed. The
empty rope of each encoding and the ropes of one byte have nodes of their own from the start. -/

namespace RopeBridge

structure Entry extends Metadata where
  /-- The bytes of a node that is not a leaf, once it has been flattened. -/
  bytes : Option (List UInt8) := none
  hash : Option UInt64 := none
deriving Inhabited

inductive Work where
  | codeRangeScan | characterCount | flatten
deriving DecidableEq

structure Ledger where
  entries : Array Entry
  /-- The passes made so far and the nodes they were made for, the latest first. -/
  log : List (Work × NodeId)

/-- A question to a rope; answering it may fill entries of the ledger. -/
abbrev Query := StateM Ledger

/-- The making of a rope, which may fail. What was found out before a failure is kept. -/
abbrev Build := ExceptT Fault (StateM Ledger)

namespace Rope

def emptyNode (e : Encoding) : Node := ⟨e.index, e, 0, 1⟩

def byteNode (e : Encoding) (b : UInt8) : Node :=
  ⟨Encoding.all.length + 256 * e.index + b.toNat, e, 1, 1⟩

def empty (e : Encoding) : Rope := .leaf (emptyNode e) []

def singleByte (e : Encoding) (b : UInt8) : Rope := .leaf (byteNode e b) [b]

end Rope

namespace Ledger

/-- The entry of bytes that are scanned beforehand. -/
def scanned (e : Encoding) (bytes : List UInt8) : Entry :=
  { Metadata.ofNew e bytes.length (e.scan bytes).codeRange (some bytes.length) with }

/-- Knows the ropes of no byte and of one byte, whose numbers come first. -/
def initial : Ledger where
  entries :=
    (Encoding.all.map fun e => scanned e []).toArray ++
      (Encoding.all.flatMap fun e =>
        (List.range 256).map fun b => scanned e [UInt8.ofNat b]).toArray
  log := []

def entry (l : Ledger) (id : NodeId) : Entry := l.entries[id]?.getD {}

def update (l : Ledger) (id : NodeId) (f : Entry → Entry) : Ledger :=
  { l with entries := l.entries.modify id f }

def passes (l : Ledger) (w : Work) : Nat := l.log.countP (·.1 = w)

/-- Opens the entry of a new node and gives its number. -/
def add (l : Ledger) (e : Entry) : NodeId × Ledger :=
  (l.entries.size, { l with entries := l.entries.push e })

@[simp] theorem update_log (l : Ledger) (id : NodeId) (f : Entry → Entry) :
    (l.update id f).log = l.log := rfl

theorem entry_update (l : Ledger) (id other : NodeId) (f : Entry → Entry)
    (h : id < l.entries.size) :
    (l.update id f).entry other = if id = other then f (l.entry other) else l.entry other := by
  unfold entry update
  by_cases same : id = other
  · subst same
    simp [Array.getElem_modify, h]
  · simp [Array.getElem?_modify, same]

theorem entry_add (l : Ledger) (e : Entry) (id : NodeId) :
    (l.add e).2.entry id = if id = l.entries.size then e else l.entry id := by
  unfold entry add
  simp only [Array.getElem?_push]
  split <;> simp

end Ledger

namespace Query

def note (w : Work) (id : NodeId) : Query Unit :=
  modify fun l => { l with log := (w, id) :: l.log }

def entry (id : NodeId) : Query Entry := return (← get).entry id

def update (id : NodeId) (f : Entry → Entry) : Query Unit := modify fun l => l.update id f

/-- Remembers a code range for a node that has none yet, and answers with it. -/
def publishCodeRange (id : NodeId) (r : CodeRange) : Query CodeRange := do
  update id fun e => { e with toMetadata := e.toMetadata.publishCodeRange r }
  return r

def publishCharacterLength (id : NodeId) (n : Nat) : Query Unit :=
  update id fun e => { e with toMetadata := e.toMetadata.publishCharacterLength n }

def newNode (e : Encoding) (byteLength depth : Nat) (codeRange : CodeRange)
    (characterLength : Option Nat) : Query Node := do
  let (id, l) := (← get).add { Metadata.ofNew e byteLength codeRange characterLength with }
  set l
  return ⟨id, e, byteLength, depth⟩

end Query

end RopeBridge
