import RopeBridge.Native.Text

/-! The content of a string object: a rope at first, a text in native memory from the moment native
code asks for its address. Operations work on one string together with the ledger of ropes and the
finalizers, and keep what they did before a failure. -/

namespace RopeBridge

inductive OwnedString where
  | managed (rope : Rope)
  | native (text : NativeText)

structure Workspace where
  string : OwnedString
  ledger : Ledger
  finalization : Finalization

abbrev StringOp := ExceptT Fault (StateM Workspace)

namespace OwnedString

def byteLength : OwnedString → Nat
  | managed rope => rope.byteLength
  | native text => text.byteLength

def encoding : OwnedString → Encoding
  | managed rope => rope.encoding
  | native text => text.encoding

def isNative : OwnedString → Bool
  | managed _ => false
  | native _ => true

def buffer? : OwnedString → Option BufferId
  | managed _ => none
  | native text => some text.buffer.id

end OwnedString

namespace StringOp

def current : StringOp OwnedString := return (← get).string

def replace (s : OwnedString) : StringOp Unit := modify fun w => { w with string := s }

def query {α : Type} (q : Query α) : StringOp α := do
  let w ← get
  let (answer, ledger) := q.run w.ledger
  set { w with ledger }
  return answer

def build {α : Type} (b : Build α) : StringOp α := do
  match ← query b.run with
  | .ok a => return a
  | .error fault => throw fault

def codeRange : StringOp CodeRange := do
  match ← current with
  | .managed rope => query rope.codeRange
  | .native text =>
    let (range, text) := text.codeRange
    replace (.native text)
    return range

def characterLength : StringOp Nat := do
  match ← current with
  | .managed rope => query rope.characterLength
  | .native text =>
    let (n, text) := text.characterLength
    replace (.native text)
    return n

def bytes : StringOp (List UInt8) := do
  match ← current with
  | .managed rope => query rope.bytes
  | .native text => return text.bytes

def getByte (index : Nat) : StringOp UInt8 := do
  match ← current with
  | .managed rope => build (rope.getByte index)
  | .native text => text.getByte index

/-- The content as a rope; native content is copied. -/
def getRope : StringOp Rope := do
  match ← current with
  | .managed rope => return rope
  | .native text => query text.toRope

/-- Replaces the content. A buffer given up this way is freed when its finalizer runs. -/
def setRope (rope : Rope) : StringOp Unit := replace (.managed rope)

end StringOp

end RopeBridge
