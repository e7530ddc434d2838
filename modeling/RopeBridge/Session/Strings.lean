import RopeBridge.Session.State

/-! Session steps on texts in native memory and on strings. -/

namespace RopeBridge.Session

namespace NativeStep

def update (n : Register) (t : NativeText) : Op Outcome := do
  Op.store n (.native t)
  return (.native (nativeView t), none)

def create (made : Except Fault (NativeText × Finalization)) : Op Outcome := do
  let (t, finalization) ← Op.ofExcept made
  Op.act (modify fun b => { b with finalization })
  return (.native (nativeView t), some (.native t))

/-- Changes the length of a native text. It has moved if it is in another buffer afterwards. -/
def lengthen (n : Register)
    (change : NativeText → Finalization → Except Fault (NativeText × Finalization)) :
    Op Outcome := do
  let t ← Op.native n
  let (t', finalization) ← Op.ofExcept (change t (← Op.bridge).finalization)
  Op.act (modify fun b => { b with finalization })
  Op.store n (.native t')
  return (.resized (nativeView t') (t.buffer.id ≠ t'.buffer.id), none)

def buffer? : Item → Option Buffer
  | .buffer b => some b
  | _ => none

def perform : NativeStep → Op Outcome
  | zeros byteLength capacity e => do
    create (NativeText.zeros (← Op.bridge).finalization byteLength capacity e)
  | ofRope r => do
    let rope ← Op.rope r
    create (← Op.act (Bridge.query (NativeText.ofRope (← Op.bridge).finalization rope)))
  | info n => return (.native (nativeView (← Op.native n)), none)
  | bytes n => return (.bytes (← Op.native n).bytes, none)
  | getByte n index => return (.count (← Op.ofExcept ((← Op.native n).getByte index)).toNat, none)
  | readRaw n index => return (.count (← Op.ofExcept ((← Op.native n).readRaw index)).toNat, none)
  | setByte n index byte => do update n (← Op.ofExcept ((← Op.native n).setByte index byte))
  | codeRange n => do
    let (range, t) := (← Op.native n).codeRange
    Op.store n (.native t)
    return (.text range.label, none)
  | characterLength n => do
    let (length, t) := (← Op.native n).characterLength
    Op.store n (.native t)
    return (.count length, none)
  | clear n => do update n (← Op.native n).clear
  | setLength n byteLength characters range =>
    lengthen n fun t f => t.setByteLength byteLength characters range f
  | resize n byteLength => lengthen n fun t f => t.resize byteLength f
  | toRope n => do
    let rope ← Op.act (Bridge.query (← Op.native n).toRope)
    return (.rope (← Op.ropeView rope), some (.rope rope))
  | intoString n => do
    let t ← Op.native n
    Op.drop n
    let v ← Op.act (Bridge.newObject (.string (.native t)))
    return (.value (← Op.view v), some (.value v))
  | buffer capacity => do
    let (b, finalization) ← Op.ofExcept (Buffer.allocate (← Op.bridge).finalization capacity)
    Op.act (modify fun bridge => { bridge with finalization })
    return (.buffer b.capacity b.memory, some (.buffer b))
  | overwrite r offset data => do
    let b ← Op.ofOption (buffer? (← Op.item r))
    let b := b.overwrite offset data
    Op.store r (.buffer b)
    return (.bytes b.memory, none)

end NativeStep

/-- Reads a whole string: its code range, its number of characters, its bytes. -/
def readStorage : StringOp StorageView := do
  let codeRange ← StringOp.codeRange
  let characterLength ← StringOp.characterLength
  let bytes ← StringOp.bytes
  let s ← StringOp.current
  return ⟨s.byteLength, s.encoding, codeRange, characterLength, s.isNative, bytes⟩

namespace StringAct

/-- Works on a string and shows it afterwards. -/
def andShow {α : Type} (v : Value) (op : StringOp α) (answer : α → StringView → Answer) :
    Op Outcome := do
  let a ← Op.attempt (Bridge.onString v op)
  return (answer a (← Op.stringView v), none)

/-- Works on a string and answers. -/
def andTell {α : Type} (v : Value) (op : StringOp α) (answer : α → Answer) : Op Outcome :=
  return (answer (← Op.attempt (Bridge.onString v op)), none)

def perform (v : Value) : StringAct → Op Outcome
  | info => andShow v (return ()) fun _ => .string
  | capacity => andShow v StringOp.capacity .capacity
  | setLength byteLength => andShow v (StringOp.setLength byteLength) fun _ => .string
  | resize byteLength => andShow v (StringOp.resize byteLength) fun _ => .string
  | clearCodeRange => andShow v StringOp.clearCodeRange fun _ => .string
  | toNative =>
    andShow v (do let _ ← StringOp.toNative; return (← StringOp.current).isNative) .moved
  | read index => andTell v (StringOp.read index) fun byte => .count byte.toNat
  | write index byte => andShow v (StringOp.write index byte) .written
  | cLength => andTell v StringOp.cLength .count
  | storage => andTell v readStorage .storage
  | getByte index => andTell v (StringOp.getByte index) fun byte => .count byte.toNat
  | codeRange => andTell v StringOp.codeRange fun range => .text range.label
  | characterLength => andTell v StringOp.characterLength .count
  | getRope => do
    let rope ← Op.attempt (Bridge.onString v StringOp.getRope)
    return (.rope (← Op.ropeView rope), some (.rope rope))
  | setRope r => do
    let rope ← Op.rope r
    andShow v (StringOp.setRope rope) fun _ => .string

end StringAct

end RopeBridge.Session
