import RopeBridge.OwnedString.Basic

/-! The string primitives of native code. Those that give or need an address move the string to
native memory first, and it stays there. -/

namespace RopeBridge.StringOp

/-- The text in native memory, moved there if need be. -/
def toNative : StringOp NativeText := do
  match ← current with
  | .native text => return text
  | .managed rope =>
    match ← query (NativeText.ofRope (← get).finalization rope) with
    | .error fault => throw fault
    | .ok (text, finalization) =>
      modify fun w => { w with string := .native text, finalization }
      return text

def adjust (change : NativeText → Finalization → Except Fault (NativeText × Finalization)) :
    StringOp Unit := do
  let text ← toNative
  let (text, finalization) ← change text (← get).finalization
  modify fun w => { w with string := .native text, finalization }

def capacity : StringOp Nat := return (← toNative).capacity

/-- Sets the length. Plain ASCII is taken to stay so; of anything else nothing is known after. -/
def setLength (byteLength : Nat) : StringOp Unit :=
  adjust fun text f =>
    if text.metadata.codeRange = .sevenBit then
      text.setByteLength byteLength (some byteLength) .sevenBit f
    else text.setByteLength byteLength none .unknown f

/-- Sets the length and forgets what is known. A text that has the length already is not touched
otherwise. -/
def resize (byteLength : Nat) : StringOp Unit :=
  adjust fun text f =>
    if text.byteLength = byteLength then .ok (text.clear, f) else text.resize byteLength f

/-- Forgets what is known about native content. A rope does not change, so nothing known about it
goes wrong. -/
def clearCodeRange : StringOp Unit := do
  match ← current with
  | .managed _ => return
  | .native text => replace (.native text.clear)

/-- Reads a byte through the address of the string: anywhere in the buffer of a native one; behind
the end of a managed one there are zeros. -/
def read (index : Nat) : StringOp UInt8 := do
  match ← current with
  | .native text => text.readRaw index
  | .managed rope => if index < rope.byteLength then build (rope.getByte index) else return 0

/-- Writes a byte through the address of the string. A managed string gets a changed copy. -/
def write (index : Nat) (byte : UInt8) : StringOp UInt8 := do
  match ← current with
  | .native text => replace (.native (← text.setByte index byte))
  | .managed rope =>
    if rope.byteLength ≤ index then throw (.outOfBounds index rope.byteLength)
    let bytes ← query rope.bytes
    let copy ← query (Rope.ofBytes rope.encoding (bytes.set index byte) .unknown)
    replace (.managed copy)
  return byte

def cLength : StringOp Nat := do
  match ← current with
  | .native text => return text.buffer.zeroFrom text.byteLength 0
  | .managed rope => return (← query rope.bytes).findIdx (· = 0)

end RopeBridge.StringOp
