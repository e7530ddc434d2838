import RopeBridge.Native.Buffer
import RopeBridge.Rope.Build

/-! A text that lives in a native buffer and changes in place. What is known about it is remembered
like that of a rope, and forgotten on every write that can make it wrong. -/

namespace RopeBridge

structure NativeText where
  buffer : Buffer
  /-- The length of the text, which is at the front of the buffer. -/
  byteLength : Nat
  encoding : Encoding
  metadata : Metadata

namespace NativeText

def capacity (t : NativeText) : Nat := t.buffer.capacity

def bytes (t : NativeText) : List UInt8 := t.buffer.front t.byteLength

/-- A text of zeros. The buffer is as large as the text at least. -/
def zeros (f : Finalization) (byteLength capacity : Nat) (e : Encoding) :
    Except Fault (NativeText × Finalization) := do
  let (buffer, f) ← Buffer.allocate f (max capacity byteLength)
  return (⟨buffer, byteLength, e, {}⟩, f)

/-- A copy of a rope in a buffer of its size, with what is known about the rope. -/
def ofRope (f : Finalization) (r : Rope) : Query (Except Fault (NativeText × Finalization)) := do
  let bytes ← r.bytes
  let metadata := Metadata.ofKnown (← r.knownCodeRange) (← r.knownCharacterLength)
  return do
    let (buffer, f) ← Buffer.allocate f bytes.length
    return (⟨buffer.overwrite 0 bytes, bytes.length, r.encoding, metadata⟩, f)

def getByte (t : NativeText) (index : Nat) : Except Fault UInt8 :=
  if index < t.byteLength then .ok (t.buffer.byte index)
  else .error (.outOfBounds index t.byteLength)

def readRaw (t : NativeText) (index : Nat) : Except Fault UInt8 :=
  match t.buffer.byte? index with
  | some byte => .ok byte
  | none => .error (.outOfBounds index (t.capacity + 1))

def clear (t : NativeText) : NativeText := { t with metadata := {} }

def setByte (t : NativeText) (index : Nat) (byte : UInt8) : Except Fault NativeText :=
  if index ≤ t.capacity then
    let written := { t with buffer := t.buffer.set index byte }
    .ok (if index < t.byteLength then written.clear else written)
  else .error (.outOfBounds index (t.capacity + 1))

/-- The code range, and the text with what a scan has found out. -/
def codeRange (t : NativeText) : CodeRange × NativeText :=
  if t.metadata.codeRange.isKnown then (t.metadata.codeRange, t)
  else
    let scan := t.encoding.scan t.bytes
    (scan.codeRange, { t with metadata := t.metadata.publishScan scan })

/-- The number of characters, and the text with what has been found out. -/
def characterLength (t : NativeText) : Nat × NativeText :=
  match t.metadata.characterLength with
  | some n => (n, t)
  | none =>
    let (range, t) := t.codeRange
    match t.metadata.characterLength with
    | some n => (n, t)
    | none =>
      let n := t.encoding.countCharacters range t.bytes 0 t.byteLength
      (n, { t with metadata := t.metadata.publishCharacterLength n })

def terminate (t : NativeText) : NativeText := { t with buffer := t.buffer.set t.byteLength 0 }

/-- Moves to a larger buffer with room for `byteLength` bytes, and frees the old one. -/
def grow (t : NativeText) (byteLength : Nat) (f : Finalization) :
    Except Fault (NativeText × Finalization) := do
  let (buffer, f) ← Buffer.allocate f byteLength
  let kept := min t.byteLength byteLength
  return ({ t with buffer := buffer.copyFront t.buffer kept }, t.buffer.release f)

/-- Makes the text `byteLength` bytes long, and moves it if there is no room. -/
def resize (t : NativeText) (byteLength : Nat) (f : Finalization) :
    Except Fault (NativeText × Finalization) := do
  let (t, f) ← if t.capacity < byteLength then t.grow byteLength f else pure (t, f)
  return ({ t with byteLength }.terminate.clear, f)

/-- Makes the text `byteLength` bytes long, with what the caller knows about the result. -/
def setByteLength (t : NativeText) (byteLength : Nat) (characterLength : Option Nat)
    (codeRange : CodeRange) (f : Finalization) : Except Fault (NativeText × Finalization) := do
  let (t, f) ← if t.capacity < byteLength then t.resize byteLength f else pure (t, f)
  let metadata := Metadata.ofKnown codeRange characterLength
  return ({ { t with byteLength }.terminate with metadata }, f)

def toRope (t : NativeText) : Query Rope := do
  let rope ← Rope.ofBytes t.encoding t.bytes t.metadata.codeRange
  if let some n := t.metadata.characterLength then Query.publishCharacterLength rope.id n
  return rope

end NativeText

end RopeBridge
