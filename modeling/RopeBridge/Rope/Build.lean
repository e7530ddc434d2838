import RopeBridge.Rope.Metadata

/-! Making ropes: leaves from bytes, concatenation with negotiation of the encoding, windows,
repetition and relabelling. New nodes are made over existing ones without copying bytes; the result
of an operation that changes nothing is the rope itself. -/

namespace RopeBridge.Rope

/-- Concatenations deeper than this are flattened. -/
def defaultFlattenDepth : Nat := 1024

def newLeaf (e : Encoding) (codeRange : CodeRange) (bytes : List UInt8) : Query Rope := do
  return .leaf (← Query.newNode e bytes.length 1 codeRange none) bytes

/-- A rope over `bytes`. A code range other than `unknown` is taken on trust. -/
def ofBytes (e : Encoding) (bytes : List UInt8) (codeRange : CodeRange) : Query Rope :=
  if bytes = [] then return empty e else newLeaf e codeRange bytes

/-- A UTF-8 rope over the bytes of a text, which are known to be valid. -/
def utf8 (text : String) : Query Rope :=
  let bytes := text.toUTF8.toList
  ofBytes .utf8 bytes (if bytes.all Encoding.isAscii then .sevenBit else .valid)

def ascii (text : String) : Query Rope := ofBytes .usAscii text.toUTF8.toList .unknown

def flatten (r : Rope) : Query Rope := do
  if r.isLeaf then return r
  let bytes ← r.bytes
  let leaf ← newLeaf r.encoding (← r.knownCodeRange) bytes
  if let some n ← r.knownCharacterLength then Query.publishCharacterLength leaf.id n
  return leaf

/-- What is known about the code range of a rope as seen in the encoding `e`. -/
def knownRangeIn (e : Encoding) (r : Rope) : Query CodeRange := do
  let known ← r.knownCodeRange
  if r.encoding = e then return known
  if known = .sevenBit ∧ e.asciiCompatible ∧ r.encoding.asciiCompatible then return .sevenBit
  return .unknown

def withEncoding (r : Rope) (e : Encoding) : Query Rope := do
  if e = r.encoding then return r
  if r.isEmpty then return empty e
  let known ← knownRangeIn e r
  newLeaf e (if known = .sevenBit then .sevenBit else .unknown) (← r.bytes)

/-- The encoding of a concatenation, if the two sides agree on one. An empty side takes the encoding
of the other; otherwise a side of plain ASCII gives way to the other one. -/
def compatibleEncoding (left right : Rope) : Query (Option Encoding) := do
  if left.encoding = right.encoding then return some left.encoding
  if right.isEmpty then return some left.encoding
  if left.isEmpty then return some right.encoding
  if !left.encoding.asciiCompatible || !right.encoding.asciiCompatible then return none
  if ← right.isAsciiOnly then return some left.encoding
  if ← left.isAsciiOnly then return some right.encoding
  return none

/-- Concatenates under the encoding `e`. A result deeper than `maxDepth` becomes a leaf. -/
def concatBounded (left right : Rope) (e : Encoding) (maxDepth : Nat) : Build Rope := do
  let byteLength := left.byteLength + right.byteLength
  if lengthLimit ≤ byteLength then throw .lengthOverflow
  if right.isEmpty then return ← left.withEncoding e
  if left.isEmpty then return ← right.withEncoding e
  let known := ((← knownRangeIn e left).common (← knownRangeIn e right)).dropBroken
  let depth := max left.depth right.depth + 1
  if maxDepth < depth then
    let front ← left.bytes
    let back ← right.bytes
    return ← newLeaf e known (front ++ back)
  return .joined (← Query.newNode e byteLength depth known none) left right

def concatWithin (maxDepth : Nat) (left right : Rope) : Build Rope := do
  match ← compatibleEncoding left right with
  | some e => concatBounded left right e maxDepth
  | none => throw (.encodingMismatch left.encoding right.encoding)

def concat (left right : Rope) : Build Rope := concatWithin defaultFlattenDepth left right

/-- Settles the windows that need no new node: beyond the end, empty, whole, or one byte of an
ASCII-compatible encoding. Any other window is left to `cut`. -/
def narrow (r : Rope) (offset length : Nat) (cut : Build Rope) : Build Rope := do
  let stop := offset + length
  if lengthLimit ≤ stop then throw .lengthOverflow
  if r.byteLength < stop then throw (.outOfBounds stop r.byteLength)
  if length = 0 then return empty r.encoding
  if length = r.byteLength then return r
  if length = 1 ∧ r.encoding.asciiCompatible then
    return singleByte r.encoding (← r.getByte offset)
  cut

/-- A new window node. Only plain ASCII is sure to stay so in every window. -/
def view (r : Rope) (offset length : Nat) : Build Rope := do
  let known := if (← r.knownCodeRange) = .sevenBit then CodeRange.sevenBit else .unknown
  return .excerpt (← Query.newNode r.encoding length (r.depth + 1) known none) r offset

/-- The window of `length` bytes at `offset`, taken from the smallest part that holds it: a window
of a window goes to what that was cut from, and a window inside one side of a concatenation or
inside one unit of a repetition goes to that part. -/
def substring (r : Rope) (offset length : Nat) : Build Rope := r.narrow offset length <|
  match r with
  | leaf .. => r.view offset length
  | excerpt _ child base => child.substring (base + offset) length
  | joined n left right =>
    let split := left.byteLength
    if offset + length ≤ split ∧ left.encoding = n.encoding then left.substring offset length
    else if split ≤ offset ∧ right.encoding = n.encoding then
      right.substring (offset - split) length
    else r.view offset length
  | repeated _ child _ =>
    let unit := child.byteLength
    if offset / unit = (offset + length - 1) / unit then child.substring (offset % unit) length
    else r.view offset length

def replicate (r : Rope) (times : Nat) : Build Rope := do
  let byteLength := r.byteLength * times
  if lengthLimit ≤ byteLength then throw .lengthOverflow
  if byteLength = 0 then return empty r.encoding
  if times = 1 then return r
  let known := (← r.knownCodeRange).dropBroken
  let length ← r.knownCharacterLength
  let characters := if known.isKnown then length.map fun n => Metadata.wrapLength (n * times)
    else none
  return .repeated (← Query.newNode r.encoding byteLength (r.depth + 1) known characters) r times

/-- The byte at which the character number `index` begins; the number of characters stands for the
end. -/
def charOffset (r : Rope) (index : Nat) : Build Nat := do
  let direct ← if r.encoding.singleByte then pure true else r.isAsciiOnly
  if direct then
    if r.byteLength < index then throw (.outOfBounds index r.byteLength)
    return index
  match r.encoding.offsetOf? (← r.bytes) index with
  | some offset => return offset
  | none => throw (.outOfBounds index (← r.characterLength))

/-- The window of `length` characters from the character number `offset` on. -/
def substringChars (r : Rope) (offset length : Nat) : Build Rope := do
  let stop := offset + length
  if lengthLimit ≤ stop then throw .lengthOverflow
  let first ← r.charOffset offset
  let last ← r.charOffset stop
  r.substring first (last - first)

end RopeBridge.Rope
