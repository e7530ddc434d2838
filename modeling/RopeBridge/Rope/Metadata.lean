import RopeBridge.Rope.Content

/-! Code range and character length of ropes. A node takes them over from its parts where the parts
decide them, and is scanned otherwise; a scan for the code range counts the characters as well.
Answers are remembered, so no node is scanned twice. -/

namespace RopeBridge.Rope

/-- Answers from the ledger, or computes a code range and remembers it. -/
def rememberCodeRange (r : Rope) (compute : Query CodeRange) : Query CodeRange := do
  let known ← r.knownCodeRange
  if known.isKnown then return known
  Query.publishCodeRange r.id (← compute)

def scanned (r : Rope) : Query CodeRange := do
  Query.note .codeRangeScan r.id
  let found := r.encoding.scan (← r.bytes)
  Query.publishCharacterLength r.id found.characters
  return found.codeRange

/-- The code range of a part as seen in the encoding `e` of the whole, if it says anything there. -/
def inheritedRange (e : Encoding) (part : Rope) (range : Query CodeRange) :
    Query (Option CodeRange) := do
  if part.encoding = e then return some (← range)
  if e.asciiCompatible && part.encoding.asciiCompatible then
    return if (← range) = .sevenBit then some .sevenBit else none
  return none

/-- Takes over what the parts say. Two broken parts may make a valid whole, so that is scanned. -/
def adopt (r : Rope) : Option CodeRange → Query CodeRange
  | some .sevenBit => return .sevenBit
  | some .valid => return .valid
  | _ => r.scanned

def codeRange (r : Rope) : Query CodeRange := r.rememberCodeRange do
  match r with
  | leaf .. => r.scanned
  | joined n left right =>
    let a ← inheritedRange n.encoding left left.codeRange
    let b ← inheritedRange n.encoding right right.codeRange
    r.adopt (match a, b with
      | some a, some b => some (a.common b)
      | _, _ => none)
  | excerpt _ child _ =>
    r.adopt (if (← child.codeRange) = .sevenBit then some .sevenBit else none)
  | repeated n child _ => r.adopt (← inheritedRange n.encoding child child.codeRange)

def isAsciiOnly (r : Rope) : Query Bool := return (← r.codeRange) = .sevenBit

/-- Whether the characters of a part are characters of the whole in the encoding `e`. -/
def reusable (e : Encoding) (part : Rope) : Query Bool := do
  match ← inheritedRange e part part.codeRange with
  | some .sevenBit | some .valid => return true
  | _ => return false

/-- Answers from the ledger, or computes a character length and remembers it. -/
def rememberCharacterLength (r : Rope) (compute : Query Nat) : Query Nat := do
  if let some n ← r.knownCharacterLength then return n
  let n ← compute
  match ← r.knownCharacterLength with
  | some known => return known
  | none =>
    Query.publishCharacterLength r.id n
    return n

def counted (r : Rope) (range : CodeRange) : Query Nat := do
  Query.note .characterCount r.id
  return r.encoding.countCharacters range (← r.bytes) 0 r.byteLength

def characterLength (r : Rope) : Query Nat := r.rememberCharacterLength do
  if r.encoding.singleByte then return r.byteLength
  let range ← r.codeRange
  if let some n ← r.knownCharacterLength then return n
  match range with
  | .sevenBit => return r.byteLength
  | .valid =>
    match r with
    | joined n left right =>
      if ← reusable n.encoding left then
        if ← reusable n.encoding right then
          return Metadata.wrapLength ((← left.characterLength) + (← right.characterLength))
      r.counted range
    | repeated n child times =>
      if ← reusable n.encoding child then
        return Metadata.wrapLength ((← child.characterLength) * times)
      r.counted range
    | _ => r.counted range
  | _ => r.counted range

end RopeBridge.Rope
