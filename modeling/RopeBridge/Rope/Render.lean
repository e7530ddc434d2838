import RopeBridge.Rope.Build
import RopeBridge.Text.Lossy

/-! Renderings of ropes: the text they spell, their bytes as escapes, the shape of the tree as an
expression, and the tree itself with what is known about each node. -/

namespace RopeBridge

def hexByte (b : UInt8) : String :=
  String.ofList [Nat.digitChar (b.toNat / 16), Nat.digitChar (b.toNat % 16)]

namespace Rope

def text (r : Rope) : Query String := return r.encoding.lossyText (← r.bytes)

/-- Every byte as an escape `\xNN`. -/
def escapes (r : Rope) : Query String :=
  return String.join ((← r.bytes).map fun b => "\\x" ++ hexByte b)

/-- An expression that rebuilds a rope of the same shape. The window of an excerpt is given in
characters of what it was cut from. -/
def outline (r : Rope) : Query String := do
  match r with
  | leaf .. => return "\"" ++ (← r.text) ++ "\""
  | joined _ left right =>
    let a ← left.outline
    let b ← right.outline
    return s!"({a} + {b})"
  | excerpt _ child offset =>
    let range ← child.codeRange
    let first := child.encoding.countCharacters range (← child.bytes) 0 offset
    let inner ← child.outline
    let length ← r.characterLength
    return s!"{inner}[{first}, {length}]"
  | repeated _ child times =>
    let inner ← child.outline
    return s!"({inner}*{times})"

def kindName : Rope → String
  | leaf .. => "LeafRope"
  | joined .. => "ConcatRope"
  | excerpt .. => "SubstringRope"
  | repeated .. => "RepeatingRope"

/-- What every line of a tree shows: BN bytes not yet flattened, BL length in bytes, CL length in
characters, CR code range. Lengths and ranges are shown as far as they are known. -/
def summary (l : Ledger) (r : Rope) : String :=
  let characters := match (l.entry r.id).characterLength with
    | some n => toString n
    | none => "?"
  let unflattened := if r.hasBytes l then "false" else "true"
  s!"BN: {unflattened}; BL: {r.byteLength}; CL: {characters}; CR: " ++
    (l.entry r.id).codeRange.label

def treeLine (l : Ledger) (r : Rope) (indent front before after : String) : String :=
  indent ++ front ++ "(" ++ r.kindName ++ "; " ++ r.summary l ++ before ++ s!"; D: {r.depth}" ++
    after ++ "; E: " ++ r.encoding.name ++ ")\n"

/-- The lines `above` and those of the tree below a node. -/
def treeOnto (l : Ledger) (strings : Bool) (above indent : String) (r : Rope) : String :=
  let deeper := indent ++ "  "
  match r with
  | leaf n bytes =>
    let front := if strings then "\"" ++ n.encoding.lossyText bytes ++ "\" " else ""
    above ++ r.treeLine l indent front "" ""
  | joined _ left right =>
    let line := r.treeLine l indent "" "" s!"; LD: {left.depth}; RD: {right.depth}"
    right.treeOnto l strings (left.treeOnto l strings (above ++ line) deeper) deeper
  | excerpt _ child offset =>
    child.treeOnto l strings (above ++ r.treeLine l indent "" s!"; O: {offset}" "") deeper
  | repeated _ child times =>
    child.treeOnto l strings (above ++ r.treeLine l indent "" s!"; T: {times}" "") deeper

/-- The tree below a node, one line for each node: O offset, T times, D depth, LD and RD the depths
of the two sides, E encoding. With `strings` a leaf shows its text. -/
def tree (l : Ledger) (strings : Bool) (r : Rope) : String := r.treeOnto l strings "" ""

def caption (l : Ledger) (r : Rope) : String :=
  "Rope \x7b kind: \"" ++ r.kindName ++ "\", encoding: \"" ++ r.encoding.name ++
    s!"\", byte_length: {r.byteLength}, code_range: " ++ (l.entry r.id).codeRange.caption ++ " \x7d"

end Rope

end RopeBridge
