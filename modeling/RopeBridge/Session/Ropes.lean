import RopeBridge.Session.State
import RopeBridge.Rope.Render

/-! Session steps on ropes. -/

namespace RopeBridge.Session

/-- Puts `b` behind `acc`, or before it, `times` times. -/
def concatMany (b : Rope) (inFront : Bool) : (times : Nat) → Rope →
    ExceptT Fault (StateM Bridge) Rope
  | 0, acc => return acc
  | times + 1, acc => do
    let acc ← if inFront then Bridge.concat b acc else Bridge.concat acc b
    concatMany b inFront times acc

def partOf (r : Rope) (which : Part) : Option Rope :=
  match r, which with
  | .joined _ left _, .left => some left
  | .joined _ _ right, .right => some right
  | .excerpt _ child _, .child => some child
  | .repeated _ child _, .child => some child
  | _, _ => none

namespace RopeMaker

/-- The rope, unless a part is asked for that there is not. -/
def run : RopeMaker → Op (Option Rope)
  | ofBytes bytes e known => some <$> Op.act (Bridge.query (Rope.ofBytes e bytes known))
  | utf8 text => some <$> Op.act (Bridge.query (Rope.utf8 text))
  | ascii text => some <$> Op.act (Bridge.query (Rope.ascii text))
  | empty e => return some (Rope.empty e)
  | singleByte e byte => return some (Rope.singleByte e byte)
  | copy r => some <$> Op.rope r
  | concat a b => do made ((← Op.rope a).concat (← Op.rope b))
  | concatIn a b e => do
    made ((← Op.rope a).concatBounded (← Op.rope b) e Rope.defaultFlattenDepth)
  | concatBounded a b e maxDepth => do made ((← Op.rope a).concatBounded (← Op.rope b) e maxDepth)
  | concatWithOptions a b => do
    some <$> Op.attempt (Bridge.concat (← Op.rope a) (← Op.rope b))
  | concatMany a b times inFront => do
    some <$> Op.attempt (Session.concatMany (← Op.rope b) inFront times (← Op.rope a))
  | substring r offset length => do made ((← Op.rope r).substring offset length)
  | substringChars r offset length => do made ((← Op.rope r).substringChars offset length)
  | replicate r times => do made ((← Op.rope r).replicate times)
  | withEncoding r e => do some <$> Op.act (Bridge.query ((← Op.rope r).withEncoding e))
  | flatten r => do some <$> Op.act (Bridge.query (← Op.rope r).flatten)
  | part r which => return partOf (← Op.rope r) which
where
  made (b : Build Rope) : Op (Option Rope) := some <$> Op.attempt (Bridge.build b)

def perform (m : RopeMaker) : Op Outcome := do
  match ← m.run with
  | some rope => return (.rope (← Op.ropeView rope), some (.rope rope))
  | none => return (.nothing, none)

end RopeMaker

namespace RopeQuestion

def perform (r : Rope) : RopeQuestion → Op Answer
  | info => return .rope (← Op.ropeView r)
  | codeRange => return .text (← ask r.codeRange).label
  | characterLength => return .count (← ask r.characterLength)
  | isAsciiOnly => return .truth (← ask r.isAsciiOnly)
  | isEmpty => return .truth r.isEmpty
  | getByte index => return .count (← Op.attempt (Bridge.build (r.getByte index))).toNat
  | charOffset index => return .count (← Op.attempt (Bridge.build (r.charOffset index)))
  | bytes => return .bytes (← ask r.bytes)
  | text => return .text (← ask r.text)
  | escapes => return .text (← ask r.escapes)
  | outline => return .text (← ask r.outline)
  | tree strings => return .text (r.tree (← Op.bridge).ledger strings)
  | caption => return .text (r.caption (← Op.bridge).ledger)
  | equal other => do return .truth (← ask (r.equal (← Op.rope other)))
  | same other => do return .truth (r.sameNode (← Op.rope other))
  | hashesAlike other => do return .truth (← ask (r.hashesAlike (← Op.rope other)))
  | compatible other => do
    match ← ask (r.compatibleEncoding (← Op.rope other)) with
    | some e => return .text e.name
    | none => return .nothing
where
  ask {α : Type} (q : Query α) : Op α := Op.act (Bridge.query q)

end RopeQuestion

end RopeBridge.Session
