/-! What is known about the bytes of a text in its encoding: nothing yet, plain ASCII, valid or
broken. `common` gives the range of two texts put together, as far as the two ranges tell it. -/

namespace RopeBridge

inductive CodeRange where
  | unknown | sevenBit | valid | broken
deriving DecidableEq, Inhabited

namespace CodeRange

def toByte : CodeRange → UInt8
  | unknown => 0
  | sevenBit => 1
  | valid => 2
  | broken => 3

/-- Every byte without a range of its own stands for `unknown`. -/
def ofByte (b : UInt8) : CodeRange :=
  if b = 1 then sevenBit else if b = 2 then valid else if b = 3 then broken else unknown

def isKnown (r : CodeRange) : Bool := r != unknown

/-- The range of a concatenation. Two broken halves may meet in a valid character, so a `broken`
answer calls for a new scan. -/
def common : CodeRange → CodeRange → CodeRange
  | unknown, _ | _, unknown => unknown
  | broken, _ | _, broken => broken
  | sevenBit, sevenBit => sevenBit
  | _, _ => valid

/-- What a new node may take over: every range but `broken`, which is forgotten. -/
def dropBroken : CodeRange → CodeRange
  | broken => unknown
  | r => r

def label : CodeRange → String
  | unknown => "CR_UNKNOWN"
  | sevenBit => "CR_7BIT"
  | valid => "CR_VALID"
  | broken => "CR_BROKEN"

/-- The name a diagnostic rendering of a rope shows. -/
def caption : CodeRange → String
  | unknown => "Unknown"
  | sevenBit => "SevenBit"
  | valid => "Valid"
  | broken => "Broken"

@[simp] theorem ofByte_toByte (r : CodeRange) : ofByte r.toByte = r := by cases r <;> decide

@[simp] theorem isKnown_unknown : isKnown unknown = false := rfl
@[simp] theorem isKnown_sevenBit : isKnown sevenBit = true := rfl
@[simp] theorem isKnown_valid : isKnown valid = true := rfl
@[simp] theorem isKnown_broken : isKnown broken = true := rfl

theorem isKnown_iff (r : CodeRange) : r.isKnown = true ↔ r ≠ unknown := by simp [isKnown]

theorem common_comm (a b : CodeRange) : common a b = common b a := by cases a <;> cases b <;> rfl

theorem common_assoc (a b c : CodeRange) : common (common a b) c = common a (common b c) := by
  cases a <;> cases b <;> cases c <;> rfl

theorem common_eq_sevenBit_iff (a b : CodeRange) :
    common a b = sevenBit ↔ a = sevenBit ∧ b = sevenBit := by
  cases a <;> cases b <;> decide

end CodeRange

end RopeBridge
