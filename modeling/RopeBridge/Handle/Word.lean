import RopeBridge.Value
import RopeBridge.Fault

/-! The words that native code holds in place of values. The singletons and the integers of 63 bits
are written in the word itself; an object has a slot of a block in a reserved region, where words
are multiples of eight. -/

namespace RopeBridge

structure Handle where
  word : UInt64
deriving DecidableEq, Inhabited

namespace Handle

def ofFalse : Handle := ⟨0⟩
def ofTrue : Handle := ⟨2⟩
def ofNil : Handle := ⟨4⟩
def ofUndef : Handle := ⟨6⟩

/-- The integers with a word of their own are those of 63 bits. -/
def fitsWord (v : Int64) : Bool :=
  -0x4000000000000000 ≤ v.toInt && v.toInt < 0x4000000000000000

/-- An integer is doubled and made odd. -/
def ofInt (v : Int64) : Handle := ⟨(Int64.ofInt (2 * v.toInt + 1)).toUInt64⟩

/-- The word of a value that is written in the word itself. -/
def ofImmediate? : Value → Option Handle
  | .false => some ofFalse
  | .true => some ofTrue
  | .nil => some ofNil
  | .undef => some ofUndef
  | .number (.int v) => if fitsWord v then some (ofInt v) else none
  | .number (.float _) | .object _ => none

/-- Odd words are integers. -/
def isInt (h : Handle) : Bool := h.word.toNat % 2 = 1

/-- Multiples of eight other than zero are the words of objects. -/
def isObject (h : Handle) : Bool := h.word ≠ 0 && h.word.toNat % 8 = 0

/-- Half of the word as a signed number, rounded down. -/
def toInt (h : Handle) : Int64 := Int64.ofInt (h.word.toInt64.toInt / 2)

def immediate? (h : Handle) : Option Value :=
  if h = ofFalse then some .false
  else if h = ofTrue then some .true
  else if h = ofNil then some .nil
  else if h = ofUndef then some .undef
  else if h.isInt then some (.int h.toInt)
  else none

def slotsPerBlock : Nat := 4096

/-- The bytes a block of slots takes in the region. -/
def blockBytes : Nat := 8 * slotsPerBlock

def regionStart : Nat := 0x0bad000000000000

/-- The block that a word of the region belongs to. -/
def block? (h : Handle) : Option Nat :=
  if h.isObject ∧ regionStart ≤ h.word.toNat then
    some ((h.word.toNat - regionStart) / blockBytes)
  else none

def slot (h : Handle) : Nat := h.word.toNat % blockBytes / 8

def ofSlot (block slot : Nat) : Handle :=
  ⟨UInt64.ofNat (regionStart + blockBytes * block + 8 * slot)⟩

def text (h : Handle) : String := "0x" ++ hexDigits h.word.toNat

def caption (h : Handle) : String := "Handle(" ++ h.text ++ ")"

end Handle

end RopeBridge
