import RopeBridge.Encoding.Scan

/-! Code range and character length of a text, as far as they are known. A known value stays until
it is cleared. Lengths are below `lengthLimit`; the greatest of them cannot be remembered as a
character length and is found anew each time. -/

namespace RopeBridge

/-- Every length in bytes or characters is below 2^64. -/
def lengthLimit : Nat := 0x10000000000000000

structure Metadata where
  codeRange : CodeRange := .unknown
  characterLength : Option Nat := none
deriving DecidableEq, Inhabited

namespace Metadata

/-- A count of characters put together from others, as 64 bits hold it. Counts that are true of
their bytes never reach the limit. A caller may have claimed a false one that does; a program that
checks its sums stops there, while here it goes on with what 64 bits hold. -/
def wrapLength (n : Nat) : Nat := n % lengthLimit

def remembered (n : Nat) : Option Nat := if n = lengthLimit - 1 then none else some n

def ofKnown (codeRange : CodeRange) (characterLength : Option Nat) : Metadata :=
  ⟨codeRange, characterLength.bind remembered⟩

/-- What a caller knows about a new text. In plain ASCII, and in encodings of one byte a character,
the length in bytes answers for the length in characters. -/
def ofNew (e : Encoding) (byteLength : Nat) (codeRange : CodeRange)
    (characterLength : Option Nat) : Metadata :=
  ofKnown codeRange <|
    if codeRange = .sevenBit ∨ e.singleByte then some byteLength else characterLength

def publishCodeRange (m : Metadata) (r : CodeRange) : Metadata :=
  if m.codeRange.isKnown then m else { m with codeRange := r }

def publishCharacterLength (m : Metadata) (n : Nat) : Metadata :=
  if m.characterLength.isSome then m else { m with characterLength := remembered n }

def publishScan (m : Metadata) (s : Scan) : Metadata :=
  (m.publishCharacterLength s.characters).publishCodeRange s.codeRange

@[simp] theorem wrapLength_of_lt {n : Nat} (h : n < lengthLimit) : wrapLength n = n :=
  Nat.mod_eq_of_lt h

@[simp] theorem remembered_of_lt {n : Nat} (h : n < lengthLimit - 1) : remembered n = some n := by
  simp [remembered, Nat.ne_of_lt h]

@[simp] theorem remembered_eq_some_iff {n k : Nat} :
    remembered n = some k ↔ n = k ∧ n ≠ lengthLimit - 1 := by
  unfold remembered
  split <;> simp_all

@[simp] theorem publishCodeRange_characterLength (m : Metadata) (r : CodeRange) :
    (m.publishCodeRange r).characterLength = m.characterLength := by
  unfold publishCodeRange
  split <;> rfl

@[simp] theorem publishCharacterLength_codeRange (m : Metadata) (n : Nat) :
    (m.publishCharacterLength n).codeRange = m.codeRange := by
  unfold publishCharacterLength
  split <;> rfl

theorem publishCodeRange_of_known {m : Metadata} (h : m.codeRange.isKnown) (r : CodeRange) :
    m.publishCodeRange r = m := by
  simp [publishCodeRange, h]

end Metadata

end RopeBridge
