import RopeBridge.Encoding.Basic

/-! The ways an operation of the library fails, as causes. `message` is the one place where a
cause becomes text. -/

namespace RopeBridge

/-- Hexadecimal digits of a word, lower case and without padding. -/
def hexDigits (n : Nat) : String := String.ofList (Nat.toDigits 16 n)

inductive Fault where
  | outOfBounds (index length : Nat)
  | lengthOverflow
  | allocationFailed (capacity : Nat)
  | handleNotFound (word : UInt64)
  | encodingMismatch (left right : Encoding)
  | invalidByteSequence (encoding : Encoding)
  | wrongType (expected actual : String)
  | interrupted (reason : String)
deriving DecidableEq, Inhabited

namespace Fault

def message : Fault → String
  | outOfBounds index length => s!"index {index} out of bounds for length {length}"
  | lengthOverflow => "byte length overflow"
  | allocationFailed capacity => s!"failed to allocate native buffer of {capacity} bytes"
  | handleNotFound word => "native handle not found (0x" ++ hexDigits word.toNat ++ ")"
  | encodingMismatch left right =>
    "incompatible character encodings: " ++ left.name ++ " and " ++ right.name
  | invalidByteSequence encoding => "invalid byte sequence in " ++ encoding.name
  | wrongType expected actual => s!"wrong argument type {actual} (expected {expected})"
  | interrupted reason => s!"interrupted: {reason}"

end Fault

end RopeBridge
