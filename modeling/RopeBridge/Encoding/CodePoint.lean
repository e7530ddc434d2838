import RopeBridge.Encoding.Scan
import RopeBridge.Fault

/-! Decoding the character at the front of a byte sequence into its code point. -/

namespace RopeBridge

namespace Utf8

/-- The six low bits, which a byte that continues a character contributes. -/
def payload (b : UInt8) : Nat := b.toNat % 0x40

def codePoint : List UInt8 → Nat
  | [] => 0
  | [a] => a.toNat
  | [a, b] => a.toNat % 0x20 * 0x40 + payload b
  | [a, b, c] => a.toNat % 0x10 * 0x1000 + payload b * 0x40 + payload c
  | a :: b :: c :: d :: _ =>
    a.toNat % 0x08 * 0x40000 + payload b * 0x1000 + payload c * 0x40 + payload d

end Utf8

namespace Utf16

/-- The code point of one whole character, a unit or a pair of surrogates. -/
def codePoint : List UInt8 → Nat
  | a :: b :: c :: d :: _ => combine (unit a b) (unit c d)
  | a :: b :: _ => unit a b
  | _ => 0

end Utf16

namespace Encoding

def decode (e : Encoding) (character : List UInt8) : Nat :=
  match e with
  | utf8 => Utf8.codePoint character
  | utf16le => Utf16.codePoint character
  | _ => (character.headD 0).toNat

structure Decoded where
  length : Nat
  codePoint : Nat
deriving DecidableEq

/-- Decodes the first character. Bytes known to be plain ASCII are not measured. -/
def codePoint (e : Encoding) (known : CodeRange) (bytes : List UInt8) : Except Fault Decoded :=
  match bytes with
  | [] => .error (.outOfBounds 0 0)
  | b :: _ =>
    if known = .sevenBit then .ok ⟨1, b.toNat⟩
    else match e.measure bytes with
      | .found n => .ok ⟨n, e.decode (bytes.take n)⟩
      | _ => .error (.invalidByteSequence e)

def asciiFront? (e : Encoding) (bytes : List UInt8) : Option UInt8 :=
  match e, bytes with
  | utf16le, a :: b :: _ => if b = 0 ∧ isAscii a then some a else none
  | utf16le, _ => none
  | _, a :: _ => if isAscii a then some a else none
  | _, [] => none

end Encoding

end RopeBridge
