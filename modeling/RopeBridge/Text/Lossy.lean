import RopeBridge.Encoding.CodePoint

/-! Showing bytes as text whatever they hold. What is no character becomes U+FFFD: in UTF-8 once
for each longest stretch that begins like a character, in UTF-16 once for each surrogate without
its partner. An odd byte at the end of UTF-16 is left out. -/

namespace RopeBridge

/-- Stands for bytes that are no character. -/
def replacement : Char := Char.ofNat 0xFFFD

namespace Utf8

/-- How many of the front bytes one replacement character stands for. -/
def malformedLength : List UInt8 → Nat
  | [] => 0
  | b :: rest =>
    match lead? b with
    | some l => fitting l.following l.low l.high rest + 1
    | none => 1

/-- The characters `done`, the latest first, and those of what follows the first `skip` bytes. -/
def lossyOnto (done : List Char) : Nat → List UInt8 → List Char
  | _, [] => done.reverse
  | skip + 1, _ :: rest => lossyOnto done skip rest
  | 0, b :: rest =>
    match measure (b :: rest) with
    | .found n => lossyOnto (Char.ofNat (codePoint ((b :: rest).take n)) :: done) (n - 1) rest
    | _ => lossyOnto (replacement :: done) (malformedLength (b :: rest) - 1) rest

def lossy (bytes : List UInt8) : List Char := lossyOnto [] 0 bytes

end Utf8

namespace Utf16

/-- The characters `done`, the latest first, and those that some bytes spell. -/
def lossyOnto (done : List Char) : List UInt8 → List Char
  | a :: b :: rest =>
    if isHighSurrogate (unit a b) then
      match rest with
      | c :: d :: others =>
        if isLowSurrogate (unit c d) then
          lossyOnto (Char.ofNat (combine (unit a b) (unit c d)) :: done) others
        else lossyOnto (replacement :: done) (c :: d :: others)
      | short => lossyOnto (replacement :: done) short
    else if isLowSurrogate (unit a b) then lossyOnto (replacement :: done) rest
    else lossyOnto (Char.ofNat (unit a b) :: done) rest
  | _ => done.reverse

def lossy (bytes : List UInt8) : List Char := lossyOnto [] bytes

end Utf16

namespace Encoding

/-- The text that `bytes` are shown as. ISO-8859-1 bytes are the first 256 characters; bytes of the
other one-byte encodings are read like UTF-8. -/
def lossyText (e : Encoding) (bytes : List UInt8) : String :=
  String.ofList <| match e with
    | utf16le => Utf16.lossy bytes
    | latin1 => bytes.map fun b => Char.ofNat b.toNat
    | _ => Utf8.lossy bytes

end Encoding

end RopeBridge
