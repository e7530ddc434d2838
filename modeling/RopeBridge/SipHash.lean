/-! The SipHash of some bytes, with one round for every word and three at the end. Words are eight
bytes, the low one first. The last word holds the bytes that are left over and, in its high byte,
the number of bytes, so that zeros at the end count. -/

namespace RopeBridge.SipHash

/-- The word that up to eight bytes spell, the low one first. -/
def word (bytes : List UInt8) : UInt64 := bytes.foldr (fun b w => w <<< 8 ||| b.toUInt64) 0

/-- The eight bytes of a word, the low one first. -/
def wordBytes (w : UInt64) : List UInt8 :=
  [w, w >>> 8, w >>> 16, w >>> 24, w >>> 32, w >>> 40, w >>> 48, w >>> 56].map UInt64.toUInt8

/-- Turns a word to the left by a number of bits. -/
def rotate (w bits : UInt64) : UInt64 := w <<< bits ||| w >>> (64 - bits)

structure State where
  v0 : UInt64
  v1 : UInt64
  v2 : UInt64
  v3 : UInt64
deriving DecidableEq, Inhabited

namespace State

/-- The state that two words of a key start from. -/
def ofKey (k0 k1 : UInt64) : State where
  v0 := k0 ^^^ 0x736F6D6570736575
  v1 := k1 ^^^ 0x646F72616E646F6D
  v2 := k0 ^^^ 0x6C7967656E657261
  v3 := k1 ^^^ 0x7465646279746573

/-- One round: the pairs are added, turned and crossed, then crossed the other way round. -/
def round (s : State) : State :=
  let a := s.v0 + s.v1
  let c := s.v2 + s.v3
  let b := rotate s.v1 13 ^^^ a
  let d := rotate s.v3 16 ^^^ c
  let a := rotate a 32 + d
  let c := c + b
  ⟨a, rotate b 17 ^^^ c, rotate c 32, rotate d 21 ^^^ a⟩

def absorb (s : State) (w : UInt64) : State :=
  let mixed := { s with v3 := s.v3 ^^^ w }.round
  { mixed with v0 := mixed.v0 ^^^ w }

/-- Takes in bytes, the last word of which carries the count of them all. -/
def absorbAll (count : UInt64) (s : State) : List UInt8 → State
  | b0 :: b1 :: b2 :: b3 :: b4 :: b5 :: b6 :: b7 :: rest =>
    absorbAll count (s.absorb (word [b0, b1, b2, b3, b4, b5, b6, b7])) rest
  | rest => s.absorb (word rest ||| count <<< 56)

def finish (s : State) : UInt64 :=
  let s := { s with v2 := s.v2 ^^^ 0xFF }.round.round.round
  s.v0 ^^^ s.v1 ^^^ s.v2 ^^^ s.v3

end State

/-- The hash of some bytes under a key of two words. -/
def hash (k0 k1 : UInt64) (bytes : List UInt8) : UInt64 :=
  ((State.ofKey k0 k1).absorbAll (UInt64.ofNat bytes.length) bytes).finish

end RopeBridge.SipHash
