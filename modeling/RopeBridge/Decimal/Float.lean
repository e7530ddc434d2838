import RopeBridge.Decimal.Shortest

/-! The text of a 64-bit floating-point number given by its bits. The digits are the shortest that
read back; `Layout` holds the format's own decisions. -/

namespace RopeBridge.Decimal

/-- A 64-bit floating-point number taken apart. -/
inductive Float64 where
  | nan
  | infinity (negative : Bool)
  | zero (negative : Bool)
  | finite (negative : Bool) (magnitude : Binary)

/-- The leading digit of normal numbers, which is not written in the word. -/
def hiddenBit : Nat := 0x10000000000000

/-- Sign, exponent and fraction are read off the word; exponent 0 holds the subnormal numbers. -/
def Float64.ofBits (bits : UInt64) : Float64 :=
  let n := bits.toNat
  let negative := n / 0x8000000000000000 = 1
  let exponent : Nat := n / hiddenBit % 2048
  let fraction : Nat := n % hiddenBit
  if exponent = 2047 then
    if fraction = 0 then .infinity negative else .nan
  else if exponent = 0 then
    if fraction = 0 then .zero negative else .finite negative ⟨fraction, -1074, false⟩
  else
    .finite negative ⟨hiddenBit + fraction, (exponent : Int) - 1075, fraction = 0 && 1 < exponent⟩

/-- Where a format writes a decimal point in place, and how it spells the rest. -/
structure Layout where
  /-- The least exponent of the leading digit that is written without an exponent. -/
  leastPositional : Int
  /-- The greatest exponent of the leading digit that is written without an exponent. -/
  greatestPositional : Int
  nan : String
  infinity : String

/-- Numbers from 0.0001 up to 10^16 are written in place, with a digit after the point at least. -/
def plainLayout : Layout := ⟨-4, 15, "NaN", "inf"⟩

def Scientific.significant (s : Scientific) : List Char :=
  ((Nat.toDigits 10 s.digits).reverse.dropWhile (· = '0')).reverse

def Scientific.leading (s : Scientific) : Int :=
  s.exponent + (Nat.toDigits 10 s.digits).length - 1

/-- Digits with the point after the first `places` of them, padded with zeros. -/
def positional (digits : List Char) (places : Int) : List Char :=
  if places ≤ 0 then '0' :: '.' :: (List.replicate (-places).toNat '0' ++ digits)
  else
    let whole := digits.take places.toNat
    let rest := digits.drop places.toNat
    let fraction := if rest = [] then ['0'] else rest
    whole ++ List.replicate (places.toNat - whole.length) '0' ++ '.' :: fraction

/-- One digit, the others after a point, and the exponent. -/
def exponential (digits : List Char) (exponent : Int) : List Char :=
  let mantissa := match digits with
    | [d] => [d]
    | d :: rest => d :: '.' :: rest
    | [] => []
  mantissa ++ 'e' :: (toString exponent).toList

def Layout.magnitude (l : Layout) (b : Binary) : List Char :=
  let s := b.shortest
  if l.leastPositional ≤ s.leading ∧ s.leading ≤ l.greatestPositional then
    positional s.significant (s.leading + 1)
  else exponential s.significant s.leading

def signed (negative : Bool) (text : String) : String := if negative then "-" ++ text else text

def Layout.render (l : Layout) : Float64 → String
  | .nan => l.nan
  | .infinity negative => signed negative l.infinity
  | .zero negative => signed negative "0.0"
  | .finite negative b => signed negative (String.ofList (l.magnitude b))

def floatText (bits : UInt64) : String := plainLayout.render (.ofBits bits)

end RopeBridge.Decimal
