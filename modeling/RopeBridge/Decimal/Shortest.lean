/-! The shortest decimal that reads back as a given binary floating-point number. A number is
`m * 2 ^ q` exactly; the decimals that read back as it fill an interval around it, which holds its
ends when `m` is even. Of the decimals with the fewest digits in it the nearest is taken. -/

namespace RopeBridge.Decimal

structure Ratio where
  num : Nat
  den : Nat

def Ratio.scaled (n : Nat) (q : Int) : Ratio :=
  if 0 ≤ q then ⟨n * Nat.pow 2 q.toNat, 1⟩ else ⟨n, Nat.pow 2 (-q).toNat⟩

def Ratio.decimal (n : Nat) (e : Int) : Ratio :=
  if 0 ≤ e then ⟨n * Nat.pow 10 e.toNat, 1⟩ else ⟨n, Nat.pow 10 (-e).toNat⟩

def Ratio.le (a b : Ratio) : Bool := a.num * b.den ≤ b.num * a.den

def Ratio.lt (a b : Ratio) : Bool := a.num * b.den < b.num * a.den

/-- The whole part of `a / 10 ^ e`. -/
def Ratio.floorAt (a : Ratio) (e : Int) : Nat :=
  if 0 ≤ e then a.num / (a.den * Nat.pow 10 e.toNat)
  else a.num * Nat.pow 10 (-e).toNat / a.den

/-- A finite positive number `m * 2 ^ q` in binary. `narrow` holds where the next lower number is
only half as far away as the next higher one. -/
structure Binary where
  m : Nat
  q : Int
  narrow : Bool

namespace Binary

def value (b : Binary) : Ratio := .scaled (4 * b.m) (b.q - 2)

/-- The lower end of the interval that reads back as the number. -/
def lower (b : Binary) : Ratio := .scaled (4 * b.m - (if b.narrow then 1 else 2)) (b.q - 2)

/-- The upper end of the interval that reads back as the number. -/
def upper (b : Binary) : Ratio := .scaled (4 * b.m + 2) (b.q - 2)

def accepts (b : Binary) (r : Ratio) : Bool :=
  if b.m % 2 = 0 then b.lower.le r && r.le b.upper else b.lower.lt r && r.lt b.upper

/-- The exponent of the leading decimal digit: the greatest `e` with `10 ^ e` at most the number. -/
def leading (b : Binary) : Int :=
  let v := b.value
  if v.den ≤ v.num then ((Nat.toDigits 10 (v.num / v.den)).length : Int) - 1
  else
    let lag : Nat := ((List.range 400).find? fun k => v.den ≤ v.num * Nat.pow 10 (k + 1)).getD 400
    Int.negSucc lag

end Binary

/-- The decimal `digits * 10 ^ exponent`. -/
structure Scientific where
  digits : Nat
  exponent : Int

/-- The neighbour of the number on the grid of multiples of `10 ^ e` that reads back; the nearer
one, and the upper one when both are equally near. -/
def Binary.neighbour? (b : Binary) (e : Int) : Option Scientific :=
  let below := b.value.floorAt e
  let up := b.accepts (.decimal (below + 1) e)
  let down := b.accepts (.decimal below e)
  let middle := Ratio.decimal (10 * below + 5) (e - 1)
  if down && up then some ⟨if b.value.lt middle then below else below + 1, e⟩
  else if down then some ⟨below, e⟩
  else if up then some ⟨below + 1, e⟩
  else none

/-- The shortest decimal that reads back: the first grid, from one digit upwards, with a neighbour
that does. Seventeen digits always suffice. -/
def Binary.shortest (b : Binary) : Scientific :=
  let lead := b.leading
  let found := (List.range 17).findSome? fun k : Nat => b.neighbour? (lead - (k : Int))
  found.getD ⟨b.value.floorAt lead, lead⟩

end RopeBridge.Decimal
