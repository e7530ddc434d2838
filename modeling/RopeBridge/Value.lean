import RopeBridge.Decimal.Float

/-! The values that pass between managed and native code. Numbers and the four singletons are
compared by value, a number by its bits, so that every number equals itself; objects of the heap
are compared by identity. -/

namespace RopeBridge

/-- The number of an object in a heap. Numbers are never given out twice. -/
abbrev ObjectId := Nat

inductive Number where
  | int (value : Int64)
  | float (bits : UInt64)
deriving DecidableEq, Inhabited

inductive Value where
  | nil | true | false
  /-- No value at all. -/
  | undef
  | number (n : Number)
  | object (id : ObjectId)
deriving DecidableEq, Inhabited

inductive Kind where
  | nil | true | false | undef | integer | float | string | symbol | array | data
deriving DecidableEq, Inhabited

namespace Kind

def name : Kind → String
  | nil => "NilClass"
  | true => "TrueClass"
  | false => "FalseClass"
  | undef => "undef"
  | integer => "Integer"
  | float => "Float"
  | string => "String"
  | symbol => "Symbol"
  | array => "Array"
  | data => "Data"

end Kind

namespace Number

def kind : Number → Kind
  | int _ => .integer
  | float _ => .float

def text : Number → String
  | int v => toString v.toInt
  | float bits => Decimal.floatText bits

end Number

namespace Value

def int (v : Int64) : Value := number (.int v)

def float (bits : UInt64) : Value := number (.float bits)

def object? : Value → Option ObjectId
  | object id => some id
  | _ => none

def isImmediate (v : Value) : Bool := v.object?.isNone

def isTruthy : Value → Bool
  | nil | false => Bool.false
  | _ => Bool.true

/-- The kind of a value, given the kinds of objects. -/
def kind (ofObject : ObjectId → Kind) : Value → Kind
  | nil => .nil
  | true => .true
  | false => .false
  | undef => .undef
  | number n => n.kind
  | object id => ofObject id

/-- How a value is shown, given how objects are. -/
def text (ofObject : ObjectId → String) : Value → String
  | nil => "nil"
  | true => "true"
  | false => "false"
  | undef => "undef"
  | number n => n.text
  | object id => ofObject id

/-- A number of its own for every value. -/
def rank : Value → Nat
  | nil => 0
  | true => 1
  | false => 2
  | undef => 3
  | object id => 3 * id + 4
  | number (.int v) => 3 * v.toUInt64.toNat + 5
  | number (.float bits) => 3 * bits.toNat + 6

def objects (vs : List Value) : List ObjectId := vs.filterMap object?

@[simp] theorem object?_object (id : ObjectId) : (object id).object? = some id := rfl

@[simp] theorem object?_eq_some_iff {v : Value} {id : ObjectId} :
    v.object? = some id ↔ v = object id := by cases v <;> simp [object?]

theorem rank_injective {v w : Value} (h : v.rank = w.rank) : v = w := by
  rcases v with _ | _ | _ | _ | (a | a) | a <;> rcases w with _ | _ | _ | _ | (b | b) | b <;>
    simp only [rank] at h <;> try omega
  · rfl
  · rfl
  · rfl
  · rfl
  · have words : a.toUInt64 = b.toUInt64 := UInt64.toNat_inj.1 (by omega)
    rw [← Int64.toInt64_toUInt64 a, words, Int64.toInt64_toUInt64]
  · rw [UInt64.toNat_inj.1 (show a.toNat = b.toNat by omega)]
  · exact congrArg object (Nat.eq_of_mul_eq_mul_left (by decide) (Nat.add_right_cancel h))

@[simp] theorem mem_objects {vs : List Value} {id : ObjectId} :
    id ∈ objects vs ↔ object id ∈ vs := by simp [objects]

end Value

end RopeBridge
