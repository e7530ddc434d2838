/-! The character encodings a byte sequence can be labelled with: their names, the widths of
their characters and whether their bytes below 0x80 mean what they mean in US-ASCII. -/

namespace RopeBridge

inductive Encoding where
  | binary | usAscii | utf8 | latin1 | utf16le
deriving DecidableEq, Inhabited

namespace Encoding

def all : List Encoding := [binary, usAscii, utf8, latin1, utf16le]

def index : Encoding → Nat
  | binary => 0
  | usAscii => 1
  | utf8 => 2
  | latin1 => 3
  | utf16le => 4

def name : Encoding → String
  | binary => "ASCII-8BIT"
  | usAscii => "US-ASCII"
  | utf8 => "UTF-8"
  | latin1 => "ISO-8859-1"
  | utf16le => "UTF-16LE"

/-- Reads a name or one of the aliases `BINARY` and `ASCII`; ASCII letters match in either case. -/
def ofName? (name : String) : Option Encoding :=
  let upper := name.map Char.toUpper
  if upper = "BINARY" then some binary
  else if upper = "ASCII" then some usAscii
  else all.find? (·.name = upper)

/-- Whether a byte below 0x80 is always the ASCII character of that number. -/
def asciiCompatible : Encoding → Bool
  | utf16le => false
  | _ => true

def minLength : Encoding → Nat
  | utf16le => 2
  | _ => 1

def maxLength : Encoding → Nat
  | utf8 | utf16le => 4
  | _ => 1

/-- Every character is one byte, so lengths in characters and in bytes agree. -/
def singleByte (e : Encoding) : Bool := e.maxLength == 1

@[simp] theorem all_getElem?_index (e : Encoding) : all[e.index]? = some e := by cases e <;> rfl

theorem index_lt_length_all (e : Encoding) : e.index < all.length := by cases e <;> decide

theorem minLength_pos (e : Encoding) : 0 < e.minLength := by cases e <;> decide

theorem minLength_le_maxLength (e : Encoding) : e.minLength ≤ e.maxLength := by cases e <;> decide

@[simp] theorem singleByte_eq_true_iff (e : Encoding) : e.singleByte = true ↔ e.maxLength = 1 := by
  simp [singleByte]

theorem minLength_of_singleByte {e : Encoding} (h : e.singleByte) : e.minLength = 1 := by
  cases e <;> simp_all [maxLength, minLength]

end Encoding

end RopeBridge
