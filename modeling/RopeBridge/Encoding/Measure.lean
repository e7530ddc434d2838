import RopeBridge.Encoding.Basic

/-! Measuring the character at the front of a byte sequence. UTF-8 is read by its lead byte, which
fixes the length and the window of the second byte, so overlong forms, surrogates and values above
U+10FFFF never measure. UTF-16 is read in little-endian units, a pair of surrogates as one
character. -/

namespace RopeBridge

inductive Measure where
  /-- A whole character of this many bytes. -/
  | found (width : Nat)
  /-- No continuation makes these bytes begin with a character. -/
  | invalid
  /-- The beginning of a character that lacks this many bytes. -/
  | needMore (count : Nat)
deriving DecidableEq, Inhabited

namespace Measure

def isFound : Measure → Bool
  | found _ => true
  | _ => false

end Measure

namespace Utf8

/-- What a lead byte announces: how many bytes follow it and the window of the first of them. -/
structure Lead where
  following : Nat
  low : UInt8
  high : UInt8
deriving DecidableEq

/-- The lead bytes of characters of more than one byte. -/
def lead? (b : UInt8) : Option Lead :=
  if 0xC2 ≤ b ∧ b ≤ 0xDF then some ⟨1, 0x80, 0xBF⟩
  else if b = 0xE0 then some ⟨2, 0xA0, 0xBF⟩
  else if b = 0xED then some ⟨2, 0x80, 0x9F⟩
  else if 0xE1 ≤ b ∧ b ≤ 0xEF then some ⟨2, 0x80, 0xBF⟩
  else if b = 0xF0 then some ⟨3, 0x90, 0xBF⟩
  else if 0xF1 ≤ b ∧ b ≤ 0xF3 then some ⟨3, 0x80, 0xBF⟩
  else if b = 0xF4 then some ⟨3, 0x80, 0x8F⟩
  else none

/-- How many of `due` bytes are present and in their window, the first of them within `low..high`
and the others within `80..BF`. -/
def fitting : Nat → UInt8 → UInt8 → List UInt8 → Nat
  | 0, _, _, _ => 0
  | _ + 1, _, _, [] => 0
  | due + 1, low, high, b :: rest =>
    if low ≤ b ∧ b ≤ high then fitting due 0x80 0xBF rest + 1 else 0

/-- The verdict on the bytes after a lead byte that announces `due` more of them. -/
def measureFollowing (width : Nat) : Nat → UInt8 → UInt8 → List UInt8 → Measure
  | 0, _, _, _ => .found width
  | due + 1, _, _, [] => .needMore (due + 1)
  | due + 1, low, high, b :: rest =>
    if low ≤ b ∧ b ≤ high then measureFollowing width due 0x80 0xBF rest else .invalid

def measure : List UInt8 → Measure
  | [] => .needMore 1
  | b :: rest =>
    if b < 0x80 then .found 1
    else match lead? b with
      | some l => measureFollowing (l.following + 1) l.following l.low l.high rest
      | none => .invalid

def isContinuation (b : UInt8) : Bool := b &&& 0xC0 == 0x80

end Utf8

namespace Utf16

/-- The unit that two bytes spell, the low one first. -/
def unit (low high : UInt8) : Nat := low.toNat + 256 * high.toNat

def isHighSurrogate (u : Nat) : Bool := 0xD800 ≤ u && u ≤ 0xDBFF

def isLowSurrogate (u : Nat) : Bool := 0xDC00 ≤ u && u ≤ 0xDFFF

/-- The character a high and a low surrogate stand for. -/
def combine (high low : Nat) : Nat := 0x10000 + (high - 0xD800) * 0x400 + (low - 0xDC00)

def measure : List UInt8 → Measure
  | [] => .needMore 2
  | [_] => .needMore 1
  | a :: b :: rest =>
    if isHighSurrogate (unit a b) then
      match rest with
      | [] => .needMore 2
      | [_] => .needMore 1
      | c :: d :: _ => if isLowSurrogate (unit c d) then .found 4 else .invalid
    else if isLowSurrogate (unit a b) then .invalid
    else .found 2

end Utf16

namespace Encoding

/-- Measures the character at the front of `bytes`. -/
def measure (e : Encoding) (bytes : List UInt8) : Measure :=
  match bytes with
  | [] => .needMore e.minLength
  | b :: _ =>
    match e with
    | binary | latin1 => .found 1
    | usAscii => if b < 0x80 then .found 1 else .invalid
    | utf8 => Utf8.measure bytes
    | utf16le => Utf16.measure bytes

/-- Measures at `start`, looking no further than `stop`; the window has to lie inside `bytes`. -/
def measureWithin? (e : Encoding) (bytes : List UInt8) (start stop : Nat) : Option Measure :=
  if start ≤ stop ∧ stop ≤ bytes.length then
    some (e.measure ((bytes.take stop).drop start))
  else none

end Encoding

theorem Utf8.measureFollowing_found {width due : Nat} {low high : UInt8} {bytes : List UInt8}
    {n : Nat} (h : measureFollowing width due low high bytes = .found n) :
    n = width ∧ due ≤ bytes.length := by
  induction due generalizing low high bytes with
  | zero => simp_all [measureFollowing]
  | succ due ih =>
    cases bytes with
    | nil => simp [measureFollowing] at h
    | cons b rest =>
      simp only [measureFollowing] at h
      split at h
      · have := ih h
        simp only [List.length_cons]
        omega
      · cases h

theorem Utf8.lead?_following_pos {b : UInt8} {l : Lead} (h : lead? b = some l) :
    1 ≤ l.following ∧ l.following ≤ 3 := by
  unfold lead? at h
  repeat' split at h
  all_goals (cases h <;> decide)

theorem Utf8.measure_found {bytes : List UInt8} {n : Nat} (h : measure bytes = .found n) :
    1 ≤ n ∧ n ≤ 4 ∧ n ≤ bytes.length := by
  cases bytes with
  | nil => cases h
  | cons b rest =>
    simp only [measure] at h
    split at h
    · cases h; simp
    · split at h
      · next l hl =>
        have := lead?_following_pos hl
        have := measureFollowing_found h
        simp only [List.length_cons]
        omega
      · cases h

theorem Utf16.measure_found {bytes : List UInt8} {n : Nat} (h : measure bytes = .found n) :
    (n = 2 ∨ n = 4) ∧ n ≤ bytes.length := by
  unfold measure at h
  repeat' split at h
  all_goals (cases h <;> simp)

/-- A found character takes between the least and the most bytes of its encoding, all of them
present. -/
theorem Encoding.measure_found {e : Encoding} {bytes : List UInt8} {n : Nat}
    (h : e.measure bytes = .found n) :
    e.minLength ≤ n ∧ n ≤ e.maxLength ∧ n ≤ bytes.length := by
  cases bytes with
  | nil => cases h
  | cons b rest =>
    cases e <;> simp only [measure] at h
    case utf8 => have := Utf8.measure_found h; simpa [minLength, maxLength]
    case utf16le =>
      have := Utf16.measure_found h
      simp only [minLength, maxLength]
      omega
    case usAscii =>
      split at h
      · cases h; simp [minLength, maxLength]
      · cases h
    all_goals (cases h; simp [minLength, maxLength])

end RopeBridge
