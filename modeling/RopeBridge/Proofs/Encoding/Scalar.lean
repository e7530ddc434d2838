import RopeBridge.Encoding.CodePoint
import RopeBridge.Proofs.Encoding.Extension
import RopeBridge.Proofs.Encoding.Utf8

/-! Characters as scalar values. The characters of UTF-8 are the forms that scalar values are written
in, each read back as its value, and those of UTF-16 are units that are no surrogates and pairs of a
high surrogate and a low one. -/
namespace RopeBridge

theorem exists_scalar {v : Nat} (scalar : v < 0xD800 ∨ 0xDFFF < v ∧ v < 0x110000) :
    ∃ c : Char, c.val.toNat = v := ⟨Char.ofNatAux v scalar, rfl⟩

namespace Utf8

/-- A byte that continues a character. -/
def Tail (b : UInt8) : Prop := 0x80 ≤ b ∧ b ≤ 0xBF

/-- The bytes of a character, one constructor for each length. -/
inductive Form : List UInt8 → Prop where
  | one {a : UInt8} : a < 0x80 → Form [a]
  | two {a b : UInt8} : 0xC2 ≤ a ∧ a ≤ 0xDF → Tail b → Form [a, b]
  | three {a b c : UInt8} : 0xE0 ≤ a ∧ a ≤ 0xEF → Tail b → (a = 0xE0 → 0xA0 ≤ b) →
      (a = 0xED → b ≤ 0x9F) → Tail c → Form [a, b, c]
  | four {a b c d : UInt8} : 0xF0 ≤ a ∧ a ≤ 0xF4 → Tail b → (a = 0xF0 → 0x90 ≤ b) →
      (a = 0xF4 → b ≤ 0x8F) → Tail c → Tail d → Form [a, b, c, d]

/-- A byte that is due is there, in its window. -/
theorem measureFollowing_succ {width due : Nat} {low high : UInt8} {bytes : List UInt8} {n : Nat}
    (found : measureFollowing width (due + 1) low high bytes = .found n) :
    ∃ b rest, bytes = b :: rest ∧ (low ≤ b ∧ b ≤ high) ∧
      measureFollowing width due 0x80 0xBF rest = .found n := by
  cases bytes with
  | nil => cases found
  | cons b rest =>
    simp only [measureFollowing] at found
    split at found
    next inside => exact ⟨b, rest, rfl, inside, found⟩
    next => cases found

/-- A lead byte tells the length by the stretch it lies in. -/
theorem lead?_cases {b : UInt8} {l : Lead} (h : lead? b = some l) :
    (0xC2 ≤ b ∧ b ≤ 0xDF) ∨ (0xE0 ≤ b ∧ b ≤ 0xEF) ∨ (0xF0 ≤ b ∧ b ≤ 0xF4) := by
  unfold lead? at h
  grind

theorem Form.of_isCharacter {bytes : List UInt8} (h : Encoding.utf8.IsCharacter bytes) :
    Form bytes := by
  have found := isCharacter_iff.1 h
  cases bytes with
  | nil => cases found
  | cons a rest =>
    simp only [measure] at found
    split at found
    next ascii =>
      obtain rfl : rest = [] := by simpa using found
      exact .one ascii
    next =>
      split at found
      next l lead =>
        have width := (measureFollowing_found found).1
        rcases lead?_cases lead with two | three | four
        · cases lead.symm.trans (lead?_two two)
          obtain ⟨b, rest, rfl, second, _⟩ := measureFollowing_succ found
          obtain rfl : rest = [] := by simpa using width
          exact .two two second
        · cases lead.symm.trans (lead?_three three)
          obtain ⟨b, rest, rfl, second, found⟩ := measureFollowing_succ found
          obtain ⟨c, rest, rfl, third, _⟩ := measureFollowing_succ found
          obtain rfl : rest = [] := by simpa using width
          refine .three three ⟨?_, ?_⟩ ?_ ?_ third <;> grind
        · cases lead.symm.trans (lead?_four four)
          obtain ⟨b, rest, rfl, second, found⟩ := measureFollowing_succ found
          obtain ⟨c, rest, rfl, third, found⟩ := measureFollowing_succ found
          obtain ⟨d, rest, rfl, fourth, _⟩ := measureFollowing_succ found
          obtain rfl : rest = [] := by simpa using width
          refine .four four ⟨?_, ?_⟩ ?_ ?_ third fourth <;> grind
      next => cases found

theorem Tail.toNat {b : UInt8} (h : Tail b) : 0x80 ≤ b.toNat ∧ b.toNat ≤ 0xBF := h

theorem ofNat_eq {n : Nat} {b : UInt8} (h : n = b.toNat) : UInt8.ofNat n = b := by
  rw [h, UInt8.ofNat_toNat]

/-- The windows leave exactly the scalar values: no value is spelled longer than it has to be, and
none is a surrogate or too great. -/
theorem Form.exists_scalar {bytes : List UInt8} (form : Form bytes) :
    ∃ c : Char, c.val.toNat = codePoint bytes ∧ String.utf8EncodeChar c = bytes := by
  cases form with
  | @one a ascii =>
    have small : a.toNat < 0x80 := ascii
    obtain ⟨c, value⟩ := RopeBridge.exists_scalar (v := a.toNat) (by omega)
    refine ⟨c, value, ?_⟩
    unfold String.utf8EncodeChar
    simp only [value]
    rw [if_pos (by omega), UInt8.ofNat_toNat]
  | @two a b lead second =>
    have lead : 0xC2 ≤ a.toNat ∧ a.toNat ≤ 0xDF := lead
    have second := second.toNat
    obtain ⟨c, value⟩ := RopeBridge.exists_scalar
      (v := a.toNat % 0x20 * 0x40 + b.toNat % 0x40) (by omega)
    refine ⟨c, value, ?_⟩
    unfold String.utf8EncodeChar
    simp only [value]
    rw [if_neg (by omega), if_pos (by omega), ofNat_eq (b := a) (by omega),
      ofNat_eq (b := b) (by omega)]
  | @three a b c lead second overlong surrogate third =>
    have lead : 0xE0 ≤ a.toNat ∧ a.toNat ≤ 0xEF := lead
    have second := second.toNat
    have third := third.toNat
    have overlong : a.toNat = 0xE0 → 0xA0 ≤ b.toNat := fun h => overlong (UInt8.toNat_inj.1 h)
    have surrogate : a.toNat = 0xED → b.toNat ≤ 0x9F := fun h => surrogate (UInt8.toNat_inj.1 h)
    obtain ⟨s, value⟩ := RopeBridge.exists_scalar
      (v := a.toNat % 0x10 * 0x1000 + b.toNat % 0x40 * 0x40 + c.toNat % 0x40) (by omega)
    refine ⟨s, value, ?_⟩
    unfold String.utf8EncodeChar
    simp only [value]
    rw [if_neg (by omega), if_neg (by omega), if_pos (by omega), ofNat_eq (b := a) (by omega),
      ofNat_eq (b := b) (by omega), ofNat_eq (b := c) (by omega)]
  | @four a b c d lead second overlong tooGreat third fourth =>
    have lead : 0xF0 ≤ a.toNat ∧ a.toNat ≤ 0xF4 := lead
    have second := second.toNat
    have third := third.toNat
    have fourth := fourth.toNat
    have overlong : a.toNat = 0xF0 → 0x90 ≤ b.toNat := fun h => overlong (UInt8.toNat_inj.1 h)
    have tooGreat : a.toNat = 0xF4 → b.toNat ≤ 0x8F := fun h => tooGreat (UInt8.toNat_inj.1 h)
    obtain ⟨s, value⟩ := RopeBridge.exists_scalar
      (v := a.toNat % 0x08 * 0x40000 + b.toNat % 0x40 * 0x1000 + c.toNat % 0x40 * 0x40 +
        d.toNat % 0x40) (by omega)
    refine ⟨s, value, ?_⟩
    unfold String.utf8EncodeChar
    simp only [value]
    rw [if_neg (by omega), if_neg (by omega), if_neg (by omega), ofNat_eq (b := a) (by omega),
      ofNat_eq (b := b) (by omega), ofNat_eq (b := c) (by omega), ofNat_eq (b := d) (by omega)]

/-- The characters are the forms of scalar values. -/
theorem isCharacter_iff_scalar {bytes : List UInt8} :
    Encoding.utf8.IsCharacter bytes ↔ ∃ c : Char, String.utf8EncodeChar c = bytes := by
  constructor
  · intro character
    obtain ⟨c, _, written⟩ := (Form.of_isCharacter character).exists_scalar
    exact ⟨c, written⟩
  · rintro ⟨c, rfl⟩
    exact isCharacter_encodeChar c

end Utf8

namespace Utf16

/-- The two bytes of a unit, the low one first. -/
def unitBytes (u : UInt16) : List UInt8 := [u.toUInt8, (u >>> 8).toUInt8]

/-- The units of a character. -/
inductive Form : List UInt16 → Prop where
  | unit {u : UInt16} : ¬ (0xD800 ≤ u ∧ u ≤ 0xDFFF) → Form [u]
  | pair {high low : UInt16} : 0xD800 ≤ high ∧ high ≤ 0xDBFF → 0xDC00 ≤ low ∧ low ≤ 0xDFFF →
      Form [high, low]

theorem unit_unitBytes (u : UInt16) : unit u.toUInt8 (u >>> 8).toUInt8 = u.toNat := by
  have := u.toNat_lt
  simp [unit, UInt16.toNat_shiftRight, Nat.shiftRight_eq_div_pow]
  omega

theorem unitBytes_ofNat_unit (a b : UInt8) : unitBytes (UInt16.ofNat (unit a b)) = [a, b] := by
  have := a.toNat_lt
  have := b.toNat_lt
  simp only [unitBytes, List.cons.injEq, and_true, ← UInt8.toNat_inj, UInt16.toNat_toUInt8,
    UInt16.toNat_shiftRight, UInt16.toNat_ofNat', Nat.shiftRight_eq_div_pow, unit]
  simp
  omega

theorem isHighSurrogate_toNat (u : UInt16) :
    isHighSurrogate u.toNat = true ↔ 0xD800 ≤ u ∧ u ≤ 0xDBFF := by
  simp [isHighSurrogate, UInt16.le_iff_toNat_le]

theorem isLowSurrogate_toNat (u : UInt16) :
    isLowSurrogate u.toNat = true ↔ 0xDC00 ≤ u ∧ u ≤ 0xDFFF := by
  simp [isLowSurrogate, UInt16.le_iff_toNat_le]

theorem Form.isCharacter {units : List UInt16} (form : Form units) :
    Encoding.utf16le.IsCharacter (units.flatMap unitBytes) := by
  cases form with
  | @unit u plain =>
    have notHigh : isHighSurrogate u.toNat = false := by
      rw [Bool.eq_false_iff, ne_eq, isHighSurrogate_toNat]
      grind
    have notLow : isLowSurrogate u.toNat = false := by
      rw [Bool.eq_false_iff, ne_eq, isLowSurrogate_toNat]
      grind
    simp [Encoding.IsCharacter, Encoding.measure, measure, unitBytes, unit_unitBytes, notHigh,
      notLow]
  | @pair high low first second =>
    have first := (isHighSurrogate_toNat high).2 first
    have second := (isLowSurrogate_toNat low).2 second
    simp [Encoding.IsCharacter, Encoding.measure, measure, unitBytes, unit_unitBytes, first,
      second]

theorem exists_unit (a b : UInt8) : ∃ u : UInt16, unitBytes u = [a, b] ∧ unit a b = u.toNat := by
  have spelled := unitBytes_ofNat_unit a b
  refine ⟨_, spelled, ?_⟩
  rw [← unit_unitBytes]
  simp only [unitBytes, List.cons.injEq, and_true] at spelled
  rw [spelled.1, spelled.2]

/-- The characters are the units that are no surrogates and the pairs of surrogates. -/
theorem isCharacter_iff_units {bytes : List UInt8} :
    Encoding.utf16le.IsCharacter bytes ↔ ∃ units, Form units ∧ units.flatMap unitBytes = bytes := by
  constructor
  · intro character
    rcases bytes with _ | ⟨a, _ | ⟨b, rest⟩⟩
    · cases character
    · cases character
    · obtain ⟨u, spelled, value⟩ := exists_unit a b
      have found : measure (a :: b :: rest) = .found (rest.length + 2) := character
      simp only [measure, value] at found
      split at found
      next high =>
        rcases rest with _ | ⟨c, _ | ⟨d, rest⟩⟩
        · cases found
        · cases found
        · obtain ⟨v, spelled', value'⟩ := exists_unit c d
          simp only [value'] at found
          split at found
          next low =>
            obtain rfl : rest = [] := by simpa using found
            refine ⟨[u, v], .pair ((isHighSurrogate_toNat u).1 high)
              ((isLowSurrogate_toNat v).1 low), ?_⟩
            simp [spelled, spelled']
          next => cases found
      next notHigh =>
        split at found
        · cases found
        next notLow =>
          obtain rfl : rest = [] := by simpa using found
          refine ⟨[u], .unit fun surrogate => ?_, by simp [spelled]⟩
          rw [isHighSurrogate_toNat] at notHigh
          rw [isLowSurrogate_toNat] at notLow
          grind
  · rintro ⟨units, form, rfl⟩
    exact form.isCharacter

end Utf16

namespace Encoding

/-- A character is found exactly where one stands in front. -/
theorem measure_eq_found_iff_character {e : Encoding} {bytes : List UInt8} {n : Nat} :
    e.measure bytes = .found n ↔
      ∃ character, e.IsCharacter character ∧ character <+: bytes ∧ n = character.length := by
  constructor
  · intro found
    have inside := (measure_found found).2.2
    refine ⟨bytes.take n, ?_, List.take_prefix n bytes, by simp [Nat.min_eq_left inside]⟩
    simp [IsCharacter, measure_take found, Nat.min_eq_left inside]
  · rintro ⟨character, own, ⟨rest, rfl⟩, rfl⟩
    exact measure_append own rest

/-- What the three verdicts of a measure say of the bytes and of all that may follow them, and which
bytes are characters. -/
theorem measure_verdicts (bytes : List UInt8) :
    (∀ e : Encoding,
      (∀ n, e.measure bytes = .found n ↔
        n ≤ bytes.length ∧ e.measure (bytes.take n) = .found n) ∧
      (∀ n, e.measure bytes = .found n → ∀ more, e.measure (bytes ++ more) = .found n) ∧
      (e.measure bytes = .invalid ↔ ∀ more n, e.measure (bytes ++ more) ≠ .found n) ∧
      ∀ k, e.measure bytes = .needMore k ↔ 1 ≤ k ∧
        (∃ more : List UInt8, more.length = k ∧
          e.measure (bytes ++ more) = .found (bytes.length + k)) ∧
        ∀ more : List UInt8, more.length < k → ∀ n, e.measure (bytes ++ more) ≠ .found n) ∧
    (∀ n, utf8.measure bytes = .found n ↔
      ∃ c : Char, String.utf8EncodeChar c <+: bytes ∧ n = (String.utf8EncodeChar c).length) ∧
    ∀ n, utf16le.measure bytes = .found n ↔
      ∃ units, Utf16.Form units ∧ units.flatMap Utf16.unitBytes <+: bytes ∧
        n = (units.flatMap Utf16.unitBytes).length := by
  refine ⟨fun e => ⟨fun n => measure_eq_found_iff, fun n => measure_append,
    measure_eq_invalid_iff, fun k => measure_eq_needMore_iff⟩, fun n => ?_, fun n => ?_⟩
  · rw [measure_eq_found_iff_character]
    simp only [Utf8.isCharacter_iff_scalar]
    constructor
    · rintro ⟨_, ⟨c, rfl⟩, front, length⟩
      exact ⟨c, front, length⟩
    · rintro ⟨c, front, length⟩
      exact ⟨_, ⟨c, rfl⟩, front, length⟩
  · rw [measure_eq_found_iff_character]
    simp only [Utf16.isCharacter_iff_units]
    constructor
    · rintro ⟨_, ⟨units, form, rfl⟩, front, length⟩
      exact ⟨units, form, front, length⟩
    · rintro ⟨units, form, front, length⟩
      exact ⟨_, ⟨units, form, rfl⟩, front, length⟩

/-- The first half of a character of four bytes lacks two bytes, and whatever single byte follows
completes nothing. -/
theorem measure_verdicts_half :
    utf8.measure [0xF0, 0x90] = .needMore 2 ∧ ∀ b n, utf8.measure [0xF0, 0x90, b] ≠ .found n := by
  have half : utf8.measure [0xF0, 0x90] = .needMore 2 := by decide
  obtain ⟨_, _, least⟩ := (((measure_verdicts [0xF0, 0x90]).1 utf8).2.2.2 2).1 half
  exact ⟨half, fun b => least [b] (by simp)⟩

end Encoding

end RopeBridge
