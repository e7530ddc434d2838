import RopeBridge.Proofs.Encoding.Scalar

/-! Decoding against the standard encodings. A scalar value is written in UTF-8 by its bytes and in
UTF-16LE by its units, low byte first; decoding gives back what was written and accepts nothing
else. -/
namespace RopeBridge

theorem scalar_bounds (c : Char) :
    c.val.toNat < 0xD800 ∨ 0xDFFF < c.val.toNat ∧ c.val.toNat < 0x110000 := c.valid

/-- The four widths of UTF-8 put back the bits that the writing has dealt out. -/
theorem Utf8.codePoint_encodeChar (c : Char) :
    codePoint (String.utf8EncodeChar c) = c.val.toNat := by
  have scalar := scalar_bounds c
  unfold String.utf8EncodeChar
  generalize c.val.toNat = v at scalar
  simp only
  split
  · simp only [codePoint, UInt8.toNat_ofNat']
    omega
  · split
    · simp only [codePoint, payload, UInt8.toNat_ofNat']
      omega
    · split
      · simp only [codePoint, payload, UInt8.toNat_ofNat']
        omega
      · simp only [codePoint, payload, UInt8.toNat_ofNat']
        omega

namespace Utf16

/-- The units of a scalar value: itself, or from U+10000 on a high and a low surrogate that share
the twenty bits above 0x10000. -/
def encodeChar (c : Char) : List UInt16 :=
  let v := c.val.toNat
  if v < 0x10000 then [UInt16.ofNat v]
  else
    [UInt16.ofNat (0xD800 + (v - 0x10000) / 0x400),
      UInt16.ofNat (0xDC00 + (v - 0x10000) % 0x400)]

/-- The value that units stand for. -/
def value : List UInt16 → Nat
  | [u] => u.toNat
  | high :: low :: _ => combine high.toNat low.toNat
  | [] => 0

theorem form_encodeChar (c : Char) : Form (encodeChar c) := by
  have scalar := scalar_bounds c
  unfold encodeChar
  generalize c.val.toNat = v at scalar
  simp only
  split
  · apply Form.unit
    simp only [UInt16.le_iff_toNat_le, UInt16.toNat_ofNat', UInt16.reduceToNat]
    omega
  · apply Form.pair
    all_goals
      simp only [UInt16.le_iff_toNat_le, UInt16.toNat_ofNat', UInt16.reduceToNat]
      omega

theorem combine_eq (high low : Nat) :
    combine high low = 0x10000 + (high - 0xD800) * 0x400 + (low - 0xDC00) := rfl

theorem value_encodeChar (c : Char) : value (encodeChar c) = c.val.toNat := by
  have scalar := scalar_bounds c
  unfold encodeChar
  generalize c.val.toNat = v at scalar
  simp only
  split
  · simp only [value, UInt16.toNat_ofNat']
    omega
  · have shared := combine_eq (UInt16.ofNat (0xD800 + (v - 0x10000) / 0x400)).toNat
      (UInt16.ofNat (0xDC00 + (v - 0x10000) % 0x400)).toNat
    simp only [UInt16.toNat_ofNat'] at shared
    simp only [value, UInt16.toNat_ofNat']
    omega

/-- Every unit that is no surrogate and every pair of surrogates is how some scalar value is
written. -/
theorem Form.exists_encodeChar {units : List UInt16} (form : Form units) :
    ∃ c : Char, encodeChar c = units := by
  cases form with
  | @unit u plain =>
    have bound := u.toNat_lt
    have plain : ¬ (0xD800 ≤ u.toNat ∧ u.toNat ≤ 0xDFFF) := plain
    obtain ⟨c, scalar⟩ := exists_scalar (v := u.toNat) (by omega)
    refine ⟨c, ?_⟩
    simp only [encodeChar, scalar]
    rw [if_pos (by omega), UInt16.ofNat_toNat]
  | @pair high low first second =>
    have first : 0xD800 ≤ high.toNat ∧ high.toNat ≤ 0xDBFF := first
    have second : 0xDC00 ≤ low.toNat ∧ low.toNat ≤ 0xDFFF := second
    have shared := combine_eq high.toNat low.toNat
    generalize combine high.toNat low.toNat = v at shared
    obtain ⟨c, scalar⟩ := exists_scalar (v := v) (by omega)
    have front : 0xD800 + (v - 0x10000) / 0x400 = high.toNat := by omega
    have back : 0xDC00 + (v - 0x10000) % 0x400 = low.toNat := by omega
    refine ⟨c, ?_⟩
    simp only [encodeChar, scalar, front, back, UInt16.ofNat_toNat]
    rw [if_neg (by omega)]

theorem codePoint_units {units : List UInt16} (form : Form units) :
    codePoint (units.flatMap unitBytes) = value units := by
  cases form <;> simp [unitBytes, codePoint, value, unit_unitBytes]

end Utf16

namespace Encoding

/-- The standard encodings of a scalar value. -/
inductive Writes : Encoding → Char → List UInt8 → Prop where
  | utf8 (c : Char) : Writes utf8 c (String.utf8EncodeChar c)
  | utf16le (c : Char) : Writes utf16le c ((Utf16.encodeChar c).flatMap Utf16.unitBytes)

theorem Writes.isCharacter {e : Encoding} {c : Char} {bytes : List UInt8}
    (written : Writes e c bytes) : e.IsCharacter bytes := by
  cases written with
  | utf8 => exact Utf8.isCharacter_encodeChar c
  | utf16le => exact (Utf16.form_encodeChar c).isCharacter

theorem Writes.decode {e : Encoding} {c : Char} {bytes : List UInt8}
    (written : Writes e c bytes) : e.decode bytes = c.val.toNat := by
  cases written with
  | utf8 => exact Utf8.codePoint_encodeChar c
  | utf16le =>
    exact (Utf16.codePoint_units (Utf16.form_encodeChar c)).trans (Utf16.value_encodeChar c)

/-- In both encodings whatever measures as a character is how a scalar value is written. -/
theorem IsCharacter.exists_writes {e : Encoding} (standard : e = utf8 ∨ e = utf16le)
    {bytes : List UInt8} (character : e.IsCharacter bytes) : ∃ c, Writes e c bytes := by
  rcases standard with rfl | rfl
  · obtain ⟨c, rfl⟩ := Utf8.isCharacter_iff_scalar.1 character
    exact ⟨c, .utf8 c⟩
  · obtain ⟨units, form, rfl⟩ := Utf16.isCharacter_iff_units.1 character
    obtain ⟨c, rfl⟩ := form.exists_encodeChar
    exact ⟨c, .utf16le c⟩

section

variable {e : Encoding} {known : CodeRange} {bytes : List UInt8}

theorem codePoint_found {n : Nat} (plain : known ≠ .sevenBit) (found : e.measure bytes = .found n) :
    e.codePoint known bytes = .ok ⟨n, e.decode (bytes.take n)⟩ := by
  cases bytes with
  | nil => cases found
  | cons b rest => simp [codePoint, plain, found]

theorem codePoint_not_found (plain : known ≠ .sevenBit) (nonempty : bytes ≠ [])
    (unfound : ∀ n, e.measure bytes ≠ .found n) :
    e.codePoint known bytes = .error (.invalidByteSequence e) := by
  cases bytes with
  | nil => exact absurd rfl nonempty
  | cons b rest =>
    cases found : e.measure (b :: rest) with
    | found n => exact absurd found (unfound n)
    | invalid => simp [codePoint, plain, found]
    | needMore count => simp [codePoint, plain, found]

/-- What a decoding can come to: nothing to read, a character in front, or none. -/
theorem codePoint_cases (e : Encoding) (bytes : List UInt8) (plain : known ≠ .sevenBit) :
    (bytes = [] ∧ e.codePoint known bytes = .error (.outOfBounds 0 0)) ∨
    (∃ n, e.measure bytes = .found n ∧
      e.codePoint known bytes = .ok ⟨n, e.decode (bytes.take n)⟩) ∨
    (bytes ≠ [] ∧ (∀ n, e.measure bytes ≠ .found n) ∧
      e.codePoint known bytes = .error (.invalidByteSequence e)) := by
  by_cases empty : bytes = []
  · subst empty
    exact .inl ⟨rfl, rfl⟩
  by_cases found : ∃ n, e.measure bytes = .found n
  · obtain ⟨n, found⟩ := found
    exact .inr (.inl ⟨n, found, codePoint_found plain found⟩)
  · have unfound : ∀ n, e.measure bytes ≠ .found n := fun n here => found ⟨n, here⟩
    exact .inr (.inr ⟨empty, unfound, codePoint_not_found plain empty unfound⟩)

theorem codePoint_ok_iff (plain : known ≠ .sevenBit) {n v : Nat} :
    e.codePoint known bytes = .ok ⟨n, v⟩ ↔
      e.measure bytes = .found n ∧ e.decode (bytes.take n) = v := by
  rcases codePoint_cases e bytes plain with
    ⟨rfl, answer⟩ | ⟨m, found, answer⟩ | ⟨_, unfound, answer⟩
  · simp [answer, measure]
  · rw [answer, found]
    constructor
    · intro same
      cases same
      exact ⟨rfl, rfl⟩
    · rintro ⟨same, rfl⟩
      cases same
      rfl
  · simp [answer, unfound]

theorem codePoint_writes {c : Char} {character : List UInt8} (plain : known ≠ .sevenBit)
    (written : Writes e c character) (rest : List UInt8) :
    e.codePoint known (character ++ rest) = .ok ⟨character.length, c.val.toNat⟩ := by
  rw [codePoint_ok_iff plain, List.take_left]
  exact ⟨measure_append written.isCharacter rest, written.decode⟩

/-- A decoding that answers has read a whole standard encoding. -/
theorem writes_of_codePoint (standard : e = utf8 ∨ e = utf16le) {n v : Nat}
    (plain : known ≠ .sevenBit) (answer : e.codePoint known bytes = .ok ⟨n, v⟩) :
    ∃ c : Char, c.val.toNat = v ∧ n ≤ bytes.length ∧ Writes e c (bytes.take n) := by
  obtain ⟨found, value⟩ := (codePoint_ok_iff plain).1 answer
  have inside := (measure_found found).2.2
  have character : e.IsCharacter (bytes.take n) := by
    simp [IsCharacter, measure_take found, Nat.min_eq_left inside]
  obtain ⟨c, written⟩ := character.exists_writes standard
  exact ⟨c, written.decode.symm.trans value, inside, written⟩

theorem codePoint_error_iff (plain : known ≠ .sevenBit) {fault : Fault} :
    e.codePoint known bytes = .error fault ↔
      (bytes = [] ∧ fault = .outOfBounds 0 0) ∨
      (bytes ≠ [] ∧ (∀ n, e.measure bytes ≠ .found n) ∧ fault = .invalidByteSequence e) := by
  rcases codePoint_cases e bytes plain with
    ⟨rfl, answer⟩ | ⟨n, found, answer⟩ | ⟨nonempty, unfound, answer⟩
  · simp [answer, eq_comm]
  · have nonempty : bytes ≠ [] := by
      rintro rfl
      cases found
    simp [answer, nonempty, found]
  · simp [answer, nonempty, unfound, eq_comm]

theorem decode_singleton (compatible : e.asciiCompatible) (b : UInt8) :
    e.decode [b] = b.toNat := by
  cases e with
  | utf16le => cases compatible
  | _ => rfl

/-- The shortcut for bytes known to be ASCII gives what measuring gives. -/
theorem codePoint_ascii (compatible : e.asciiCompatible) (ascii : bytes.all isAscii) :
    e.codePoint .sevenBit bytes = e.codePoint known bytes := by
  cases bytes with
  | nil => rfl
  | cons b rest =>
    simp only [List.all_cons, Bool.and_eq_true] at ascii
    -- with the same knowledge on both sides there is nothing to compare
    by_cases shortcut : known = .sevenBit
    · rw [shortcut]
    · have found : e.measure (b :: rest) = .found 1 :=
        measure_append (isCharacter_ascii compatible ascii.1) rest
      have plain : e.codePoint known (b :: rest) = .ok ⟨1, b.toNat⟩ :=
        (codePoint_ok_iff shortcut).2 ⟨found, decode_singleton compatible b⟩
      rw [plain]
      simp [codePoint]

theorem isAscii_iff {b : UInt8} : isAscii b = true ↔ b < 0x80 := by simp [isAscii]

theorem codePoint_ascii_front (compatible : e.asciiCompatible) {b : UInt8} (ascii : b < 0x80) :
    e.codePoint .unknown bytes = .ok ⟨1, b.toNat⟩ ↔ bytes.head? = some b := by
  rw [codePoint_ok_iff (by decide)]
  cases bytes with
  | nil => simp [measure]
  | cons a rest =>
    simp only [List.take_succ_cons, List.take_zero, decode_singleton compatible, List.head?_cons,
      Option.some.injEq, UInt8.toNat_inj]
    constructor
    · exact fun answer => answer.2
    · rintro rfl
      exact ⟨measure_append (isCharacter_ascii compatible (isAscii_iff.2 ascii)) rest, rfl⟩

theorem codePoint_unit_front {b : UInt8} (ascii : b < 0x80) :
    utf16le.codePoint .unknown bytes = .ok ⟨2, b.toNat⟩ ↔ ∃ rest, bytes = b :: 0 :: rest := by
  rw [codePoint_ok_iff (by decide)]
  have small : b.toNat < 0x80 := ascii
  constructor
  · rintro ⟨found, value⟩
    rcases bytes with _ | ⟨low, _ | ⟨high, rest⟩⟩
    · cases found
    · cases found
    · have unit : low.toNat + 256 * high.toNat = b.toNat := value
      obtain rfl : high = 0 := UInt8.toNat_inj.1 (by simpa using (by omega : high.toNat = 0))
      obtain rfl : low = b := UInt8.toNat_inj.1 (by simpa using unit)
      exact ⟨rest, rfl⟩
  · rintro ⟨rest, rfl⟩
    have unit : Utf16.unit b 0 = b.toNat := by simp [Utf16.unit]
    have notHigh : Utf16.isHighSurrogate b.toNat = false := by
      simp [Utf16.isHighSurrogate]
      omega
    have notLow : Utf16.isLowSurrogate b.toNat = false := by
      simp [Utf16.isLowSurrogate]
      omega
    exact ⟨by simp [measure, Utf16.measure, unit, notHigh, notLow],
      by simp [decode, Utf16.codePoint, unit]⟩

/-- What stands in front as ASCII is what decodes to a value below 0x80 in the fewest bytes. -/
theorem asciiFront?_eq_some_iff {b : UInt8} :
    e.asciiFront? bytes = some b ↔
      b < 0x80 ∧ e.codePoint .unknown bytes = .ok ⟨e.minLength, b.toNat⟩ := by
  by_cases compatible : e.asciiCompatible
  · have front : e.asciiFront? bytes = some b ↔ b < 0x80 ∧ bytes.head? = some b := by
      cases bytes <;> cases e <;> grind [asciiFront?, asciiCompatible, isAscii_iff]
    have least : e.minLength = 1 := by
      cases e with
      | utf16le => cases compatible
      | _ => rfl
    rw [front, least]
    exact and_congr_right fun ascii => (codePoint_ascii_front compatible ascii).symm
  · obtain rfl : e = utf16le := by cases e <;> simp [asciiCompatible] at compatible ⊢
    have front : utf16le.asciiFront? bytes = some b ↔
        b < 0x80 ∧ ∃ rest, bytes = b :: 0 :: rest := by
      rcases bytes with _ | ⟨low, _ | ⟨high, rest⟩⟩ <;> grind [asciiFront?, isAscii_iff]
    rw [front]
    exact and_congr_right fun ascii => (codePoint_unit_front ascii).symm

end

/-- Decoding inverts the standard encodings: in front of any bytes it gives back the scalar value
that was written, it answers nothing else, and it fails on no bytes and on bytes that begin with no
character. The shortcut for ASCII and the look at an ASCII character in front agree with it. -/
theorem codePoint_inverts :
    (∀ (c : Char) (rest : List UInt8) (known : CodeRange), known ≠ .sevenBit →
      utf8.codePoint known (String.utf8EncodeChar c ++ rest) =
        .ok ⟨(String.utf8EncodeChar c).length, c.val.toNat⟩ ∧
      utf16le.codePoint known ((Utf16.encodeChar c).flatMap Utf16.unitBytes ++ rest) =
        .ok ⟨((Utf16.encodeChar c).flatMap Utf16.unitBytes).length, c.val.toNat⟩) ∧
    (∀ (e : Encoding) (known : CodeRange) (bytes : List UInt8), known ≠ .sevenBit →
      (e = utf8 ∨ e = utf16le → ∀ n v, e.codePoint known bytes = .ok ⟨n, v⟩ →
        ∃ c : Char, c.val.toNat = v ∧ n ≤ bytes.length ∧ Writes e c (bytes.take n)) ∧
      ∀ fault, e.codePoint known bytes = .error fault ↔
        (bytes = [] ∧ fault = .outOfBounds 0 0) ∨
        (bytes ≠ [] ∧ (∀ n, e.measure bytes ≠ .found n) ∧ fault = .invalidByteSequence e)) ∧
    (∀ (e : Encoding) (known : CodeRange) (bytes : List UInt8), e.asciiCompatible →
      bytes.all isAscii → e.codePoint .sevenBit bytes = e.codePoint known bytes) ∧
    ∀ (e : Encoding) (bytes : List UInt8) (b : UInt8), e.asciiFront? bytes = some b ↔
      b < 0x80 ∧ e.codePoint .unknown bytes = .ok ⟨e.minLength, b.toNat⟩ :=
  ⟨fun c rest _ plain =>
      ⟨codePoint_writes plain (.utf8 c) rest, codePoint_writes plain (.utf16le c) rest⟩,
    fun _ _ _ plain => ⟨fun standard _ _ => writes_of_codePoint standard plain,
      fun _ => codePoint_error_iff plain⟩,
    fun _ _ _ => codePoint_ascii, fun _ _ _ => asciiFront?_eq_some_iff⟩

/-- A pair of surrogates with a letter behind it, and the two bytes of an accented letter. -/
theorem codePoint_inverts_pair :
    CodeRange.valid ≠ .sevenBit ∧
    utf16le.codePoint .valid [0x3D, 0xD8, 0x00, 0xDE, 0x41] = .ok ⟨4, 0x1F600⟩ ∧
    ∃ c : Char, c.val.toNat = 0xE9 ∧ Writes utf8 c [0xC3, 0xA9] := by
  have plain : CodeRange.valid ≠ .sevenBit := by decide
  have units : (Utf16.encodeChar '😀').flatMap Utf16.unitBytes = [0x3D, 0xD8, 0x00, 0xDE] := by
    decide
  have pair := (codePoint_inverts.1 '😀' [0x41] .valid plain).2
  rw [units] at pair
  have answer : utf8.codePoint .valid [0xC3, 0xA9, 0x41] = .ok ⟨2, 0xE9⟩ := rfl
  obtain ⟨c, value, _, written⟩ :=
    (codePoint_inverts.2.1 utf8 .valid _ plain).1 (.inl rfl) 2 0xE9 answer
  exact ⟨plain, pair, c, value, written⟩

end Encoding

end RopeBridge
