import RopeBridge.Proofs.Encoding.Scan

/-! UTF-8: every character has one byte that is no continuation, so counting those counts the
characters of valid bytes; and the bytes of a text are valid. -/
namespace RopeBridge.Utf8

theorem isCharacter_iff {bytes : List UInt8} :
    Encoding.utf8.IsCharacter bytes ↔ measure bytes = .found bytes.length := by
  cases bytes with
  | nil => simp [Encoding.IsCharacter, Encoding.measure, measure]
  | cons b rest => exact Iff.rfl

theorem isContinuation_iff (b : UInt8) : isContinuation b = true ↔ 0x80 ≤ b ∧ b ≤ 0xBF := by
  have every : ∀ n : Fin 256,
      isContinuation (UInt8.ofFin n) = true ↔ 0x80 ≤ UInt8.ofFin n ∧ UInt8.ofFin n ≤ 0xBF := by
    decide +kernel
  exact every b.toFin

/-- The windows lie among the continuations, and the lead bytes lie behind them. -/
theorem lead?_window {b : UInt8} {l : Lead} (h : lead? b = some l) :
    0x80 ≤ l.low ∧ l.high ≤ 0xBF ∧ 0xC2 ≤ b := by
  unfold lead? at h
  grind

theorem lead?_two {b : UInt8} (h : 0xC2 ≤ b ∧ b ≤ 0xDF) : lead? b = some ⟨1, 0x80, 0xBF⟩ := by
  simp [lead?, h]

theorem lead?_three {b : UInt8} (h : 0xE0 ≤ b ∧ b ≤ 0xEF) :
    lead? b = some ⟨2, if b = 0xE0 then 0xA0 else 0x80, if b = 0xED then 0x9F else 0xBF⟩ := by
  unfold lead?
  grind

theorem lead?_four {b : UInt8} (h : 0xF0 ≤ b ∧ b ≤ 0xF4) :
    lead? b = some ⟨3, if b = 0xF0 then 0x90 else 0x80, if b = 0xF4 then 0x8F else 0xBF⟩ := by
  unfold lead?
  grind

theorem measure_lead {b : UInt8} {l : Lead} (h : lead? b = some l) (rest : List UInt8) :
    measure (b :: rest) = measureFollowing (l.following + 1) l.following l.low l.high rest := by
  have wide : ¬ b < 0x80 := by
    have := (lead?_window h).2.2
    grind
  simp [measure, wide, h]

/-- The bytes after a lead byte are all continuations. -/
theorem countP_following {width due : Nat} {low high : UInt8} {bytes : List UInt8} {n : Nat}
    (found : measureFollowing width due low high bytes = .found n) (within : 0x80 ≤ low)
    (bound : high ≤ 0xBF) : (bytes.take due).countP (fun b => !isContinuation b) = 0 := by
  induction due generalizing low high bytes with
  | zero => simp
  | succ due ih =>
    cases bytes with
    | nil => simp
    | cons b rest =>
      simp only [measureFollowing] at found
      split at found
      next inside =>
        have continuation : isContinuation b = true :=
          (isContinuation_iff b).2 ⟨UInt8.le_trans within inside.1, UInt8.le_trans inside.2 bound⟩
        simpa [continuation] using ih found (by decide) (by decide)
      next => cases found

theorem countP_character {bytes : List UInt8} (h : Encoding.utf8.IsCharacter bytes) :
    bytes.countP (fun b => !isContinuation b) = 1 := by
  cases bytes with
  | nil => cases h
  | cons b rest =>
    have found := isCharacter_iff.1 h
    simp only [measure] at found
    split at found
    next ascii =>
      have empty : rest = [] := by simpa using found
      have single : isContinuation b = false := by
        have := isContinuation_iff b
        grind
      simp [empty, single]
    next =>
      split at found
      next l lead =>
        obtain ⟨within, bound, first⟩ := lead?_window lead
        obtain ⟨width, _⟩ := measureFollowing_found found
        have following := countP_following found within bound
        have whole : rest.take l.following = rest := by
          apply List.take_of_length_le
          simp only [List.length_cons] at width
          omega
        have start : isContinuation b = false := by
          have := isContinuation_iff b
          grind
        rw [whole] at following
        simp [start, following]
      next => cases found

/-- In valid bytes the characters are as many as the bytes that continue none. -/
theorem countP_encoded {bytes : List UInt8} (h : Encoding.utf8.Encoded bytes) :
    bytes.countP (fun b => !isContinuation b) = (Encoding.utf8.scan bytes).characters := by
  induction h with
  | nil => rfl
  | cons character _ ih =>
    have one := congrArg List.length (Encoding.pieces_character character [])
    rw [List.append_nil, ← Encoding.scan_characters] at one
    rw [List.countP_append, Encoding.scan_characters_append character.encoded,
      countP_character character, ih, one]
    rfl

section

/- The bytes that a scalar value of each width is written with. -/
variable {v : Nat}

theorem tail_window (n : Nat) :
    0x80 ≤ UInt8.ofNat (n % 64 + 0x80) ∧ UInt8.ofNat (n % 64 + 0x80) ≤ 0xBF := by
  simp only [UInt8.le_iff_toNat_le, UInt8.toNat_ofNat', UInt8.reduceToNat]
  omega

theorem measure_one (small : v ≤ 0x7f) : measure [UInt8.ofNat v] = .found 1 := by
  have ascii : UInt8.ofNat v < 0x80 := by
    simp only [UInt8.lt_iff_toNat_lt, UInt8.toNat_ofNat', UInt8.reduceToNat]
    omega
  simp [measure, ascii]

theorem measure_two (large : 0x7f < v) (small : v ≤ 0x7ff) :
    measure [UInt8.ofNat (v / 64 % 32 + 0xc0), UInt8.ofNat (v % 64 + 0x80)] = .found 2 := by
  have lead : 0xC2 ≤ UInt8.ofNat (v / 64 % 32 + 0xc0) ∧
      UInt8.ofNat (v / 64 % 32 + 0xc0) ≤ 0xDF := by
    simp only [UInt8.le_iff_toNat_le, UInt8.toNat_ofNat', UInt8.reduceToNat]
    omega
  have second := tail_window v
  rw [measure_lead (lead?_two lead)]
  simp only [measureFollowing, second, and_self, ite_true]

/-- The window of the second byte leaves out the overlong forms and the surrogates. -/
theorem measure_three (large : 0x7ff < v) (small : v ≤ 0xffff)
    (scalar : v < 0xD800 ∨ 0xDFFF < v) :
    measure [UInt8.ofNat (v / 4096 % 16 + 0xe0), UInt8.ofNat (v / 64 % 64 + 0x80),
      UInt8.ofNat (v % 64 + 0x80)] = .found 3 := by
  have lead : 0xE0 ≤ UInt8.ofNat (v / 4096 % 16 + 0xe0) ∧
      UInt8.ofNat (v / 4096 % 16 + 0xe0) ≤ 0xEF := by
    simp only [UInt8.le_iff_toNat_le, UInt8.toNat_ofNat', UInt8.reduceToNat]
    omega
  have low : (if UInt8.ofNat (v / 4096 % 16 + 0xe0) = 0xE0 then 0xA0 else 0x80) ≤
      UInt8.ofNat (v / 64 % 64 + 0x80) := by
    split <;> simp only [← UInt8.toNat_inj, UInt8.le_iff_toNat_le, UInt8.toNat_ofNat',
      UInt8.reduceToNat] at * <;> omega
  have high : UInt8.ofNat (v / 64 % 64 + 0x80) ≤
      if UInt8.ofNat (v / 4096 % 16 + 0xe0) = 0xED then 0x9F else 0xBF := by
    split <;> simp only [← UInt8.toNat_inj, UInt8.le_iff_toNat_le, UInt8.toNat_ofNat',
      UInt8.reduceToNat] at * <;> omega
  have third := tail_window v
  rw [measure_lead (lead?_three lead)]
  simp only [measureFollowing, low, high, third, and_self, ite_true]

/-- The window of the second byte leaves out the overlong forms and what lies above U+10FFFF. -/
theorem measure_four (large : 0xffff < v) (small : v < 0x110000) :
    measure [UInt8.ofNat (v / 262144 % 8 + 0xf0), UInt8.ofNat (v / 4096 % 64 + 0x80),
      UInt8.ofNat (v / 64 % 64 + 0x80), UInt8.ofNat (v % 64 + 0x80)] = .found 4 := by
  have lead : 0xF0 ≤ UInt8.ofNat (v / 262144 % 8 + 0xf0) ∧
      UInt8.ofNat (v / 262144 % 8 + 0xf0) ≤ 0xF4 := by
    simp only [UInt8.le_iff_toNat_le, UInt8.toNat_ofNat', UInt8.reduceToNat]
    omega
  have low : (if UInt8.ofNat (v / 262144 % 8 + 0xf0) = 0xF0 then 0x90 else 0x80) ≤
      UInt8.ofNat (v / 4096 % 64 + 0x80) := by
    split <;> simp only [← UInt8.toNat_inj, UInt8.le_iff_toNat_le, UInt8.toNat_ofNat',
      UInt8.reduceToNat] at * <;> omega
  have high : UInt8.ofNat (v / 4096 % 64 + 0x80) ≤
      if UInt8.ofNat (v / 262144 % 8 + 0xf0) = 0xF4 then 0x8F else 0xBF := by
    split <;> simp only [← UInt8.toNat_inj, UInt8.le_iff_toNat_le, UInt8.toNat_ofNat',
      UInt8.reduceToNat] at * <;> omega
  have third := tail_window (v / 64)
  have fourth := tail_window v
  rw [measure_lead (lead?_four lead)]
  simp only [measureFollowing, low, high, third, fourth, and_self, ite_true]

end

theorem isCharacter_encodeChar (c : Char) :
    Encoding.utf8.IsCharacter (String.utf8EncodeChar c) := by
  have scalar : c.val.toNat < 0xD800 ∨ 0xDFFF < c.val.toNat ∧ c.val.toNat < 0x110000 := c.valid
  rw [isCharacter_iff]
  unfold String.utf8EncodeChar
  generalize c.val.toNat = v at scalar
  simp only
  split
  · exact measure_one ‹_›
  · split
    · exact measure_two (by omega) ‹_›
    · split
      · exact measure_three (by omega) ‹_› (by omega)
      · exact measure_four (by omega) (by omega)

/-- The loop puts the bytes from a place on behind those it has taken. -/
theorem toList_loop (bytes : ByteArray) (place : Nat) (taken : List UInt8) :
    ByteArray.toList.loop bytes place taken = taken.reverse ++ bytes.data.toList.drop place := by
  fun_induction ByteArray.toList.loop bytes place taken with
  | case1 place taken inside ih =>
    have inside' : place < bytes.data.toList.length := by simpa using inside
    rw [ih, List.drop_eq_getElem_cons inside']
    simp [ByteArray.get!, inside]
  | case2 place taken outside =>
    rw [List.drop_eq_nil_of_le (by simpa using Nat.le_of_not_lt outside)]
    simp

theorem toList_text (text : String) :
    text.toUTF8.toList = text.toList.flatMap String.utf8EncodeChar := by
  have bytes : text.toUTF8 = (text.toList.flatMap String.utf8EncodeChar).toByteArray := by
    rw [String.toUTF8_eq_toByteArray]
    exact congrArg String.toByteArray String.ofList_toList.symm
  rw [bytes, ByteArray.toList, toList_loop, List.toList_data_toByteArray]
  rfl

/-- The bytes of a text are characters from front to back. -/
theorem encoded_text (text : String) : Encoding.utf8.Encoded text.toUTF8.toList := by
  rw [toList_text]
  induction text.toList with
  | nil => exact .nil
  | cons c rest ih => exact .cons (isCharacter_encodeChar c) ih

end RopeBridge.Utf8
