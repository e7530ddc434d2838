import RopeBridge.Encoding.Scan

/-! Bytes that are characters from front to back. What has been measured as a character depends on
its own bytes alone, so such bytes are cut into the same pieces whatever follows them. -/
namespace RopeBridge

theorem Utf8.measureFollowing_append {width due : Nat} {low high : UInt8} {bytes : List UInt8}
    {n : Nat} (found : measureFollowing width due low high bytes = .found n) (more : List UInt8) :
    measureFollowing width due low high (bytes ++ more) = .found n := by
  induction due generalizing low high bytes with
  | zero => simpa [measureFollowing] using found
  | succ due ih =>
    cases bytes with
    | nil => simp [measureFollowing] at found
    | cons b rest =>
      simp only [measureFollowing] at found
      split at found
      next inside => simpa [measureFollowing, inside] using ih found
      next => cases found

theorem Utf8.measureFollowing_take {width due : Nat} {low high : UInt8} {bytes : List UInt8}
    {n : Nat} (found : measureFollowing width due low high bytes = .found n) :
    measureFollowing width due low high (bytes.take due) = .found n := by
  induction due generalizing low high bytes with
  | zero => simpa [measureFollowing] using found
  | succ due ih =>
    cases bytes with
    | nil => simp [measureFollowing] at found
    | cons b rest =>
      simp only [measureFollowing] at found
      split at found
      next inside => simpa [measureFollowing, inside] using ih found
      next => cases found

theorem Utf8.measure_append {bytes : List UInt8} {n : Nat} (found : measure bytes = .found n)
    (more : List UInt8) : measure (bytes ++ more) = .found n := by
  cases bytes with
  | nil => cases found
  | cons b rest =>
    simp only [measure] at found
    split at found
    next ascii => simpa [measure, ascii] using found
    next high =>
      split at found
      next l lead => simpa [measure, high, lead] using measureFollowing_append found more
      next => cases found

theorem Utf8.measure_take {bytes : List UInt8} {n : Nat} (found : measure bytes = .found n) :
    measure (bytes.take n) = .found n := by
  cases bytes with
  | nil => cases found
  | cons b rest =>
    simp only [measure] at found
    split at found
    next ascii =>
      cases found
      simp [measure, ascii]
    next high =>
      split at found
      next l lead =>
        obtain ⟨rfl, _⟩ := measureFollowing_found found
        simpa [measure, high, lead] using measureFollowing_take found
      next => cases found

theorem Utf16.measure_append {bytes : List UInt8} {n : Nat} (found : measure bytes = .found n)
    (more : List UInt8) : measure (bytes ++ more) = .found n := by
  match bytes with
  | [] | [_] => cases found
  | [a, b] =>
    simp only [measure] at found
    split at found
    · cases found
    next notHigh =>
      split at found
      · cases found
      next notLow => simpa [measure, notHigh, notLow] using found
  | [a, b, c] =>
    simp only [measure] at found
    split at found
    · cases found
    next notHigh =>
      split at found
      · cases found
      next notLow => simpa [measure, notHigh, notLow] using found
  | a :: b :: c :: d :: rest => simpa [measure] using found

theorem Utf16.measure_take {bytes : List UInt8} {n : Nat} (found : measure bytes = .found n) :
    measure (bytes.take n) = .found n := by
  match bytes with
  | [] | [_] => cases found
  | a :: b :: rest =>
    simp only [measure] at found
    split at found
    next high =>
      match rest with
      | [] | [_] => cases found
      | c :: d :: rest =>
        simp only at found
        split at found
        next low =>
          cases found
          simp [measure, high, low]
        next => cases found
    next notHigh =>
      split at found
      · cases found
      next notLow =>
        cases found
        simp [measure, notHigh, notLow]

namespace Encoding

/-- A character is found whatever follows it. -/
theorem measure_append {e : Encoding} {bytes : List UInt8} {n : Nat}
    (found : e.measure bytes = .found n) (more : List UInt8) :
    e.measure (bytes ++ more) = .found n := by
  cases bytes with
  | nil => cases found
  | cons b rest =>
    cases e with
    | utf8 =>
      have found : Utf8.measure (b :: rest) = .found n := found
      exact Utf8.measure_append found more
    | utf16le =>
      have found : Utf16.measure (b :: rest) = .found n := found
      exact Utf16.measure_append found more
    | _ => simpa [measure] using found

/-- A character is found in its own bytes. -/
theorem measure_take {e : Encoding} {bytes : List UInt8} {n : Nat}
    (found : e.measure bytes = .found n) : e.measure (bytes.take n) = .found n := by
  have bounds := measure_found found
  have positive := e.minLength_pos
  obtain ⟨k, rfl⟩ : ∃ k, n = k + 1 := ⟨n - 1, by omega⟩
  cases bytes with
  | nil => cases found
  | cons b rest =>
    cases e with
    | utf8 =>
      have found : Utf8.measure (b :: rest) = .found (k + 1) := found
      exact Utf8.measure_take found
    | utf16le =>
      have found : Utf16.measure (b :: rest) = .found (k + 1) := found
      exact Utf16.measure_take found
    | _ => simpa [measure] using found

/-- The bytes of one character. -/
def IsCharacter (e : Encoding) (bytes : List UInt8) : Prop := e.measure bytes = .found bytes.length

/-- Bytes that are characters from front to back. -/
inductive Encoded (e : Encoding) : List UInt8 → Prop where
  | nil : Encoded e []
  | cons {character rest : List UInt8} : e.IsCharacter character → Encoded e rest →
      Encoded e (character ++ rest)

theorem IsCharacter.ne_nil {e : Encoding} {bytes : List UInt8} (h : e.IsCharacter bytes) :
    bytes ≠ [] := by
  rintro rfl
  cases h

theorem IsCharacter.encoded {e : Encoding} {bytes : List UInt8} (h : e.IsCharacter bytes) :
    e.Encoded bytes := by
  simpa using Encoded.cons h .nil

theorem Encoded.append {e : Encoding} {a b : List UInt8} (ha : e.Encoded a) (hb : e.Encoded b) :
    e.Encoded (a ++ b) := by
  induction ha with
  | nil => exact hb
  | cons character _ ih =>
    rw [List.append_assoc]
    exact .cons character ih

/-- The bytes of a character are the first piece of whatever they are at the front of. -/
theorem pieces_character {e : Encoding} {character : List UInt8} (h : e.IsCharacter character)
    (rest : List UInt8) :
    e.pieces (character ++ rest) = ⟨character.length, true⟩ :: e.pieces rest := by
  have piece : e.piece (character ++ rest) = ⟨character.length, true⟩ := by
    simp [Encoding.piece, measure_append h rest]
  rw [e.pieces_of_ne_nil (by simp [h.ne_nil]), piece]
  simp

theorem pieces_append {e : Encoding} {a : List UInt8} (ha : e.Encoded a) (b : List UInt8) :
    e.pieces (a ++ b) = e.pieces a ++ e.pieces b := by
  induction ha with
  | nil => simp
  | cons character _ ih =>
    rw [List.append_assoc, pieces_character character, pieces_character character, ih]
    rfl

theorem Encoded.valid {e : Encoding} {bytes : List UInt8} (h : e.Encoded bytes) :
    (e.pieces bytes).all (·.valid) := by
  induction h with
  | nil => rfl
  | cons character _ ih => simpa [pieces_character character] using ih

theorem length_drop_piece_lt (e : Encoding) {bytes : List UInt8} (nonempty : bytes ≠ []) :
    (bytes.drop (e.piece bytes).width).length < bytes.length := by
  have := e.piece_width_pos nonempty
  have := List.length_pos_iff.2 nonempty
  simp only [List.length_drop]
  omega

/-- Bytes all of whose pieces are characters are characters from front to back. -/
theorem encoded_of_valid {e : Encoding} {bytes : List UInt8}
    (valid : (e.pieces bytes).all (·.valid)) : e.Encoded bytes := by
  by_cases empty : bytes = []
  · subst empty
    exact .nil
  · rw [e.pieces_of_ne_nil empty, List.all_cons, Bool.and_eq_true] at valid
    obtain ⟨first, others⟩ := valid
    have rest := encoded_of_valid others
    cases found : e.measure bytes with
    | found n =>
      have width : (e.piece bytes).width = n := by simp [piece, found]
      have inside := (measure_found found).2.2
      have character : e.IsCharacter (bytes.take n) := by
        simp [IsCharacter, measure_take found, Nat.min_eq_left inside]
      rw [width] at rest
      simpa using Encoded.cons character rest
    | invalid => simp [piece, found] at first
    | needMore => simp [piece, found] at first
termination_by bytes.length
decreasing_by exact e.length_drop_piece_lt empty

theorem encoded_iff {e : Encoding} {bytes : List UInt8} :
    e.Encoded bytes ↔ (e.pieces bytes).all (·.valid) :=
  ⟨Encoded.valid, encoded_of_valid⟩

/-- Bytes are as many as their pieces where every piece is one byte. -/
theorem length_pieces_of_width_one {e : Encoding} {bytes : List UInt8}
    (single : ∀ tail, tail <:+ bytes → tail ≠ [] → (e.piece tail).width = 1) :
    (e.pieces bytes).length = bytes.length := by
  induction bytes with
  | nil => rfl
  | cons b rest ih =>
    rw [e.pieces_of_ne_nil (List.cons_ne_nil b rest), single _ (List.suffix_refl _) (by simp)]
    simp [ih fun tail suffix => single tail (suffix.trans (List.suffix_cons b rest))]

theorem length_pieces_of_singleByte {e : Encoding} (single : e.singleByte) (bytes : List UInt8) :
    (e.pieces bytes).length = bytes.length := by
  refine length_pieces_of_width_one fun tail _ nonempty => ?_
  have least := minLength_of_singleByte single
  have most := (singleByte_eq_true_iff e).1 single
  have positive := List.length_pos_iff.2 nonempty
  unfold piece
  split
  next n found =>
    have := measure_found found
    simp only
    omega
  next => simp [lengthUpTo_eq_min, least]; omega

theorem isCharacter_ascii {e : Encoding} (compatible : e.asciiCompatible) {b : UInt8}
    (ascii : isAscii b) : e.IsCharacter [b] := by
  have low : b < 0x80 := by simpa [isAscii] using ascii
  cases e <;> simp_all [IsCharacter, measure, Utf8.measure, asciiCompatible]

theorem encoded_of_ascii {e : Encoding} (compatible : e.asciiCompatible) {bytes : List UInt8}
    (ascii : bytes.all isAscii) : e.Encoded bytes := by
  induction bytes with
  | nil => exact .nil
  | cons b rest ih =>
    simp only [List.all_cons, Bool.and_eq_true] at ascii
    exact .cons (isCharacter_ascii compatible ascii.1) (ih ascii.2)

theorem length_pieces_of_ascii {e : Encoding} (compatible : e.asciiCompatible)
    {bytes : List UInt8} (ascii : bytes.all isAscii) :
    (e.pieces bytes).length = bytes.length := by
  induction bytes with
  | nil => rfl
  | cons b rest ih =>
    simp only [List.all_cons, Bool.and_eq_true] at ascii
    have first := pieces_character (isCharacter_ascii compatible ascii.1) rest
    simp only [List.singleton_append] at first
    simp [first, ih ascii.2]

theorem length_pieces_le (e : Encoding) (bytes : List UInt8) :
    (e.pieces bytes).length ≤ bytes.length := by
  by_cases empty : bytes = []
  · simp [empty]
  · have positive := e.piece_width_pos empty
    have inside := e.piece_width_le bytes
    have rest := length_pieces_le e (bytes.drop (e.piece bytes).width)
    rw [e.pieces_of_ne_nil empty]
    simp only [List.length_cons, List.length_drop] at *
    omega
termination_by bytes.length
decreasing_by exact e.length_drop_piece_lt empty

end Encoding

end RopeBridge
