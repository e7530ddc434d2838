import RopeBridge.Proofs.Encoding.Pass
import RopeBridge.Proofs.Rope.Reading

/-! Counting the characters of a stretch of bytes. The count takes one of four ways, by what is known
of the stretch and by the encoding; each looks at no other bytes and comes to the number of rounds
that the loop makes over the stretch. -/
namespace RopeBridge.Encoding

/-- The bytes in `[start, stop)`. -/
def stretch (bytes : List UInt8) (start stop : Nat) : List UInt8 := (bytes.take stop).drop start

theorem length_stretch {bytes : List UInt8} {start stop : Nat} (inside : stop ≤ bytes.length) :
    (stretch bytes start stop).length = stop - start := by
  simp [stretch, Nat.min_eq_left inside]

theorem countCharacters_eq (e : Encoding) (hint : CodeRange) (bytes : List UInt8)
    (start stop : Nat) :
    e.countCharacters hint bytes start stop =
      if hint = .sevenBit ∨ e.singleByte then stop - start
      else if hint = .valid ∧ e = .utf8 then
        (stretch bytes start stop).countP fun b => !Utf8.isContinuation b
      else (e.scan (stretch bytes start stop)).characters := rfl

/-- The bytes around a stretch have no part in its count. -/
theorem countCharacters_stretch (e : Encoding) (hint : CodeRange) {bytes : List UInt8}
    {start stop : Nat} (inside : stop ≤ bytes.length) :
    e.countCharacters hint bytes start stop =
      e.countCharacters hint (stretch bytes start stop) 0 (stretch bytes start stop).length := by
  have size : (stretch bytes start stop).length = stop - start := length_stretch inside
  have itself : stretch (stretch bytes start stop) 0 (stop - start) = stretch bytes start stop := by
    rw [← size, stretch, List.take_length, List.drop_zero]
  rw [countCharacters_eq, countCharacters_eq, size, itself, Nat.sub_zero]

/-- Of a stretch of which nothing is known every byte is a character, or it is scanned. -/
theorem countCharacters_unknown (e : Encoding) (bytes : List UInt8) :
    e.countCharacters .unknown bytes 0 bytes.length = (e.scan bytes).characters := by
  by_cases single : e.singleByte = true
  · rw [scan_characters_of_singleByte single]
    simp [countCharacters, single]
  · simp [countCharacters, single]

/-- The number of characters of some bytes, by every way of counting them. -/
structure Counts (e : Encoding) (bytes : List UInt8) (n : Nat) : Prop where
  scan : (e.scan bytes).characters = n
  /-- The loop visits one character after another and then no more. -/
  loop : ∃ s, Pass.rounds e bytes n {} = some s ∧ s.next? e bytes = none
  /-- Well-formed UTF-8 has one byte for each character that does not continue one. -/
  leads : e = .utf8 → e.Encoded bytes → bytes.countP (fun b => !Utf8.isContinuation b) = n

theorem counts_scan (e : Encoding) (bytes : List UInt8) :
    e.Counts bytes (e.scan bytes).characters := by
  constructor
  case scan => rfl
  case loop =>
    rw [scan_characters]
    exact ⟨_, Pass.rounds_eq_upTo (Nat.le_refl _), Pass.next?_upTo_length⟩
  case leads =>
    rintro rfl encoded
    exact Utf8.countP_encoded encoded

/-- If nothing is said of the range of a stretch, or what a scan of it finds, it is counted as the
scan counts it. -/
theorem countCharacters_counts {e : Encoding} {hint : CodeRange} {bytes : List UInt8}
    {start stop : Nat} (inside : stop ≤ bytes.length)
    (right : hint = .unknown ∨ hint = (e.scan (stretch bytes start stop)).codeRange) :
    e.Counts (stretch bytes start stop) (e.countCharacters hint bytes start stop) := by
  have count : e.countCharacters hint bytes start stop =
      (e.scan (stretch bytes start stop)).characters := by
    rw [countCharacters_stretch e hint inside]
    rcases right with rfl | rfl
    · exact countCharacters_unknown e _
    · exact Reading.countCharacters_scan e _
  rw [count]
  exact counts_scan e _

/-- Three characters of three bytes each. -/
def threeWide : List UInt8 := [0xE6, 0x97, 0xA5, 0xE6, 0x9C, 0xAC, 0xE8, 0xAA, 0x9E]

/-- The character in the middle, which is known to be valid. -/
theorem countCharacters_counts_middle :
    utf8.countCharacters .valid threeWide 3 6 = 1 ∧
      utf8.Counts [0xE6, 0x9C, 0xAC] (utf8.countCharacters .valid threeWide 3 6) := by
  have right : CodeRange.valid = (utf8.scan (stretch threeWide 3 6)).codeRange := by decide
  exact ⟨by decide, countCharacters_counts (by decide) (.inr right)⟩

end RopeBridge.Encoding
