import RopeBridge.Proofs.Encoding.Characters

/-! What a scan finds out about bytes put together: which of the four ranges it answers, and that
ranges and counts of parts that are not broken add up. -/
namespace RopeBridge.Encoding

theorem scan_characters (e : Encoding) (bytes : List UInt8) :
    (e.scan bytes).characters = (e.pieces bytes).length := by
  unfold scan
  split
  next plain =>
    rw [Bool.and_eq_true] at plain
    exact (length_pieces_of_ascii plain.1 plain.2).symm
  next =>
    split
    next single =>
      rw [Bool.and_eq_true] at single
      exact (length_pieces_of_singleByte single.1 bytes).symm
    next => simp [scanPieces_eq]

theorem scan_characters_le (e : Encoding) (bytes : List UInt8) :
    (e.scan bytes).characters ≤ bytes.length := by
  rw [scan_characters]
  exact e.length_pieces_le bytes

theorem scan_characters_of_singleByte {e : Encoding} (single : e.singleByte)
    (bytes : List UInt8) : (e.scan bytes).characters = bytes.length := by
  rw [scan_characters, length_pieces_of_singleByte single]

theorem scan_codeRange_eq_sevenBit_iff {e : Encoding} {bytes : List UInt8} :
    (e.scan bytes).codeRange = .sevenBit ↔
      e.asciiCompatible = true ∧ bytes.all isAscii = true := by
  unfold scan
  split
  next plain => simpa using plain
  next other =>
    have different : ¬ (e.asciiCompatible = true ∧ bytes.all isAscii = true) := by
      simpa only [Bool.and_eq_true] using other
    refine iff_of_false ?_ different
    split
    · simp
    · simp only [scanPieces_eq]
      split <;> simp

theorem encoded_of_wide {e : Encoding} (single : e.singleByte) (wide : e ≠ .usAscii)
    (bytes : List UInt8) : e.Encoded bytes := by
  induction bytes with
  | nil => exact .nil
  | cons b rest ih =>
    have character : e.IsCharacter [b] := by
      cases e <;> simp_all [IsCharacter, measure, singleByte, maxLength]
    exact .cons character ih

/-- Bytes are not broken exactly when they are characters from front to back. -/
theorem scan_codeRange_ne_broken_iff {e : Encoding} {bytes : List UInt8} :
    (e.scan bytes).codeRange ≠ .broken ↔ e.Encoded bytes := by
  unfold scan
  split
  next plain =>
    rw [Bool.and_eq_true] at plain
    simpa using encoded_of_ascii plain.1 plain.2
  next =>
    split
    next single =>
      simp only [Bool.and_eq_true, bne_iff_ne] at single
      simpa using encoded_of_wide single.1 single.2 bytes
    next =>
      rw [encoded_iff, scanPieces_eq]
      split <;> simp_all

/-- The range of bytes that are not broken is told by whether they are plain ASCII. -/
theorem scan_codeRange_of_encoded {e : Encoding} {bytes : List UInt8} (h : e.Encoded bytes) :
    (e.scan bytes).codeRange =
      if e.asciiCompatible = true ∧ bytes.all isAscii = true then .sevenBit else .valid := by
  have known := (CodeRange.isKnown_iff _).1 (e.scan_codeRange_isKnown bytes)
  have sound := scan_codeRange_ne_broken_iff.2 h
  split
  next plain => exact scan_codeRange_eq_sevenBit_iff.2 plain
  next other =>
    have wide := mt scan_codeRange_eq_sevenBit_iff.1 other
    cases range : (e.scan bytes).codeRange <;> simp_all

theorem scan_codeRange_append {e : Encoding} {a b : List UInt8} (ha : e.Encoded a)
    (hb : e.Encoded b) :
    (e.scan (a ++ b)).codeRange = (e.scan a).codeRange.common (e.scan b).codeRange := by
  rw [scan_codeRange_of_encoded ha, scan_codeRange_of_encoded hb,
    scan_codeRange_of_encoded (ha.append hb), List.all_append]
  cases e.asciiCompatible <;> cases a.all isAscii <;> cases b.all isAscii <;> rfl

theorem scan_characters_append {e : Encoding} {a : List UInt8} (ha : e.Encoded a)
    (b : List UInt8) :
    (e.scan (a ++ b)).characters = (e.scan a).characters + (e.scan b).characters := by
  simp [scan_characters, pieces_append ha]

end RopeBridge.Encoding
