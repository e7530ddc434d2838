import RopeBridge.Proofs.Encoding.Boundary

/-! The scan as a loop that goes through the bytes one piece at a time. It comes to an end, and the
shortcuts answer what it would; ranges and counts of parts add up where the bytes in front are not
broken, and counts add up wherever the loop has been. -/
namespace RopeBridge

/-- A pass on its way through some bytes. -/
structure Pass where
  /-- The number of bytes passed. -/
  position : Nat := 0
  characters : Nat := 0
  /-- A piece that is no character has been passed. -/
  broken : Bool := false
deriving DecidableEq

namespace Pass

/-- One round of the loop. There is none at the end of the bytes. -/
def next? (e : Encoding) (bytes : List UInt8) (s : Pass) : Option Pass :=
  if s.position < bytes.length then
    match e.measure (bytes.drop s.position) with
    | .found n => some { s with position := s.position + n, characters := s.characters + 1 }
    | _ => some ⟨s.position + min e.minLength (bytes.length - s.position), s.characters + 1, true⟩
  else none

def rounds (e : Encoding) (bytes : List UInt8) : Nat → Pass → Option Pass
  | 0, s => some s
  | n + 1, s => (s.next? e bytes).bind (rounds e bytes n)

/-- What a pass that is over has found out. -/
def result (s : Pass) : Scan := ⟨if s.broken then .broken else .valid, s.characters⟩

/-- The pass that has taken the first `n` pieces. -/
def upTo (e : Encoding) (bytes : List UInt8) (n : Nat) : Pass :=
  ⟨Encoding.covered (e.pieces bytes) n, n, ((e.pieces bytes).take n).any (!·.valid)⟩

variable {e : Encoding} {bytes : List UInt8}

/-- A round takes the piece that begins at the position. -/
theorem next?_eq {s : Pass} (inside : s.position < bytes.length) :
    s.next? e bytes = some
      ⟨s.position + (e.piece (bytes.drop s.position)).width, s.characters + 1,
        s.broken || !(e.piece (bytes.drop s.position)).valid⟩ := by
  unfold next? Encoding.piece
  rw [if_pos inside]
  cases e.measure (bytes.drop s.position) <;> simp [lengthUpTo_eq_min]

theorem covered_lt_length {n : Nat} (before : n < (e.pieces bytes).length) :
    Encoding.covered (e.pieces bytes) n < bytes.length := by
  have widths : ∀ p ∈ e.pieces bytes, 0 < p.width := fun _ => Encoding.width_pos_of_mem_pieces
  have strict := Encoding.covered_lt widths before (Nat.le_refl _)
  rwa [Encoding.covered_pieces] at strict

theorem next?_upTo {n : Nat} (before : n < (e.pieces bytes).length) :
    (upTo e bytes n).next? e bytes = some (upTo e bytes (n + 1)) := by
  have inside := covered_lt_length before
  -- the piece at the position is the one with the next number
  have first : e.piece (bytes.drop (Encoding.covered (e.pieces bytes) n)) =
      (e.pieces bytes)[n] := by
    have nonempty : bytes.drop (Encoding.covered (e.pieces bytes) n) ≠ [] := by
      rw [ne_eq, List.drop_eq_nil_iff]
      omega
    have rest := e.pieces_drop bytes n
    rw [e.pieces_of_ne_nil nonempty, List.drop_eq_getElem_cons before] at rest
    exact (List.cons.inj rest).1
  rw [next?_eq inside]
  dsimp only [upTo]
  rw [first, Encoding.covered_add, List.drop_eq_getElem_cons before,
    List.take_succ_eq_append_getElem before, List.any_append]
  simp [Encoding.covered]

theorem next?_upTo_length : (upTo e bytes (e.pieces bytes).length).next? e bytes = none := by
  simp [next?, upTo, Encoding.covered_pieces]

theorem rounds_add (m n : Nat) (s : Pass) :
    s.rounds e bytes (m + n) = (s.rounds e bytes m).bind (rounds e bytes n) := by
  induction m generalizing s with
  | zero => simp [rounds]
  | succ m ih =>
    rw [Nat.succ_add, rounds, rounds]
    cases s.next? e bytes with
    | none => rfl
    | some t => exact ih t

/-- As many rounds as there are pieces can be made. -/
theorem rounds_eq_upTo {n : Nat} (inside : n ≤ (e.pieces bytes).length) :
    rounds e bytes n {} = some (upTo e bytes n) := by
  induction n with
  | zero => simp [rounds, upTo]
  | succ n ih =>
    rw [rounds_add, ih (Nat.le_of_succ_le inside), Option.bind_some, rounds, next?_upTo inside]
    rfl

/-- No more rounds can be made than there are pieces. -/
theorem le_length_of_rounds {n : Nat} {s : Pass} (made : rounds e bytes n {} = some s) :
    n ≤ (e.pieces bytes).length := by
  refine Nat.le_of_not_lt fun beyond => ?_
  obtain ⟨k, rfl⟩ := Nat.exists_eq_add_of_lt beyond
  rw [Nat.add_assoc, rounds_add, rounds_eq_upTo (Nat.le_refl _), Option.bind_some,
    Nat.add_comm k, rounds_add 1 k] at made
  simp [rounds, next?_upTo_length] at made

/-- The loop stops at the end of the bytes with what the fold over the pieces finds out. -/
theorem result_upTo_length :
    (upTo e bytes (e.pieces bytes).length).result = e.scanPieces bytes := by
  rw [Encoding.scanPieces_eq]
  simp only [result, upTo, List.take_length]
  cases sound : (e.pieces bytes).all (·.valid) with
  | true => simp_all
  | false =>
    simp only [List.all_eq_false] at sound
    obtain ⟨p, member, wrong⟩ := sound
    have some_ : (e.pieces bytes).any (!·.valid) = true :=
      List.any_eq_true.2 ⟨p, member, by simpa using wrong⟩
    simp [some_]

end Pass

namespace Encoding

/-- What the scan of some bytes answers, and how it adds up. -/
structure Classified (e : Encoding) (bytes : List UInt8) : Prop where
  sevenBit : (e.scan bytes).codeRange = .sevenBit ↔
    e.asciiCompatible = true ∧ ∀ b ∈ bytes, b < 0x80
  valid : (e.scan bytes).codeRange = .valid ↔
    ¬ (e.asciiCompatible = true ∧ ∀ b ∈ bytes, b < 0x80) ∧ e.Encoded bytes
  broken : (e.scan bytes).codeRange = .broken ↔
    ¬ (e.asciiCompatible = true ∧ ∀ b ∈ bytes, b < 0x80) ∧ ¬ e.Encoded bytes
  /-- With or without a shortcut, the characters are as many as the loop counts. -/
  characters : (e.scan bytes).characters = (e.scanPieces bytes).characters
  /-- The loop ends after a round for each character, at the end of the bytes. -/
  ends : ∃ s, Pass.rounds e bytes (e.scan bytes).characters {} = some s ∧
    s.next? e bytes = none ∧ s.position = bytes.length ∧ s.result = e.scanPieces bytes
  /-- Behind bytes that are not broken others are scanned as they are by themselves. -/
  append : (e.scan bytes).codeRange ≠ .broken → ∀ more,
    (e.scan (bytes ++ more)).characters = (e.scan bytes).characters + (e.scan more).characters ∧
    (e.scan (bytes ++ more)).codeRange =
      if (e.scan more).codeRange = .broken then .broken
      else if bytes = [] then (e.scan more).codeRange
      else if more = [] then (e.scan bytes).codeRange
      else (e.scan bytes).codeRange.common (e.scan more).codeRange
  /-- Wherever the loop comes by, the bytes may be cut. -/
  cut : ∀ n s, Pass.rounds e bytes n {} = some s →
    (e.scan (bytes.take s.position)).characters + (e.scan (bytes.drop s.position)).characters =
      (e.scan bytes).characters

variable {e : Encoding} {bytes : List UInt8}

theorem all_isAscii_iff : bytes.all isAscii = true ↔ ∀ b ∈ bytes, b < 0x80 := by
  simp [isAscii]

theorem scan_codeRange_eq_broken_iff : (e.scan bytes).codeRange = .broken ↔ ¬ e.Encoded bytes := by
  rw [← scan_codeRange_ne_broken_iff, Decidable.not_not]

/-- Characters followed by bytes are characters if, and only if, the bytes are. -/
theorem encoded_append_iff {a b : List UInt8} (ha : e.Encoded a) :
    e.Encoded (a ++ b) ↔ e.Encoded b := by
  rw [encoded_iff, encoded_iff, pieces_append ha, List.all_append, ha.valid, Bool.true_and]

theorem scan_codeRange_append_of_encoded {a b : List UInt8} (ha : e.Encoded a) :
    (e.scan (a ++ b)).codeRange =
      if (e.scan b).codeRange = .broken then .broken
      else if a = [] then (e.scan b).codeRange
      else if b = [] then (e.scan a).codeRange
      else (e.scan a).codeRange.common (e.scan b).codeRange := by
  split
  next wrong =>
    rw [scan_codeRange_eq_broken_iff] at wrong ⊢
    rwa [encoded_append_iff ha]
  next right =>
    split
    next none => rw [none, List.nil_append]
    next =>
      split
      next none => rw [none, List.append_nil]
      next => exact scan_codeRange_append ha (scan_codeRange_ne_broken_iff.1 right)

/-- The counts in front of and behind a place where a piece begins add up. -/
theorem scan_characters_cut {n : Nat} (inside : n ≤ (e.pieces bytes).length) :
    (e.scan (bytes.take (covered (e.pieces bytes) n))).characters +
      (e.scan (bytes.drop (covered (e.pieces bytes) n))).characters =
        (e.scan bytes).characters := by
  rw [scan_characters, scan_characters, scan_characters, pieces_take, pieces_drop,
    List.length_take, List.length_drop]
  omega

/-- The scan of any bytes in any encoding. -/
theorem scan_classified (e : Encoding) (bytes : List UInt8) : e.Classified bytes := by
  have plain : (e.scan bytes).codeRange = .sevenBit ↔
      e.asciiCompatible = true ∧ ∀ b ∈ bytes, b < 0x80 := by
    rw [scan_codeRange_eq_sevenBit_iff, all_isAscii_iff]
  have known := (CodeRange.isKnown_iff _).1 (e.scan_codeRange_isKnown bytes)
  constructor
  case sevenBit => exact plain
  case valid =>
    rw [← plain, ← scan_codeRange_ne_broken_iff]
    cases range : (e.scan bytes).codeRange <;> simp_all
  case broken =>
    rw [← plain, ← scan_codeRange_eq_broken_iff]
    cases range : (e.scan bytes).codeRange <;> simp
  case characters => rw [scan_characters, scanPieces_eq]
  case ends =>
    rw [scan_characters]
    refine ⟨_, Pass.rounds_eq_upTo (Nat.le_refl _), Pass.next?_upTo_length, ?_,
      Pass.result_upTo_length⟩
    exact e.covered_pieces bytes
  case append =>
    intro sound more
    have characters := scan_codeRange_ne_broken_iff.1 sound
    exact ⟨scan_characters_append characters more, scan_codeRange_append_of_encoded characters⟩
  case cut =>
    intro n s made
    have inside := Pass.le_length_of_rounds made
    rw [Pass.rounds_eq_upTo inside] at made
    cases made
    exact scan_characters_cut inside

end Encoding

end RopeBridge
