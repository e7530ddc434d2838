import RopeBridge.Proofs.Encoding.Boundary
import RopeBridge.Proofs.Rope.Client

/-! Character indices of ropes. An index is the byte at which the scan of the whole begins a piece,
so a window between two indices is scanned as the pieces between them, whether its bytes are valid or
broken, and has as many characters as were asked for. -/
namespace RopeBridge

namespace Build

variable {b : Build Rope} {l : Ledger}

theorem outcome_eq_error_iff {fault : Fault} :
    b.outcome l = .error fault ↔ (b.run.run l).1 = .error fault := by
  unfold outcome
  cases made : b.run.run l with
  | mk result l' => cases result <;> simp

theorem exists_of_outcome {content : Encoding × List UInt8} (came : b.outcome l = .ok content) :
    ∃ r l', b.run.run l = (.ok r, l') := by
  unfold outcome at came
  cases made : b.run.run l with
  | mk result l' =>
    cases result with
    | ok r => exact ⟨r, l', rfl⟩
    | error fault => simp [made] at came

end Build

namespace Rope

variable {nodes : List Rope} {r : Rope}

def pieces (r : Rope) : List Piece := r.encoding.pieces r.toBytes

/-- The byte at which a character begins, and behind the last character the end. -/
def boundary (r : Rope) (index : Nat) : Nat := Encoding.covered r.pieces index

/-- What an index of a character is expected to come to. -/
def expectedOffset (r : Rope) (index : Nat) : Except Fault Nat :=
  if index ≤ r.pieces.length then .ok (r.boundary index)
  else .error (.outOfBounds index r.pieces.length)

/-- What a window of characters is expected to come to; its start is looked for first. -/
def expectedCharacters (r : Rope) (offset length : Nat) : Except Fault (Encoding × List UInt8) :=
  if lengthLimit ≤ offset + length then .error .lengthOverflow
  else if r.pieces.length < offset then .error (.outOfBounds offset r.pieces.length)
  else if r.pieces.length < offset + length then
    .error (.outOfBounds (offset + length) r.pieces.length)
  else .ok (r.encoding,
    slice r.toBytes (r.boundary offset) (r.boundary (offset + length) - r.boundary offset))

theorem boundary_zero (r : Rope) : r.boundary 0 = 0 := Encoding.covered_zero _

theorem boundary_lt (r : Rope) {i j : Nat} (before : i < j) (inside : j ≤ r.pieces.length) :
    r.boundary i < r.boundary j :=
  Encoding.covered_lt (fun _ => Encoding.width_pos_of_mem_pieces) before inside

theorem boundary_mono (r : Rope) {i j : Nat} (before : i ≤ j) (inside : j ≤ r.pieces.length) :
    r.boundary i ≤ r.boundary j := by
  rcases Nat.lt_or_eq_of_le before with less | rfl
  · exact Nat.le_of_lt (r.boundary_lt less inside)
  · exact Nat.le_refl _

theorem Sound.boundary_last (h : r.Sound) : r.boundary r.pieces.length = r.byteLength := by
  rw [← h.length_toBytes]
  exact Encoding.covered_pieces _ _

theorem Sound.length_pieces_le (h : r.Sound) : r.pieces.length ≤ r.byteLength := by
  rw [← h.length_toBytes]
  exact Encoding.length_pieces_le _ _

/-- Where every byte is a character, an index is its own byte. -/
theorem Sound.boundary_direct (h : r.Sound)
    (direct : Reading.exact.range r.encoding r.toBytes .sevenBit ∨ r.encoding.singleByte = true) :
    r.pieces.length = r.byteLength ∧ ∀ i ≤ r.pieces.length, r.boundary i = i := by
  have count : r.toBytes.length = (r.encoding.scan r.toBytes).characters :=
    Reading.exact_lawful.length_plain _ _ direct
  rw [Encoding.scan_characters, h.length_toBytes] at count
  refine ⟨count.symm, fun i inside => ?_⟩
  refine Encoding.covered_eq_self (fun _ => Encoding.width_pos_of_mem_pieces) ?_ inside
  exact h.boundary_last.trans count

theorem charOffset_exact (known : r ∈ nodes) (index : Nat) :
    (r.charOffset index).Makes .exact nodes fun more result =>
      more = nodes ∧ result = r.expectedOffset index := by
  refine .closed fun closed => ?_
  have sound := closed.sound r known
  unfold charOffset
  extract_lets inBounds located
  -- what follows once it is known whether the characters are bytes
  have found : ∀ direct : Bool,
      (direct = true → Reading.exact.range r.encoding r.toBytes .sevenBit ∨
        r.encoding.singleByte = true) →
      Build.Makes .exact nodes (located direct) fun more result =>
        more = nodes ∧ result = r.expectedOffset index := by
    intro direct plain
    dsimp only [located, inBounds]
    unfold expectedOffset
    split
    next yes =>
      obtain ⟨count, itself⟩ := sound.boundary_direct (plain yes)
      split
      next beyond => exact .fail ⟨rfl, by rw [count, if_neg (Nat.not_le.2 beyond)]⟩
      next inside =>
        have inside : index ≤ r.pieces.length := by omega
        exact .pure ⟨rfl, by rw [if_pos inside, itself index inside]⟩
    next =>
      refine .ask (bytes_answers known) fun bytes same => ?_
      subst same
      have place : r.encoding.offsetOf? r.toBytes index =
          if index ≤ r.pieces.length then some (r.boundary index) else none :=
        Encoding.offsetOf?_eq _ _ _
      rw [place]
      by_cases inside : index ≤ r.pieces.length
      · simp only [if_pos inside]
        exact .pure ⟨rfl, rfl⟩
      · simp only [if_neg inside]
        refine .ask (characterLength_answers Reading.exact_lawful known) fun n count => ?_
        refine .throw ⟨rfl, ?_⟩
        rw [show n = r.pieces.length from count.trans (Encoding.scan_characters _ _)]
  split
  next single => exact found true fun _ => .inr single
  next =>
    refine .ask (isAsciiOnly_answers Reading.exact_lawful known) fun direct plain => ?_
    exact found direct fun yes => .inl (plain yes)

theorem expectedOffset_eq_ok_iff {index p : Nat} :
    r.expectedOffset index = .ok p ↔ index ≤ r.pieces.length ∧ p = r.boundary index := by
  unfold expectedOffset
  split
  next inside => simp [inside, eq_comm]
  next beyond => simp [beyond]

theorem expectedOffset_eq_error_iff {index : Nat} {fault : Fault} :
    r.expectedOffset index = .error fault ↔
      r.pieces.length < index ∧ fault = .outOfBounds index r.pieces.length := by
  unfold expectedOffset
  split
  next inside => simp [Nat.not_lt.2 inside]
  next beyond => simp [Nat.lt_of_not_le beyond, eq_comm]

theorem substringChars_comes (known : r ∈ nodes) (offset length : Nat) :
    (r.substringChars offset length).Comes .exact nodes (r.expectedCharacters offset length) := by
  refine .closed fun closed => ?_
  have sound := closed.sound r known
  unfold substringChars expectedCharacters
  dsimp only
  split
  next => exact .fail rfl
  next =>
    refine Build.Makes.bind (charOffset_exact known offset) ?_ fun more _ first start => ?_
    · rintro more fault ⟨_, start⟩
      obtain ⟨beyond, rfl⟩ := expectedOffset_eq_error_iff.1 start.symm
      rw [if_pos beyond]
      rfl
    obtain ⟨rfl, start⟩ := start
    obtain ⟨inside, rfl⟩ := expectedOffset_eq_ok_iff.1 start.symm
    rw [if_neg (Nat.not_lt.2 inside)]
    refine Build.Makes.bind (charOffset_exact known _) ?_ fun more _ last stop => ?_
    · rintro more fault ⟨_, stop⟩
      obtain ⟨beyond, rfl⟩ := expectedOffset_eq_error_iff.1 stop.symm
      rw [if_pos beyond]
      rfl
    obtain ⟨rfl, stop⟩ := stop
    obtain ⟨within, rfl⟩ := expectedOffset_eq_ok_iff.1 stop.symm
    rw [if_neg (Nat.not_lt.2 within)]
    have order := r.boundary_mono (Nat.le_add_right offset length) within
    have bound := r.boundary_mono within (Nat.le_refl _)
    rw [sound.boundary_last] at bound
    have cut := substring_comes Reading.exact_lawful known (r.boundary offset)
      (r.boundary (offset + length) - r.boundary offset)
    rwa [expectedWindow_part sound (by omega)] at cut

/-- A window of characters is cut into the pieces asked for. -/
theorem pieces_characters {offset length : Nat} (inside : offset + length ≤ r.pieces.length) :
    (r.encoding.pieces (slice r.toBytes (r.boundary offset)
      (r.boundary (offset + length) - r.boundary offset))).length = length := by
  have cut := Encoding.pieces_window r.encoding r.toBytes offset length
  have count := congrArg List.length cut
  rw [List.length_take, List.length_drop] at count
  refine count.trans (Nat.min_eq_left ?_)
  have : r.pieces.length = (r.encoding.pieces r.toBytes).length := rfl
  omega

/-- The byte that an index of a character comes to. -/
def offsetAt (l : Ledger) (r : Rope) (index : Nat) : Except Fault Nat :=
  ((r.charOffset index).run.run l).1

/-- A rope of `n` characters is indexed by them exactly: the indices are those up to `n`, in order,
from the first byte to behind the last; a window is the bytes between its two indices and has the
characters asked for; and a rope cut in two at an index is its two windows. -/
structure Indexed (l : Ledger) (r : Rope) (n : Nat) : Prop where
  offset_ok : ∀ i, (∃ p, offsetAt l r i = .ok p) ↔ i ≤ n
  offset_error : ∀ i, n < i → offsetAt l r i = .error (.outOfBounds i n)
  offset_lt : ∀ i j p q, i < j → offsetAt l r i = .ok p → offsetAt l r j = .ok q → p < q
  offset_zero : offsetAt l r 0 = .ok 0
  offset_last : offsetAt l r n = .ok r.byteLength
  window_ok : ∀ offset length,
    (∃ s l', (r.substringChars offset length).run.run l = (.ok s, l')) ↔ offset + length ≤ n
  window_overflow : ∀ offset length,
    ((r.substringChars offset length).run.run l).1 = .error .lengthOverflow ↔
      lengthLimit ≤ offset + length
  window : ∀ offset length s l', (r.substringChars offset length).run.run l = (.ok s, l') →
    (∃ p q, offsetAt l r offset = .ok p ∧ offsetAt l r (offset + length) = .ok q ∧
      (s.bytes.run l').1 = ((r.bytes.run l).1.drop p).take (q - p)) ∧
    (s.characterLength.run l').1 = length
  halves : ∀ k ≤ n, ∃ front back,
    (r.substringChars 0 k).outcome l = .ok (r.encoding, front) ∧
      (r.substringChars k (n - k)).outcome l = .ok (r.encoding, back) ∧
      front ++ back = (r.bytes.run l).1

theorem offsetAt_of_fits {l : Ledger} (fits : l.Fits .exact nodes) (known : r ∈ nodes)
    (index : Nat) : offsetAt l r index = r.expectedOffset index := by
  obtain ⟨_, _, _, _, came⟩ := charOffset_exact known index l fits
  exact came

theorem characterLength_of_fits {l : Ledger} (fits : l.Fits .exact nodes) (known : r ∈ nodes) :
    (r.characterLength.run l).1 = r.pieces.length := by
  have count := (characterLength_answers Reading.exact_lawful known l fits).2
  exact count.trans (Encoding.scan_characters _ _)

/-- What has been made as a window of characters is one. -/
theorem substringChars_made {l l' : Ledger} (fits : l.Fits .exact nodes) (known : r ∈ nodes)
    {offset length : Nat} {s : Rope}
    (made : (r.substringChars offset length).run.run l = (.ok s, l')) :
    offset + length ≤ r.pieces.length ∧ ∃ more, l'.Fits .exact more ∧
      s.Denotes more r.encoding (slice r.toBytes (r.boundary offset)
        (r.boundary (offset + length) - r.boundary offset)) := by
  obtain ⟨more, _, fits', kept⟩ := (substringChars_comes known offset length).ran fits made
  unfold expectedCharacters at kept
  split at kept
  · exact kept.elim
  split at kept
  · exact kept.elim
  split at kept
  · exact kept.elim
  next inside => exact ⟨Nat.le_of_not_lt inside, more, fits', kept⟩

theorem expectedCharacters_of_le {offset length : Nat} (sound : r.Sound)
    (inside : offset + length ≤ r.pieces.length) :
    r.expectedCharacters offset length = .ok (r.encoding, slice r.toBytes (r.boundary offset)
      (r.boundary (offset + length) - r.boundary offset)) := by
  have few := sound.length_pieces_le
  have below := sound.byteLength_lt
  unfold expectedCharacters
  rw [if_neg (by omega), if_neg (by omega), if_neg (by omega)]

theorem indexed_of_fits {l : Ledger} (fits : l.Fits .exact nodes) (known : r ∈ nodes) :
    r.Indexed l (r.characterLength.run l).1 := by
  have sound := fits.sound r known
  have bytes := (bytes_answers known l fits).2
  have came := fun offset length =>
    Build.outcome_of_comes (substringChars_comes known offset length) fits
  rw [characterLength_of_fits fits known]
  constructor
  case offset_ok =>
    intro i
    simp [offsetAt_of_fits fits known, expectedOffset_eq_ok_iff]
  case offset_error =>
    intro i beyond
    rw [offsetAt_of_fits fits known, expectedOffset_eq_error_iff]
    exact ⟨beyond, rfl⟩
  case offset_lt =>
    intro i j p q before first second
    rw [offsetAt_of_fits fits known, expectedOffset_eq_ok_iff] at first second
    rw [first.2, second.2]
    exact r.boundary_lt before second.1
  case offset_zero =>
    rw [offsetAt_of_fits fits known, expectedOffset_eq_ok_iff]
    exact ⟨Nat.zero_le _, r.boundary_zero.symm⟩
  case offset_last =>
    rw [offsetAt_of_fits fits known, expectedOffset_eq_ok_iff]
    exact ⟨Nat.le_refl _, sound.boundary_last.symm⟩
  case window_ok =>
    intro offset length
    constructor
    · rintro ⟨s, l', made⟩
      exact (substringChars_made fits known made).1
    · intro inside
      exact Build.exists_of_outcome
        ((came offset length).trans (expectedCharacters_of_le sound inside))
  case window_overflow =>
    intro offset length
    rw [← Build.outcome_eq_error_iff, came, expectedCharacters]
    split
    next long => simp [long]
    next short =>
      refine iff_of_false ?_ short
      repeat' split
      all_goals simp
  case window =>
    intro offset length s l' made
    obtain ⟨inside, more, fits', denotes⟩ := substringChars_made fits known made
    constructor
    · refine ⟨r.boundary offset, r.boundary (offset + length), ?_, ?_, ?_⟩
      · rw [offsetAt_of_fits fits known, expectedOffset_eq_ok_iff]
        exact ⟨by omega, rfl⟩
      · rw [offsetAt_of_fits fits known, expectedOffset_eq_ok_iff]
        exact ⟨inside, rfl⟩
      · rw [(bytes_answers denotes.known l' fits').2, denotes.toBytes, bytes]
        rfl
    · rw [characterLength_of_fits fits' denotes.known, pieces, denotes.encoding, denotes.toBytes]
      exact pieces_characters inside
  case halves =>
    intro k inside
    have front := (came 0 k).trans (expectedCharacters_of_le sound (by omega))
    have back := (came k (r.pieces.length - k)).trans (expectedCharacters_of_le sound (by omega))
    refine ⟨_, _, front, back, ?_⟩
    rw [bytes, Nat.zero_add, Nat.add_sub_cancel' inside, boundary_zero, sound.boundary_last,
      ← sound.length_toBytes]
    simp [slice, ← List.length_drop]

end Rope

/-- Every rope of which nothing false is known, valid or broken, is indexed exactly by as many
characters as it says it has. -/
theorem Collection.indexed {c : Collection} (right : c.Fits .exact) {r : Rope} (held : r ∈ c.ropes) :
    r.Indexed c.ledger (r.characterLength.run c.ledger).1 := by
  obtain ⟨nodes, fits, among⟩ := right
  exact Rope.indexed_of_fits fits (among held)

/-- A letter, a byte that begins no character, one that begins a character that does not follow, and
a whole character, over the seam of two ropes. -/
def Collection.mixed : List Rope.Action :=
  [.ofBytes .utf8 ⟨[0x61, 0xFF, 0xE2], by decide⟩ .unknown,
    .ofBytes .utf8 ⟨[0xC3, 0xA9], by decide⟩ .valid, .concat 0 1]

theorem Collection.indexed_mixed :
    ∃ r, (start.run mixed).ropes[2]? = some r ∧ r.toBytes = [0x61, 0xFF, 0xE2, 0xC3, 0xA9] ∧
      (r.characterLength.run (start.run mixed).ledger).1 = 4 ∧
      r.Indexed (start.run mixed).ledger 4 := by
  have honest : ∀ a ∈ mixed, a.Honest := by
    simp [mixed, Rope.Action.Honest]
    decide
  have right : (start.run mixed).Fits .exact :=
    run_fits Reading.exact_lawful (start_fits Reading.exact_lawful)
      fun a called => (honest a called).trusted
  obtain ⟨r, found, bytes, four⟩ : ∃ r, (start.run mixed).ropes[2]? = some r ∧
      r.toBytes = [0x61, 0xFF, 0xE2, 0xC3, 0xA9] ∧ r.pieces.length = 4 := ⟨_, rfl, rfl, by decide⟩
  have count : (r.characterLength.run (start.run mixed).ledger).1 = 4 := by
    obtain ⟨nodes, fits, among⟩ := right
    rw [← four]
    exact Rope.characterLength_of_fits fits (among (List.mem_of_getElem? found))
  exact ⟨r, found, bytes, count, count ▸ indexed right (List.mem_of_getElem? found)⟩

end RopeBridge
