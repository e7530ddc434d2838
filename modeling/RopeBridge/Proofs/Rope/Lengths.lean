import RopeBridge.Proofs.Rope.Equality
import RopeBridge.Proofs.Rope.Offsets

/-! Lengths at their limits. Whatever is claimed of their bytes, ropes have no more characters than
bytes, and nothing that is computed from lengths and offsets leaves 64 bits. The greatest length is
not remembered as a number of characters. Where it is the true one it is answered all the same, as
long as nobody has passed off bytes as valid UTF-8 that a scan would find to be something else. -/
namespace RopeBridge

namespace Utf8

variable {a b bytes rest : List UInt8} {byte : UInt8}

/-- Every byte is a piece of its own. -/
def Separate (bytes : List UInt8) : Prop := (Encoding.utf8.pieces bytes).length = bytes.length

theorem separate_cons_iff : Separate (byte :: rest) ↔
    (Encoding.utf8.piece (byte :: rest)).width = 1 ∧ Separate rest := by
  have positive := Encoding.utf8.piece_width_pos (List.cons_ne_nil byte rest)
  have inside := Encoding.utf8.piece_width_le (byte :: rest)
  have fewer := Encoding.utf8.length_pieces_le
    ((byte :: rest).drop (Encoding.utf8.piece (byte :: rest)).width)
  unfold Separate
  rw [Encoding.pieces_of_ne_nil _ (List.cons_ne_nil byte rest), List.length_cons, List.length_cons]
  constructor
  · intro whole
    have one : (Encoding.utf8.piece (byte :: rest)).width = 1 := by
      simp only [List.length_drop, List.length_cons] at fewer inside
      omega
    rw [one] at whole
    exact ⟨one, Nat.succ.inj whole⟩
  · rintro ⟨one, others⟩
    rw [one]
    exact congrArg Nat.succ others

/-- The first piece is one byte unless a longer character is found. -/
theorem width_eq_one_iff : (Encoding.utf8.piece (byte :: rest)).width = 1 ↔
    ∀ n, Encoding.utf8.measure (byte :: rest) = .found n → n = 1 := by
  unfold Encoding.piece
  split
  next n found =>
    rw [found]
    constructor
    · rintro one _ ⟨⟩
      exact one
    · exact fun all => all n rfl
  next other =>
    refine iff_of_true ?_ fun n found => absurd found (other n)
    simp [lengthUpTo, Encoding.minLength]

/-- Putting bytes together makes longer characters only. -/
theorem Separate.of_append (h : Separate (a ++ b)) : Separate a ∧ Separate b := by
  induction a with
  | nil => exact ⟨rfl, h⟩
  | cons byte rest ih =>
    obtain ⟨first, others⟩ := separate_cons_iff.1 h
    obtain ⟨front, back⟩ := ih others
    refine ⟨separate_cons_iff.2 ⟨width_eq_one_iff.2 fun n found => ?_, front⟩, back⟩
    exact width_eq_one_iff.1 first n (Encoding.measure_append found b)

/-- A character of one byte is an ASCII one. -/
theorem isAscii_of_isCharacter (character : Encoding.utf8.IsCharacter [byte]) :
    Encoding.isAscii byte = true := by
  have found := isCharacter_iff.1 character
  simp only [measure] at found
  split at found
  next ascii => simpa [Encoding.isAscii] using ascii
  next =>
    split at found
    next l lead =>
      obtain ⟨least, _⟩ := lead?_following_pos lead
      obtain ⟨_, following⟩ := measureFollowing_found found
      simp only [List.length_nil] at following
      omega
    next => cases found

theorem Separate.all_isAscii (h : Separate bytes) (encoded : Encoding.utf8.Encoded bytes) :
    bytes.all Encoding.isAscii = true := by
  induction encoded with
  | nil => rfl
  | @cons character rest first _ ih =>
    obtain ⟨front, back⟩ := h.of_append
    have one := congrArg List.length (Encoding.pieces_character first [])
    rw [List.append_nil, show (Encoding.utf8.pieces character).length = character.length from front]
      at one
    obtain ⟨byte, rfl⟩ := List.length_eq_one_iff.1 one
    rw [List.all_append, ih back, Bool.and_true, List.all_cons, isAscii_of_isCharacter first]
    rfl

/-- Valid UTF-8 that is not plain ASCII has a character of several bytes. -/
theorem not_separate_of_valid (valid : (Encoding.utf8.scan bytes).codeRange = .valid) :
    ¬ Separate bytes := by
  intro separate
  have encoded := Encoding.scan_codeRange_ne_broken_iff.1 (by rw [valid]; decide)
  have plain := Encoding.scan_codeRange_eq_sevenBit_iff.2
    ⟨show Encoding.utf8.asciiCompatible = true from rfl, separate.all_isAscii encoded⟩
  rw [valid] at plain
  cases plain

theorem separate_of_stray (n : Nat) : Separate (List.replicate n 0x80) := by
  induction n with
  | zero => rfl
  | succ n ih =>
    rw [List.replicate_succ]
    refine separate_cons_iff.2 ⟨?_, ih⟩
    exact rfl

end Utf8

/-- In UTF-16 a piece has two bytes, unless it is the last. -/
theorem Encoding.two_mul_length_pieces_le (bytes : List UInt8) :
    2 * (utf16le.pieces bytes).length ≤ bytes.length + 1 := by
  by_cases empty : bytes = []
  · simp [empty]
  · have rest := two_mul_length_pieces_le (bytes.drop (utf16le.piece bytes).width)
    have width : 2 ≤ (utf16le.piece bytes).width ∨ bytes.length ≤ 1 := by
      unfold piece
      split
      next n found => exact .inl (measure_found found).1
      next =>
        rw [lengthUpTo_eq_min]
        simp only [minLength]
        omega
    have positive := utf16le.piece_width_pos empty
    rw [utf16le.pieces_of_ne_nil empty, List.length_cons]
    rw [List.length_drop] at rest
    have some := List.length_pos_iff.2 empty
    omega
termination_by bytes.length
decreasing_by exact utf16le.length_drop_piece_lt empty

/-- A count is right that is as great as it can be where every byte is known to be a piece of its
own. Valid UTF-8 is not made of such pieces. -/
def Reading.separate : Reading where
  range e bytes x := e = .utf8 → x = .valid → ¬ Utf8.Separate bytes
  length e bytes n := n ≤ bytes.length ∧
    (e.singleByte = true ∨ e.asciiCompatible = true ∧ Utf8.Separate bytes → n = bytes.length)

namespace Reading

theorem separate_scan (e : Encoding) (bytes : List UInt8) :
    separate.length e bytes (e.scan bytes).characters := by
  refine ⟨e.scan_characters_le bytes, fun whole => ?_⟩
  rcases whole with single | ⟨compatible, pieces⟩
  · exact Encoding.scan_characters_of_singleByte single bytes
  · by_cases utf8 : e = .utf8
    · rw [utf8, Encoding.scan_characters]
      exact pieces
    · refine Encoding.scan_characters_of_singleByte ?_ bytes
      cases e <;> simp_all [Encoding.asciiCompatible, Encoding.maxLength]

theorem separate_lawful : Lawful separate where
  range_scan e bytes := by
    rintro rfl valid
    exact Utf8.not_separate_of_valid valid
  range_relabel _ _ _ _ _ _ := fun _ none => nomatch none
  range_window _ _ _ _ _ := fun _ none => nomatch none
  range_append e a b x y soundx soundy ha hb := by
    intro utf8 valid whole
    obtain ⟨front, back⟩ := whole.of_append
    cases x with
    | valid => exact ha utf8 rfl front
    | sevenBit =>
      cases y with
      | valid => exact hb utf8 rfl back
      | sevenBit => cases valid
      | broken => cases soundy
      | unknown => cases soundy
    | broken => cases soundx
    | unknown => cases soundx
  length_scan := separate_scan
  length_relabel e f bytes n compatible _ several _ right := by
    obtain ⟨few, whole⟩ := right
    refine ⟨few, ?_⟩
    rintro (single | ⟨_, pieces⟩)
    · rw [several] at single
      cases single
    · exact whole (.inr ⟨compatible, pieces⟩)
  length_plain _ _ _ := ⟨Nat.le_refl _, fun _ => rfl⟩
  length_count e bytes x right := by
    unfold Encoding.countCharacters
    split
    next => exact ⟨Nat.le_refl _, fun _ => rfl⟩
    next short =>
      simp only [List.take_length, List.drop_zero]
      split
      next leads =>
        refine ⟨List.countP_le_length, ?_⟩
        rintro (single | ⟨_, pieces⟩)
        · exact absurd (.inr single) short
        · exact absurd pieces (right leads.2 leads.1)
      next => exact separate_scan e bytes
  length_append e a b _ _ m n _ _ _ _ right right' small := by
    obtain ⟨few, whole⟩ := right
    obtain ⟨few', whole'⟩ := right'
    rw [List.length_append] at small
    rw [Metadata.wrapLength_of_lt (by omega)]
    constructor
    · rw [List.length_append]
      omega
    · rintro (single | ⟨compatible, together⟩)
      · rw [List.length_append, whole (.inl single), whole' (.inl single)]
      · obtain ⟨front, back⟩ := together.of_append
        rw [List.length_append, whole (.inr ⟨compatible, front⟩), whole' (.inr ⟨compatible, back⟩)]

end Reading

namespace Rope

variable {l : Ledger} {nodes : List Rope} {r : Rope}

/-- The hint that bytes are valid UTF-8 is given only where a scan would find that they are valid
and not plain ASCII. Other hints may be false. -/
def Action.TrueOfUtf8 : Action → Prop
  | ofBytes .utf8 bytes .valid => (Encoding.utf8.scan bytes).codeRange = .valid
  | _ => True

theorem Action.TrueOfUtf8.trusted {a : Action} (h : a.TrueOfUtf8) : a.Trusted .separate := by
  cases a with
  | ofBytes e bytes hint =>
    rintro _ rfl rfl
    exact Utf8.not_separate_of_valid h
  | _ => trivial

/-- Lengths and what is computed from them stay within 64 bits. -/
structure Within64 (l : Ledger) (r : Rope) : Prop where
  byteLength : r.byteLength < lengthLimit
  known : ∀ n, (r.knownCharacterLength.run l).1 = some n → n ≤ r.byteLength
  characterLength : (r.characterLength.run l).1 ≤ r.byteLength
  /-- The guarded programs do not stop, and answer and leave behind what the plain ones do. -/
  reads : r.guardedBytes.run.run l = (.ok (r.bytes.run l).1, (r.bytes.run l).2)
  counts : r.guardedCharacterLength.run.run l =
    (.ok (r.characterLength.run l).1, (r.characterLength.run l).2)
  finds : ∀ index, (r.guardedGetByte index).run.run.run l =
    (.ok ((r.getByte index).run.run l).1, ((r.getByte index).run.run l).2)
  cuts : ∀ offset length, (r.guardedSubstring offset length).run.run.run l =
    (.ok ((r.substring offset length).run.run l).1, ((r.substring offset length).run.run l).2)
  repeats : ∀ times, (r.guardedReplicate times).run.run.run l =
    (.ok ((r.replicate times).run.run l).1, ((r.replicate times).run.run l).2)
  locates : ∀ index, (r.guardedCharOffset index).run.run.run l =
    (.ok ((r.charOffset index).run.run l).1, ((r.charOffset index).run.run l).2)
  cutsCharacters : ∀ offset length, (r.guardedSubstringChars offset length).run.run.run l =
    (.ok ((r.substringChars offset length).run.run l).1,
      ((r.substringChars offset length).run.run l).2)

theorem within64_of_fits (fits : l.Fits .bounded nodes) (known : r ∈ nodes) : r.Within64 l := by
  have length := (fits.sound r known).length_toBytes
  have counts := guardedCharacterLength_agrees known
  constructor
  case byteLength => exact (fits.sound r known).byteLength_lt
  case known =>
    intro n told
    rw [← length]
    exact (knownCharacterLength_answers known l fits).2 n told
  case characterLength => exact (counts.1 l fits).2
  case reads => exact (guardedBytes_agrees known).2 l fits
  case counts => exact counts.2 l fits
  case finds => exact fun index => guardedGetByte_agrees known index l fits
  case cuts => exact fun offset length => guardedSubstring_agrees known offset length l fits
  case repeats => exact fun times => guardedReplicate_agrees known times l fits
  case locates => exact fun index => guardedCharOffset_agrees known index l fits
  case cutsCharacters =>
    exact fun offset length => guardedSubstringChars_agrees known offset length l fits

/-- As many characters as can be are as many bytes, each a piece of its own. -/
theorem characterLength_eq_full (fits : l.Fits .separate nodes) (known : r ∈ nodes)
    (full : (r.encoding.scan r.toBytes).characters = lengthLimit - 1) :
    (r.characterLength.run l).1 = lengthLimit - 1 := by
  have sound := fits.sound r known
  have small := sound.byteLength_lt
  rw [← sound.length_toBytes] at small
  have few := r.encoding.scan_characters_le r.toBytes
  rw [full] at few
  have whole : r.toBytes.length = lengthLimit - 1 := by omega
  obtain ⟨_, right⟩ := (characterLength_answers Reading.separate_lawful known l fits).2
  rw [← whole]
  rw [Encoding.scan_characters] at full
  cases label : r.encoding with
  | utf16le =>
    have half := Encoding.two_mul_length_pieces_le r.toBytes
    rw [← label, full, whole] at half
    simp only [lengthLimit] at half
    omega
  | utf8 =>
    rw [label] at full right
    exact right (.inr ⟨rfl, full.trans whole.symm⟩)
  | binary | usAscii | latin1 =>
    rw [label] at right
    exact right (.inl rfl)

end Rope

namespace Collection

open Rope (Use Within64 Action)

/-- A stray byte, with a hint, as often as a rope can have it. -/
def strays (hint : CodeRange) : List Use :=
  [.call (.ofBytes .utf8 ⟨[0x80], by decide⟩ hint), .call (.replicate 0 18446744073709551615)]

theorem characters_strays {hint : CodeRange} {r : Rope}
    (held : r ∈ (start.useAll (strays hint)).ropes)
    (content : r.toBytes = (List.replicate 18446744073709551615 [0x80]).flatten) :
    (Encoding.utf8.scan (r.bytes.run (start.useAll (strays hint)).ledger).1).characters =
      lengthLimit - 1 := by
  obtain ⟨nodes, fits, among⟩ := useAll_fits Reading.bounded_lawful
    (start_fits Reading.bounded_lawful) fun a (_ : .call a ∈ strays hint) => a.trusted_bounded
  have separate := Utf8.separate_of_stray 18446744073709551615
  rw [(Rope.bytes_answers (among held) _ fits).2, content, Encoding.scan_characters,
    List.flatten_replicate_singleton]
  rw [Utf8.Separate, List.length_replicate] at separate
  exact separate

end Collection

end RopeBridge
