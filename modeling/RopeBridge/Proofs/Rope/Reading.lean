import RopeBridge.Metadata
import RopeBridge.Proofs.Encoding.Utf8

/-! Readings of metadata. A reading says which code ranges and which character lengths are right
for bytes in an encoding. A lawful one agrees with scans and is kept when metadata is taken over
from parts; everything that ropes do to metadata is justified by these laws alone. -/
namespace RopeBridge

structure Reading where
  range : Encoding → List UInt8 → CodeRange → Prop
  length : Encoding → List UInt8 → Nat → Prop

namespace CodeRange

/-- A range that says that all bytes are characters. -/
def isSound (r : CodeRange) : Bool := r == sevenBit || r == valid

@[simp] theorem isSound_sevenBit : isSound sevenBit = true := rfl
@[simp] theorem isSound_valid : isSound valid = true := rfl
@[simp] theorem isSound_broken : isSound broken = false := rfl
@[simp] theorem isSound_unknown : isSound unknown = false := rfl

theorem isKnown_of_isSound {r : CodeRange} (h : r.isSound = true) : r.isKnown = true := by
  cases r <;> simp_all

theorem isSound_common (a b : CodeRange) :
    (a.common b).isSound = (a.isSound && b.isSound) := by cases a <;> cases b <;> rfl

theorem common_self_of_isSound {r : CodeRange} (h : r.isSound) : r.common r = r := by
  cases r <;> simp_all [common]

/-- A range that has been kept from two sides is sound, or says nothing. -/
theorem dropBroken_eq_of_isKnown {r : CodeRange} (h : r.dropBroken.isKnown) :
    r.dropBroken = r ∧ r.isSound := by
  cases r <;> simp_all [dropBroken]

end CodeRange

namespace Reading

structure Lawful (R : Reading) : Prop where
  range_scan : ∀ e bytes, R.range e bytes (e.scan bytes).codeRange
  /-- Plain ASCII is plain ASCII in every encoding that is compatible with it. -/
  range_relabel : ∀ e f bytes, e.asciiCompatible = true → f.asciiCompatible = true →
    R.range e bytes .sevenBit → R.range f bytes .sevenBit
  range_window : ∀ e bytes offset count, R.range e bytes .sevenBit →
    R.range e ((bytes.drop offset).take count) .sevenBit
  range_append : ∀ e a b x y, x.isSound = true → y.isSound = true → R.range e a x →
    R.range e b y → R.range e (a ++ b) (x.common y)
  length_scan : ∀ e bytes, R.length e bytes (e.scan bytes).characters
  length_relabel : ∀ e f bytes n, e.asciiCompatible = true → f.asciiCompatible = true →
    f.singleByte = false → R.range e bytes .sevenBit → R.length e bytes n → R.length f bytes n
  /-- One byte is one character. -/
  length_plain : ∀ e bytes, R.range e bytes .sevenBit ∨ e.singleByte = true →
    R.length e bytes bytes.length
  length_count : ∀ e bytes x, R.range e bytes x →
    R.length e bytes (e.countCharacters x bytes 0 bytes.length)
  length_append : ∀ e a b x y m n, x.isSound = true → y.isSound = true → R.range e a x →
    R.range e b y → R.length e a m → R.length e b n → (a ++ b).length < lengthLimit →
    R.length e (a ++ b) (Metadata.wrapLength (m + n))

/-- Everything is right. -/
def any : Reading := ⟨fun _ _ _ => True, fun _ _ _ => True⟩

/-- Only the findings of a scan are right. -/
def exact : Reading where
  range e bytes x := x = (e.scan bytes).codeRange
  length e bytes n := n = (e.scan bytes).characters

theorem any_lawful : Lawful any := by
  constructor <;> intros <;> trivial

theorem isSound_scan_iff {e : Encoding} {bytes : List UInt8} :
    (e.scan bytes).codeRange.isSound = true ↔ e.Encoded bytes := by
  have known := e.scan_codeRange_isKnown bytes
  rw [← Encoding.scan_codeRange_ne_broken_iff]
  cases range : (e.scan bytes).codeRange <;> simp_all

/-- The count that takes the shortcuts of a known range is that of a scan. -/
theorem countCharacters_scan (e : Encoding) (bytes : List UInt8) :
    e.countCharacters (e.scan bytes).codeRange bytes 0 bytes.length =
      (e.scan bytes).characters := by
  unfold Encoding.countCharacters
  split
  next short =>
    rcases short with plain | single
    · obtain ⟨compatible, ascii⟩ := Encoding.scan_codeRange_eq_sevenBit_iff.1 plain
      rw [Encoding.scan_characters, Encoding.length_pieces_of_ascii compatible ascii, Nat.sub_zero]
    · rw [Encoding.scan_characters_of_singleByte single, Nat.sub_zero]
  next =>
    simp only [List.take_length, List.drop_zero]
    split
    next leads =>
      obtain ⟨valid, rfl⟩ := leads
      exact Utf8.countP_encoded (isSound_scan_iff.1 (by rw [valid]; rfl))
    next => rfl

theorem exact_lawful : Lawful exact where
  range_scan _ _ := rfl
  range_relabel e f bytes _ compatible plain := by
    have ascii := (Encoding.scan_codeRange_eq_sevenBit_iff.1 plain.symm).2
    exact (Encoding.scan_codeRange_eq_sevenBit_iff.2 ⟨compatible, ascii⟩).symm
  range_window e bytes offset count plain := by
    obtain ⟨compatible, ascii⟩ := Encoding.scan_codeRange_eq_sevenBit_iff.1 plain.symm
    refine (Encoding.scan_codeRange_eq_sevenBit_iff.2 ⟨compatible, ?_⟩).symm
    rw [List.all_eq_true] at ascii ⊢
    exact fun b inside => ascii b (List.mem_of_mem_drop (List.mem_of_mem_take inside))
  range_append e a b x y soundA soundB ha hb := by
    subst ha hb
    exact (Encoding.scan_codeRange_append (isSound_scan_iff.1 soundA)
      (isSound_scan_iff.1 soundB)).symm
  length_scan _ _ := rfl
  length_relabel e f bytes n compatible compatible' _ plain count := by
    have ascii := (Encoding.scan_codeRange_eq_sevenBit_iff.1 plain.symm).2
    rw [count]
    show (e.scan bytes).characters = (f.scan bytes).characters
    rw [Encoding.scan_characters, Encoding.scan_characters,
      Encoding.length_pieces_of_ascii compatible ascii,
      Encoding.length_pieces_of_ascii compatible' ascii]
  length_plain e bytes short := by
    show bytes.length = (e.scan bytes).characters
    rcases short with plain | single
    · obtain ⟨compatible, ascii⟩ := Encoding.scan_codeRange_eq_sevenBit_iff.1 plain.symm
      rw [Encoding.scan_characters, Encoding.length_pieces_of_ascii compatible ascii]
    · rw [Encoding.scan_characters_of_singleByte single]
  length_count e bytes x range := by
    rw [range]
    exact countCharacters_scan e bytes
  length_append e a b x y m n soundA soundB ha hb hm hn small := by
    subst ha hb hm hn
    show Metadata.wrapLength _ = (e.scan (a ++ b)).characters
    rw [← Encoding.scan_characters_append (isSound_scan_iff.1 soundA)]
    exact Metadata.wrapLength_of_lt
      (Nat.lt_of_le_of_lt (e.scan_characters_le (a ++ b)) small)

section

variable {R : Reading} (lawful : Lawful R) {e : Encoding} {bytes : List UInt8}
include lawful

/-- A sound range holds of any number of copies. -/
theorem Lawful.range_copies {x : CodeRange} (sound : x.isSound) (h : R.range e bytes x)
    {times : Nat} (positive : 0 < times) :
    R.range e (List.replicate times bytes).flatten x := by
  obtain ⟨times, rfl⟩ : ∃ k, times = k + 1 := ⟨times - 1, by omega⟩
  induction times with
  | zero => simpa using h
  | succ times ih =>
    have both := lawful.range_append e _ _ x x sound sound h (ih (by omega))
    rw [CodeRange.common_self_of_isSound sound] at both
    simpa [List.replicate_succ] using both

theorem Lawful.length_copies {x : CodeRange} {n : Nat} (sound : x.isSound)
    (h : R.range e bytes x) (count : R.length e bytes n) {times : Nat}
    (small : (List.replicate times bytes).flatten.length < lengthLimit) :
    R.length e (List.replicate times bytes).flatten (Metadata.wrapLength (n * times)) := by
  induction times with
  | zero => simpa [Metadata.wrapLength] using lawful.length_scan e []
  | succ times ih =>
    rw [List.replicate_succ, List.flatten_cons] at small ⊢
    have rest := ih (by simp only [List.length_append] at small; omega)
    have whole : Metadata.wrapLength (n + Metadata.wrapLength (n * times)) =
        Metadata.wrapLength (n * (times + 1)) := by
      simp [Metadata.wrapLength, Nat.mul_succ, Nat.add_comm]
    rw [← whole]
    by_cases none : times = 0
    · subst none
      have empty : (e.scan []).codeRange.isSound := by cases e <;> rfl
      exact lawful.length_append e _ _ x _ _ _ sound empty h (lawful.range_scan e []) count rest
        small
    · have copies := lawful.range_copies sound h (Nat.pos_of_ne_zero none)
      exact lawful.length_append e _ _ x x _ _ sound sound h copies count rest small

end

end Reading

/-- What is known of bytes is right by a reading. -/
structure Metadata.Fits (R : Reading) (e : Encoding) (bytes : List UInt8) (m : Metadata) :
    Prop where
  codeRange : m.codeRange.isKnown = true → R.range e bytes m.codeRange
  characterLength : ∀ n, m.characterLength = some n → R.length e bytes n

namespace Metadata.Fits

variable {R : Reading} {e : Encoding} {bytes : List UInt8} {m : Metadata}

/-- Nothing is known. -/
theorem unknown : ({} : Metadata).Fits R e bytes :=
  ⟨(fun known => nomatch known), (fun _ known => nomatch known)⟩

theorem ofKnown {x : CodeRange} {chars : Option Nat}
    (range : x.isKnown = true → R.range e bytes x)
    (length : ∀ n, chars = some n → R.length e bytes n) : (Metadata.ofKnown x chars).Fits R e bytes where
  codeRange := range
  characterLength n found := by
    simp only [Metadata.ofKnown, Option.bind_eq_some_iff, remembered_eq_some_iff] at found
    obtain ⟨_, told, rfl, _⟩ := found
    exact length _ told

/-- What is said of a new text is right if what is known about it is. -/
theorem ofNew (lawful : R.Lawful) {x : CodeRange} {chars : Option Nat}
    (range : x.isKnown = true → R.range e bytes x)
    (length : ∀ n, chars = some n → R.length e bytes n) :
    (Metadata.ofNew e bytes.length x chars).Fits R e bytes := by
  refine ofKnown range fun n told => ?_
  split at told
  next short =>
    obtain rfl := Option.some.inj told
    refine lawful.length_plain _ _ (short.imp (fun plain => ?_) id)
    rw [← plain]
    exact range (by rw [plain]; rfl)
  next => exact length n told

theorem publishCodeRange (h : m.Fits R e bytes) {x : CodeRange} (right : R.range e bytes x) :
    (m.publishCodeRange x).Fits R e bytes where
  codeRange known := by
    unfold Metadata.publishCodeRange at known ⊢
    split
    next before => exact h.codeRange before
    next => exact right
  characterLength n found := h.characterLength n (by simpa using found)

theorem publishCharacterLength (h : m.Fits R e bytes) {n : Nat} (right : R.length e bytes n) :
    (m.publishCharacterLength n).Fits R e bytes where
  codeRange known := by
    have same := publishCharacterLength_codeRange m n
    simp only [same] at known ⊢
    exact h.codeRange known
  characterLength k found := by
    unfold Metadata.publishCharacterLength at found
    split at found
    next => exact h.characterLength k found
    next =>
      obtain ⟨rfl, _⟩ := remembered_eq_some_iff.1 found
      exact right

/-- Both results of a scan may be taken over. -/
theorem publishScan (lawful : R.Lawful) (h : m.Fits R e bytes) :
    (m.publishScan (e.scan bytes)).Fits R e bytes :=
  (h.publishCharacterLength (lawful.length_scan e bytes)).publishCodeRange
    (lawful.range_scan e bytes)

end Metadata.Fits

end RopeBridge
