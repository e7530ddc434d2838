import RopeBridge.Native.Text
import RopeBridge.Proofs.Rope.Build

/-! Texts in native memory whose metadata is right for their bytes. Every change keeps it right, but
for one: a text known to be plain ASCII is taken to stay so when its length is set, and a greater
length inside the buffer lets bytes in that were written behind the text. -/
namespace RopeBridge

theorem Buffer.getElem?_front (b : Buffer) (count i : Nat) :
    (b.front count)[i]? = if i < count then some (b.byte i) else none := by
  unfold front
  by_cases inside : i < count <;> simp [inside]

theorem Buffer.front_congr {a b : Buffer} {count : Nat} (same : ∀ i < count, a.byte i = b.byte i) :
    a.front count = b.front count := by
  apply List.ext_getElem?
  intro i
  rw [getElem?_front, getElem?_front]
  split
  next inside => rw [same i inside]
  next => rfl

/-- A write changes one byte of the front, or one behind it. -/
theorem Buffer.front_set (b : Buffer) (count : Nat) {index : Nat} (reached : index ≤ b.capacity)
    (byte : UInt8) : (b.set index byte).front count = (b.front count).set index byte := by
  apply List.ext_getElem?
  intro i
  rw [List.getElem?_set, length_front, getElem?_front, getElem?_front, byte_set]
  by_cases here : index = i
  · subst here
    simp [reached]
  · simp [here]

theorem Buffer.allocate_ok {f f' : Finalization} {capacity : Nat} {b : Buffer}
    (made : allocate f capacity = .ok (b, f')) :
    capacity + 1 < allocationLimit ∧ b.capacity = capacity ∧ ∀ i, b.byte i = 0 := by
  unfold allocate at made
  split at made
  next => cases made
  next room =>
    cases made
    refine ⟨by omega, rfl, fun i => ?_⟩
    simp [Buffer.byte]

/-- What is copied are the bytes in front; behind them is nothing. -/
theorem Buffer.byte_copyFront (b source : Buffer) (count i : Nat) :
    (b.copyFront source count).byte i = if i < count then source.byte i else 0 := by
  unfold copyFront Buffer.byte
  rw [Std.TreeMap.getD_filter', Std.TreeMap.getD_eq_getD_getElem?]
  by_cases inside : i < count
  · cases source.written[i]? <;> simp [inside, Option.filter]
  · cases source.written[i]? <;> simp [inside, Option.filter]

/-- Bytes that there is room for are read back from the front. -/
theorem Buffer.front_overwrite (b : Buffer) {bytes : List UInt8} (room : bytes.length ≤ b.capacity) :
    (b.overwrite 0 bytes).front bytes.length = bytes := by
  apply List.ext_getElem?
  intro i
  rw [getElem?_front]
  split
  next inside =>
    rw [byte_overwrite, if_pos (by omega), List.getD_eq_getElem?_getD]
    simp [inside]
  next behind => rw [List.getElem?_eq_none (Nat.le_of_not_lt behind)]

namespace NativeText

variable {t t' : NativeText} {f f' : Finalization}

/-- The text is within its buffer, and what is known of it is what a scan would find. -/
structure Fits (t : NativeText) : Prop where
  room : t.byteLength ≤ t.capacity
  allocated : t.capacity < Buffer.allocationLimit
  metadata : t.metadata.Fits .exact t.encoding t.bytes

/-- The text is within its buffer, whatever is known of it. -/
structure Contained (t : NativeText) : Prop where
  room : t.byteLength ≤ t.capacity
  allocated : t.capacity < Buffer.allocationLimit

theorem Fits.contained (h : t.Fits) : t.Contained := ⟨h.room, h.allocated⟩

@[simp] theorem length_bytes (t : NativeText) : t.bytes.length = t.byteLength :=
  t.buffer.length_front t.byteLength

theorem getElem?_bytes (t : NativeText) (i : Nat) :
    t.bytes[i]? = if i < t.byteLength then some (t.buffer.byte i) else none :=
  t.buffer.getElem?_front t.byteLength i

theorem Contained.byteLength_lt (h : t.Contained) : t.byteLength < lengthLimit := by
  have room := h.room
  have allocated := h.allocated
  simp only [Buffer.allocationLimit, lengthLimit] at *
  omega

/-- What is known of a text does not matter to where it is. -/
theorem Contained.other (h : t.Contained) (metadata : Metadata) :
    ({ t with metadata } : NativeText).Contained := ⟨h.room, h.allocated⟩

theorem Contained.only (h : t.Contained) (asked : ∃ metadata, t' = { t with metadata }) :
    t'.Contained := by
  obtain ⟨metadata, rfl⟩ := asked
  exact h.other metadata

/-- A read anywhere in the buffer finds the byte there. -/
theorem readRaw_inside {index : Nat} (reached : index ≤ t.capacity) :
    t.readRaw index = .ok (t.buffer.byte index) := by
  simp only [capacity] at reached
  simp [readRaw, Buffer.byte?, reached]

theorem zeros_ok {byteLength capacity : Nat} {e : Encoding}
    (made : zeros f byteLength capacity e = .ok (t, f')) :
    t.Contained ∧ t.metadata = {} ∧ ∀ i, t.buffer.byte i = 0 := by
  unfold zeros at made
  cases allocated : Buffer.allocate f (max capacity byteLength) with
  | error fault =>
    rw [allocated] at made
    cases made
  | ok result =>
    obtain ⟨buffer, f''⟩ := result
    rw [allocated] at made
    cases made
    obtain ⟨limit, size, zero⟩ := Buffer.allocate_ok allocated
    refine ⟨⟨?_, ?_⟩, rfl, zero⟩
    · show byteLength ≤ buffer.capacity
      omega
    · show buffer.capacity < _
      omega

theorem zeros_fits {byteLength capacity : Nat} {e : Encoding}
    (made : zeros f byteLength capacity e = .ok (t, f')) : t.Fits := by
  obtain ⟨contained, unknown, _⟩ := zeros_ok made
  refine ⟨contained.room, contained.allocated, ?_⟩
  rw [unknown]
  exact .unknown

theorem clear_fits (h : t.Fits) : t.clear.Fits := ⟨h.room, h.allocated, .unknown⟩

/-- A write anywhere in the buffer is done; it clears what is known if it is into the text. -/
theorem setByte_ok {index : Nat} {byte : UInt8} (written : t.setByte index byte = .ok t') :
    index ≤ t.capacity ∧ t' = { t with
      buffer := t.buffer.set index byte
      metadata := if index < t.byteLength then {} else t.metadata } := by
  unfold setByte at written
  split at written
  next reached =>
    cases written
    refine ⟨reached, ?_⟩
    split <;> rfl
  next => cases written

theorem setByte_contained (h : t.Contained) {index : Nat} {byte : UInt8}
    (written : t.setByte index byte = .ok t') : t'.Contained := by
  obtain ⟨_, rfl⟩ := setByte_ok written
  exact ⟨by simpa [capacity] using h.room, by simpa [capacity] using h.allocated⟩

/-- A write behind the text leaves the text as it is. -/
theorem setByte_fits (h : t.Fits) {index : Nat} {byte : UInt8}
    (written : t.setByte index byte = .ok t') : t'.Fits := by
  obtain ⟨room, allocated⟩ := setByte_contained h.contained written
  refine ⟨room, allocated, ?_⟩
  obtain ⟨_, rfl⟩ := setByte_ok written
  by_cases inside : index < t.byteLength
  · simp only [inside, if_true]
    exact .unknown
  · have same : (t.buffer.set index byte).front t.byteLength = t.bytes := by
      refine Buffer.front_congr fun i front => ?_
      rw [Buffer.byte_set, if_neg (by omega)]
    show Metadata.Fits _ t.encoding ((t.buffer.set index byte).front t.byteLength) _
    simp only [inside, if_false, same]
    exact h.metadata

/-- Asking a text for its metadata changes nothing else about it. -/
def SameText (t t' : NativeText) : Prop := t'.encoding = t.encoding ∧ t'.bytes = t.bytes

theorem codeRange_fits (h : t.Fits) :
    t.codeRange.1 = (t.encoding.scan t.bytes).codeRange ∧ t.codeRange.2.Fits ∧
      SameText t t.codeRange.2 := by
  unfold codeRange
  split
  next known => exact ⟨h.metadata.codeRange known, h, rfl, rfl⟩
  next =>
    exact ⟨rfl, ⟨h.room, h.allocated, h.metadata.publishScan Reading.exact_lawful⟩, rfl, rfl⟩

theorem characterLength_fits (h : t.Fits) :
    t.characterLength.1 = (t.encoding.scan t.bytes).characters ∧ t.characterLength.2.Fits ∧
      SameText t t.characterLength.2 := by
  unfold characterLength
  split
  next n known => exact ⟨h.metadata.characterLength n known, h, rfl, rfl⟩
  next =>
    obtain ⟨range, fits, encoding, bytes⟩ := codeRange_fits h
    split
    next range' t' asked =>
      rw [asked] at range fits encoding bytes
      dsimp only at range fits encoding bytes
      split
      next n known =>
        have count := fits.metadata.characterLength n known
        rw [encoding, bytes] at count
        exact ⟨count, fits, encoding, bytes⟩
      next =>
        have count : t'.encoding.countCharacters range' t'.bytes 0 t'.byteLength =
            (t'.encoding.scan t'.bytes).characters := by
          rw [← t'.length_bytes, range, ← encoding, ← bytes]
          exact Reading.countCharacters_scan t'.encoding t'.bytes
        refine ⟨by rw [count, encoding, bytes], ⟨fits.room, fits.allocated, ?_⟩, encoding, bytes⟩
        exact fits.metadata.publishCharacterLength count

theorem codeRange_only (t : NativeText) : ∃ metadata, t.codeRange.2 = { t with metadata } := by
  unfold codeRange
  split
  next => exact ⟨_, rfl⟩
  next => exact ⟨_, rfl⟩

theorem characterLength_only (t : NativeText) :
    ∃ metadata, t.characterLength.2 = { t with metadata } := by
  unfold characterLength
  split
  next => exact ⟨_, rfl⟩
  next =>
    obtain ⟨metadata, asked⟩ := t.codeRange_only
    split
    next found =>
      rw [found] at asked
      dsimp only at asked
      subst asked
      split
      next => exact ⟨_, rfl⟩
      next => exact ⟨_, rfl⟩

/-- What setting a length comes to, within the buffer or by moving to a larger one: the bytes that
were in front stay, and those behind them in a new buffer are zeros. The place behind the text is
for the terminator. -/
structure Resized (t t' : NativeText) (n : Nat) : Prop where
  length : t'.byteLength = n
  encoding : t'.encoding = t.encoding
  capacity : t'.capacity = max t.capacity n
  allocated : t'.capacity < Buffer.allocationLimit
  byte : ∀ i, i ≠ n → t'.buffer.byte i =
    if n ≤ t.capacity ∨ i < t.byteLength then t.buffer.byte i else 0

theorem Resized.contained {n : Nat} (h : Resized t t' n) : t'.Contained := by
  refine ⟨?_, h.allocated⟩
  rw [h.length, h.capacity]
  exact Nat.le_max_right _ _

/-- The length has been set, and the text has a terminator. -/
structure Cut (t t' : NativeText) (n : Nat) : Prop extends Resized t t' n where
  terminated : t'.buffer.byte n = 0

theorem grow_resized (h : t.Contained) {byteLength : Nat} (more : t.capacity < byteLength)
    (grown : t.grow byteLength f = .ok (t', f')) :
    Resized t { t' with byteLength } byteLength := by
  unfold grow at grown
  cases allocated : Buffer.allocate f byteLength with
  | error fault =>
    rw [allocated] at grown
    cases grown
  | ok result =>
    obtain ⟨buffer, f''⟩ := result
    rw [allocated] at grown
    cases grown
    obtain ⟨limit, size, _⟩ := Buffer.allocate_ok allocated
    have room := h.room
    refine ⟨rfl, rfl, ?_, ?_, fun i _ => ?_⟩
    · show buffer.capacity = max t.capacity byteLength
      omega
    · show buffer.capacity < _
      omega
    · show (buffer.copyFront t.buffer (min t.byteLength byteLength)).byte i = _
      rw [Buffer.byte_copyFront]
      by_cases front : i < t.byteLength
      · rw [if_pos (by omega), if_pos (.inr front)]
      · rw [if_neg (by omega), if_neg (by omega)]

theorem resized_self (h : t.Contained) {byteLength : Nat} (room : byteLength ≤ t.capacity) :
    Resized t { t with byteLength } byteLength :=
  ⟨rfl, rfl, (Nat.max_eq_left room).symm, h.allocated, fun i _ => by rw [if_pos (.inl room)]⟩

/-- Every change of the length ends with a terminator and other metadata. -/
theorem Resized.finish {byteLength : Nat} (h : Resized t t' byteLength) (metadata : Metadata) :
    Cut t { t'.terminate with metadata } byteLength where
  length := h.length
  encoding := h.encoding
  capacity := by simpa [terminate, NativeText.capacity] using h.capacity
  allocated := by simpa [terminate, NativeText.capacity] using h.allocated
  byte i apart := by
    rw [← h.byte i apart]
    have place := h.length
    show (t'.buffer.set t'.byteLength 0).byte i = _
    rw [Buffer.byte_set, if_neg (by omega)]
  terminated := by
    show (t'.buffer.set t'.byteLength 0).byte byteLength = 0
    rw [Buffer.byte_set, if_pos ⟨h.length, h.contained.room⟩]

theorem Resized.fits {byteLength : Nat} (h : Resized t t' byteLength)
    (metadata : t'.metadata.Fits .exact t'.encoding t'.bytes) : t'.Fits :=
  ⟨h.contained.room, h.allocated, metadata⟩

theorem resize_cut (h : t.Contained) {byteLength : Nat}
    (resized : t.resize byteLength f = .ok (t', f')) :
    Cut t t' byteLength ∧ t'.metadata = {} := by
  unfold resize at resized
  split at resized
  next more =>
    cases grown : t.grow byteLength f with
    | error fault =>
      rw [grown] at resized
      cases resized
    | ok result =>
      rw [grown] at resized
      cases resized
      exact ⟨(grow_resized h more grown).finish {}, rfl⟩
  next within =>
    cases resized
    exact ⟨(resized_self h (Nat.le_of_not_lt within)).finish {}, rfl⟩

theorem setByteLength_cut (h : t.Contained) {byteLength : Nat} {chars : Option Nat} {x : CodeRange}
    (set : t.setByteLength byteLength chars x f = .ok (t', f')) :
    Cut t t' byteLength ∧ t'.metadata = .ofKnown x chars := by
  unfold setByteLength at set
  split at set
  next more =>
    cases resized : t.resize byteLength f with
    | error fault =>
      rw [resized] at set
      cases set
    | ok result =>
      obtain ⟨moved, f''⟩ := result
      rw [resized] at set
      cases set
      have first := (resize_cut h resized).1.toResized
      have same : ({ moved with byteLength } : NativeText) = moved := by rw [← first.length]
      refine ⟨?_, rfl⟩
      dsimp only
      rw [same]
      exact first.finish _
  next within =>
    cases set
    exact ⟨(resized_self h (Nat.le_of_not_lt within)).finish _, rfl⟩

theorem resize_fits (h : t.Fits) {n : Nat} (resized : t.resize n f = .ok (t', f')) : t'.Fits := by
  obtain ⟨same, cleared⟩ := resize_cut h.contained resized
  refine same.fits ?_
  rw [cleared]
  exact .unknown

/-- Setting the length lets in a byte that is not ASCII and was written behind the text, while the
text is known to be plain ASCII. -/
def Exposes (t : NativeText) (n : Nat) : Prop :=
  t.metadata.codeRange = .sevenBit ∧ n ≤ t.capacity ∧
    ∃ i, t.byteLength ≤ i ∧ i < n ∧ Encoding.isAscii (t.buffer.byte i) = false

/-- There is nothing behind a text that fills its buffer. -/
theorem not_exposes_of_full (full : t.capacity = t.byteLength) (n : Nat) : ¬ t.Exposes n := by
  rintro ⟨_, within, i, behind, inside, _⟩
  omega

theorem mem_bytes_iff {b : UInt8} : b ∈ t.bytes ↔ ∃ i < t.byteLength, t.buffer.byte i = b := by
  simp [NativeText.bytes, Buffer.front]

/-- Plain ASCII stays so as long as nothing is exposed. -/
theorem Resized.plain (h : t.Fits) (plain : t.metadata.codeRange = .sevenBit) {n : Nat}
    (resized : Resized t t' n) (hidden : ¬ t.Exposes n) :
    t'.encoding.asciiCompatible = true ∧ t'.bytes.all Encoding.isAscii = true := by
  have found := h.metadata.codeRange (by rw [plain]; rfl)
  rw [plain] at found
  obtain ⟨compatible, ascii⟩ := Encoding.scan_codeRange_eq_sevenBit_iff.1 found.symm
  rw [List.all_eq_true] at ascii ⊢
  refine ⟨by rwa [resized.encoding], fun b member => ?_⟩
  obtain ⟨i, inside, rfl⟩ := mem_bytes_iff.1 member
  rw [resized.length] at inside
  rw [resized.byte i (Nat.ne_of_lt inside)]
  by_cases front : i < t.byteLength
  · rw [if_pos (.inr front)]
    exact ascii _ (mem_bytes_iff.2 ⟨i, front, rfl⟩)
  · by_cases within : n ≤ t.capacity
    · rw [if_pos (.inl within), ← Bool.not_eq_false]
      exact fun wide => hidden ⟨plain, within, i, Nat.le_of_not_lt front, inside, wide⟩
    · rw [if_neg (by omega)]
      rfl

/-- The setting of a length as native code asks for it keeps the metadata right, if it exposes
nothing. -/
theorem setLength_fits (h : t.Fits) {n : Nat} (hidden : ¬ t.Exposes n)
    (set : (if t.metadata.codeRange = .sevenBit then t.setByteLength n (some n) .sevenBit f
      else t.setByteLength n none .unknown f) = .ok (t', f')) : t'.Fits := by
  split at set
  next plain =>
    obtain ⟨resized, metadata⟩ := setByteLength_cut h.contained set
    obtain ⟨compatible, ascii⟩ := resized.plain h plain hidden
    have range := Encoding.scan_codeRange_eq_sevenBit_iff.2 ⟨compatible, ascii⟩
    refine resized.fits ?_
    rw [metadata]
    refine .ofKnown (fun _ => range.symm) ?_
    rintro _ ⟨⟩
    rw [← resized.length, ← t'.length_bytes]
    exact Reading.exact_lawful.length_plain _ _ (.inl range.symm)
  next =>
    obtain ⟨resized, metadata⟩ := setByteLength_cut h.contained set
    refine resized.fits ?_
    rw [metadata]
    exact .ofKnown (fun unknown => nomatch unknown) (by rintro _ ⟨⟩)

/-- What is exposed makes the claim of plain ASCII false. -/
theorem exposes_false {n : Nat} (exposes : t.Exposes n) :
    ∃ t', t.setByteLength n (some n) .sevenBit f = .ok (t', f) ∧ t'.codeRange.1 = .sevenBit ∧
      (t'.encoding.scan t'.bytes).codeRange ≠ .sevenBit := by
  obtain ⟨plain, within, i, behind, inside, wide⟩ := exposes
  have kept : t.setByteLength n (some n) .sevenBit f = .ok
      ({ ({ t with byteLength := n } : NativeText).terminate with
        metadata := .ofKnown .sevenBit (some n) }, f) := by
    unfold setByteLength
    rw [if_neg (Nat.not_lt.2 within)]
    rfl
  refine ⟨_, kept, rfl, ?_⟩
  rw [Ne, Encoding.scan_codeRange_eq_sevenBit_iff]
  rintro ⟨_, ascii⟩
  rw [List.all_eq_true] at ascii
  have byte : (t.buffer.set n 0).byte i = t.buffer.byte i := by
    rw [Buffer.byte_set, if_neg (by omega)]
  have member := ascii (t.buffer.byte i) (mem_bytes_iff.2 ⟨i, inside, byte⟩)
  rw [wide] at member
  cases member

/-- A copy of a rope fills its buffer but for the place of the terminator, where there is a zero.
What is known of it is as right as what is known of the rope. -/
structure Copies (R : Reading) (r : Rope) (t : NativeText) : Prop where
  full : t.capacity = t.byteLength
  allocated : t.capacity < Buffer.allocationLimit
  encoding : t.encoding = r.encoding
  bytes : t.bytes = r.toBytes
  behind : ∀ i, t.byteLength ≤ i → t.buffer.byte i = 0
  metadata : t.metadata.Fits R r.encoding r.toBytes

theorem Copies.contained {R : Reading} {r : Rope} (h : t.Copies R r) : t.Contained :=
  ⟨Nat.le_of_eq h.full.symm, h.allocated⟩

theorem Copies.fits {r : Rope} (h : t.Copies .exact r) : t.Fits := by
  refine ⟨h.contained.room, h.allocated, ?_⟩
  rw [h.encoding, h.bytes]
  exact h.metadata

section

variable {R : Reading} {nodes : List Rope} {r : Rope}

theorem ofRope_copies (known : r ∈ nodes) :
    (ofRope f r).Answers R nodes fun result =>
      ∀ t f', result = .ok (t, f') → t.Copies R r := by
  unfold ofRope
  refine (Rope.bytes_answers known).bind fun bytes same => ?_
  subst same
  refine (Rope.knownCodeRange_answers known).bind fun x range => ?_
  refine (Rope.knownCharacterLength_answers known).bind fun chars length => .pure ?_
  intro t f' made
  cases allocated : Buffer.allocate f r.toBytes.length with
  | error fault =>
    rw [allocated] at made
    cases made
  | ok result =>
    obtain ⟨buffer, f''⟩ := result
    rw [allocated] at made
    cases made
    obtain ⟨limit, size, zero⟩ := Buffer.allocate_ok allocated
    have full : (buffer.overwrite 0 r.toBytes).capacity = r.toBytes.length := by
      rw [Buffer.overwrite_capacity, size]
    refine ⟨full, ?_, rfl, buffer.front_overwrite (Nat.le_of_eq size.symm), fun i behind => ?_,
      .ofKnown range length⟩
    · show (buffer.overwrite 0 r.toBytes).capacity < _
      omega
    · have behind : r.toBytes.length ≤ i := behind
      rw [Buffer.byte_overwrite, if_neg (by omega), zero]

/-- The rope that a text is copied into is known about as much as the text. -/
theorem toRope_makes (lawful : R.Lawful) (h : t.Contained)
    (right : t.metadata.Fits R t.encoding t.bytes) :
    t.toRope.Makes R nodes fun more r => r.Denotes more t.encoding t.bytes := by
  have small : t.bytes.length < lengthLimit := by
    rw [length_bytes]
    exact h.byteLength_lt
  unfold toRope
  refine (Rope.ofBytes_makes lawful small right.codeRange).bind
    fun more grown r denotes => ?_
  split
  next n known =>
    have count : R.length r.encoding r.toBytes n := by
      rw [denotes.encoding, denotes.toBytes]
      exact right.characterLength n known
    refine (Query.answers_publishCharacterLength denotes.known count).thenMakes fun _ _ => ?_
    exact .pure denotes
  next => exact .pure denotes

end

end NativeText

end RopeBridge
