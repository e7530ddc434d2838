import RopeBridge.Encoding.CodeRange
import RopeBridge.Encoding.Measure

/-! Scanning a byte sequence: cutting it into pieces, each a character or the shortest stretch that
begins none, and reading off the code range and the number of pieces. `pieces` lists them; a fold
goes over them without listing them. `scan` takes shortcuts that need no cutting; `countCharacters`
takes more of them when the range is known beforehand. -/

namespace RopeBridge

/-- One step of a scan: how many bytes it covers and whether they are a character. -/
structure Piece where
  width : Nat
  valid : Bool
deriving DecidableEq

/-- The length of a list as far as it is at most `limit`. -/
def lengthUpTo {α : Type} : (limit : Nat) → List α → Nat
  | 0, _ | _, [] => 0
  | limit + 1, _ :: rest => lengthUpTo limit rest + 1

theorem lengthUpTo_eq_min {α : Type} (limit : Nat) (l : List α) :
    lengthUpTo limit l = min limit l.length := by
  induction l generalizing limit with
  | nil => cases limit <;> simp [lengthUpTo]
  | cons _ rest ih => cases limit <;> simp [lengthUpTo, ih]

namespace Encoding

/-- The first piece of non-empty bytes. Where no character begins it covers the least number of
bytes a character takes, or what is left. -/
def piece (e : Encoding) (bytes : List UInt8) : Piece :=
  match e.measure bytes with
  | .found n => ⟨n, true⟩
  | _ => ⟨lengthUpTo e.minLength bytes, false⟩

/-- The pieces of what follows the first `skip` bytes. -/
def piecesAfter (e : Encoding) : Nat → List UInt8 → List Piece
  | _, [] => []
  | skip + 1, _ :: rest => e.piecesAfter skip rest
  | 0, b :: rest =>
    let p := e.piece (b :: rest)
    p :: e.piecesAfter (p.width - 1) rest

def pieces (e : Encoding) (bytes : List UInt8) : List Piece := e.piecesAfter 0 bytes

theorem piece_width_pos (e : Encoding) {bytes : List UInt8} (h : bytes ≠ []) :
    0 < (e.piece bytes).width := by
  have hmin := e.minLength_pos
  unfold piece
  split
  · next n hn => exact Nat.lt_of_lt_of_le hmin (measure_found hn).1
  · have := List.length_pos_iff.2 h
    simp only [lengthUpTo_eq_min]
    omega

theorem piece_width_le (e : Encoding) (bytes : List UInt8) :
    (e.piece bytes).width ≤ bytes.length := by
  unfold piece
  split
  · next n hn => exact (measure_found hn).2.2
  · simp only [lengthUpTo_eq_min]
    omega

theorem piecesAfter_eq (e : Encoding) (skip : Nat) (bytes : List UInt8) :
    e.piecesAfter skip bytes = e.pieces (bytes.drop skip) := by
  induction bytes generalizing skip with
  | nil => simp [pieces, piecesAfter]
  | cons b rest ih =>
    cases skip with
    | zero => simp [pieces]
    | succ skip => simpa [piecesAfter] using ih skip

@[simp] theorem pieces_nil (e : Encoding) : e.pieces [] = [] := rfl

/-- The first piece, then the pieces of the bytes after it. -/
theorem pieces_of_ne_nil (e : Encoding) {bytes : List UInt8} (h : bytes ≠ []) :
    e.pieces bytes = e.piece bytes :: e.pieces (bytes.drop (e.piece bytes).width) := by
  cases bytes with
  | nil => exact absurd rfl h
  | cons b rest =>
    have hw := e.piece_width_pos h
    obtain ⟨w, hw⟩ : ∃ w, (e.piece (b :: rest)).width = w + 1 :=
      ⟨_, (Nat.succ_pred_eq_of_pos hw).symm⟩
    simp [pieces, piecesAfter, hw]
    simpa [pieces] using e.piecesAfter_eq w rest

/-- Goes over the pieces of what follows the first `skip` bytes. -/
@[specialize] def foldAfter {α : Type} (e : Encoding) (f : α → Piece → α) : α → Nat → List UInt8 → α
  | a, _, [] => a
  | a, skip + 1, _ :: rest => e.foldAfter f a skip rest
  | a, 0, b :: rest =>
    let p := e.piece (b :: rest)
    e.foldAfter f (f a p) (p.width - 1) rest

@[inline] def foldPieces {α : Type} (e : Encoding) (f : α → Piece → α) (a : α)
    (bytes : List UInt8) : α := e.foldAfter f a 0 bytes

theorem foldAfter_eq {α : Type} (e : Encoding) (f : α → Piece → α) (a : α) (skip : Nat)
    (bytes : List UInt8) :
    e.foldAfter f a skip bytes = (e.piecesAfter skip bytes).foldl f a := by
  induction bytes generalizing a skip with
  | nil => simp [foldAfter, piecesAfter]
  | cons b rest ih => cases skip <;> simp [foldAfter, piecesAfter, ih]

theorem foldPieces_eq {α : Type} (e : Encoding) (f : α → Piece → α) (a : α)
    (bytes : List UInt8) : e.foldPieces f a bytes = (e.pieces bytes).foldl f a :=
  e.foldAfter_eq f a 0 bytes

end Encoding

structure Scan where
  codeRange : CodeRange
  characters : Nat
deriving DecidableEq

/-- Takes in one more piece: a single one that is no character breaks the whole. -/
def Scan.add (s : Scan) (p : Piece) : Scan :=
  ⟨if p.valid then s.codeRange else .broken, s.characters + 1⟩

namespace Encoding

def isAscii (b : UInt8) : Bool := b < 0x80

def scanPieces (e : Encoding) (bytes : List UInt8) : Scan := e.foldPieces Scan.add ⟨.valid, 0⟩ bytes

/-- The range and the character count of `bytes`. Plain ASCII, and encodings in which every byte is
a character, are answered without cutting the bytes into pieces. -/
def scan (e : Encoding) (bytes : List UInt8) : Scan :=
  if e.asciiCompatible && bytes.all isAscii then ⟨.sevenBit, bytes.length⟩
  else if e.singleByte && e != .usAscii then ⟨.valid, bytes.length⟩
  else e.scanPieces bytes

/-- The number of characters in `bytes[start, stop)`, given what is known about that stretch. In
valid UTF-8 the bytes that do not continue a character are counted. -/
def countCharacters (e : Encoding) (hint : CodeRange) (bytes : List UInt8) (start stop : Nat) :
    Nat :=
  if hint = .sevenBit ∨ e.singleByte then stop - start
  else
    let slice := (bytes.take stop).drop start
    if hint = .valid ∧ e = .utf8 then slice.countP fun b => !Utf8.isContinuation b
    else (e.scan slice).characters

/-- The plain pass finds bytes broken as soon as one piece is no character. -/
theorem scanPieces_eq (e : Encoding) (bytes : List UInt8) :
    e.scanPieces bytes =
      ⟨if (e.pieces bytes).all (·.valid) then .valid else .broken, (e.pieces bytes).length⟩ := by
  suffices h : ∀ (ps : List Piece) (s : Scan), ps.foldl Scan.add s =
      ⟨if ps.all (·.valid) then s.codeRange else .broken, s.characters + ps.length⟩ by
    simp [scanPieces, foldPieces_eq, h]
  intro ps
  induction ps with
  | nil => intro s; simp
  | cons p ps ih =>
    intro s
    cases hv : p.valid <;> simp [ih, Scan.add, hv, Nat.add_comm, Nat.add_left_comm]

@[simp] theorem scan_nil_codeRange_of_asciiCompatible {e : Encoding} (h : e.asciiCompatible) :
    (e.scan []).codeRange = .sevenBit := by simp [scan, h]

@[simp] theorem scan_nil_characters (e : Encoding) : (e.scan []).characters = 0 := by
  cases e <;> rfl

theorem scan_codeRange_isKnown (e : Encoding) (bytes : List UInt8) :
    (e.scan bytes).codeRange.isKnown := by
  unfold scan
  simp only [scanPieces_eq]
  repeat' split
  all_goals rfl

/-- How far a walk over pieces has come: the pieces still to pass and the bytes passed. -/
structure Walk where
  due : Nat
  passed : Nat
deriving DecidableEq

def Walk.step (w : Walk) (p : Piece) : Walk :=
  match w.due with
  | 0 => w
  | due + 1 => ⟨due, w.passed + p.width⟩

/-- The number of bytes in front of the piece number `index`; the number of pieces stands for the
end, and there are none after it. -/
def offsetOf? (e : Encoding) (bytes : List UInt8) (index : Nat) : Option Nat :=
  let w := e.foldPieces Walk.step ⟨index, 0⟩ bytes
  if w.due = 0 then some w.passed else none

/-- The number of bytes that the first `n` pieces cover. -/
def covered : List Piece → (n : Nat) → Nat
  | [], _ | _, 0 => 0
  | p :: ps, n + 1 => p.width + covered ps n

@[simp] theorem covered_zero (ps : List Piece) : covered ps 0 = 0 := by cases ps <;> rfl

theorem offsetOf?_eq (e : Encoding) (bytes : List UInt8) (index : Nat) :
    e.offsetOf? bytes index =
      if index ≤ (e.pieces bytes).length then some (covered (e.pieces bytes) index) else none := by
  suffices h : ∀ (ps : List Piece) (w : Walk), ps.foldl Walk.step w =
      ⟨w.due - ps.length, w.passed + covered ps w.due⟩ by
    simp [offsetOf?, foldPieces_eq, h, Nat.sub_eq_zero_iff_le]
  intro ps
  induction ps with
  | nil => intro w; simp [covered]
  | cons p ps ih =>
    intro w
    obtain ⟨due, passed⟩ := w
    cases due <;> simp [ih, Walk.step, covered, Nat.add_assoc]

end Encoding

end RopeBridge
