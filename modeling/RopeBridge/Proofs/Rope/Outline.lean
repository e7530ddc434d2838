import RopeBridge.Proofs.Encoding.Counting
import RopeBridge.Proofs.Encoding.Scalar
import RopeBridge.Proofs.Rope.Indexing
import RopeBridge.Proofs.Rope.Passes
import RopeBridge.Rope.Render

/-! The windows in an outline. An excerpt is cut by bytes and its window is printed in characters of
what it was cut from. Read back, the window selects the excerpt where no character is cut in two;
where one is, there is no window of characters for it, and another stretch is printed. -/
namespace RopeBridge

namespace Encoding

theorem covered_append (ps qs : List Piece) :
    covered (ps ++ qs) ps.length = covered ps ps.length := by
  induction ps with
  | nil => simp
  | cons p ps ih => simp [covered, ih]

/-- What lies between two boundaries of valid bytes is valid. -/
theorem Encoded.between {e : Encoding} {bytes : List UInt8} (whole : e.Encoded bytes)
    (i count : Nat) :
    e.Encoded ((bytes.drop (covered (e.pieces bytes) i)).take
      (covered (e.pieces bytes) (i + count) - covered (e.pieces bytes) i)) := by
  rw [encoded_iff, List.all_eq_true] at whole ⊢
  rw [pieces_window]
  exact fun p member => whole p (List.mem_of_mem_drop (List.mem_of_mem_take member))

/-- A valid window that begins where a piece begins ends where one ends. -/
theorem exists_boundary_behind {e : Encoding} {bytes : List UInt8} {i offset length : Nat}
    (within : i ≤ (e.pieces bytes).length) (start : covered (e.pieces bytes) i = offset)
    (valid : e.Encoded ((bytes.drop offset).take length))
    (inside : offset + length ≤ bytes.length) :
    ∃ count, i + count ≤ (e.pieces bytes).length ∧
      covered (e.pieces bytes) (i + count) = offset + length := by
  have size : ((bytes.drop offset).take length).length = length := by
    rw [List.length_take, List.length_drop]
    omega
  -- from the start on the pieces are those of the window and of what follows it
  have behind := e.pieces_drop bytes i
  rw [start, ← List.take_append_drop length (bytes.drop offset), pieces_append valid] at behind
  refine ⟨(e.pieces ((bytes.drop offset).take length)).length, ?_, ?_⟩
  · have count := congrArg List.length behind
    rw [List.length_append, List.length_drop] at count
    omega
  · rw [covered_add, start, ← behind, covered_append, covered_pieces, size]

end Encoding

namespace Utf8

open Encoding (covered)

/-- The first byte of a character continues none, and the others all do. -/
theorem Form.leads {b : UInt8} {tail : List UInt8} (form : Form (b :: tail)) :
    isContinuation b = false ∧ ∀ x ∈ tail, isContinuation x = true := by
  have lead (first : b < 0x80 ∨ 0xC2 ≤ b) : isContinuation b = false := by
    have := isContinuation_iff b
    grind
  cases form with
  | one ascii => exact ⟨lead (.inl ascii), by simp⟩
  | two window second => exact ⟨lead (.inr window.1), by simpa [isContinuation_iff, Tail] using second⟩
  | three window second _ _ third =>
    refine ⟨lead (.inr (UInt8.le_trans (by decide) window.1)), ?_⟩
    simpa [isContinuation_iff, Tail] using ⟨second, third⟩
  | four window second _ _ third fourth =>
    refine ⟨lead (.inr (UInt8.le_trans (by decide) window.1)), ?_⟩
    simpa [isContinuation_iff, Tail] using ⟨second, third, fourth⟩

/-- Valid bytes begin with a byte that continues none. -/
theorem first_of_encoded {bytes : List UInt8} (encoded : Encoding.utf8.Encoded bytes) {b : UInt8}
    (found : bytes[0]? = some b) : isContinuation b = false := by
  cases encoded with
  | nil => cases found
  | cons character _ =>
    obtain ⟨c, tail, rfl⟩ := List.exists_cons_of_ne_nil character.ne_nil
    obtain rfl : c = b := by simpa using found
    exact (Form.of_isCharacter character).leads.1

/-- In valid bytes a character begins wherever a byte continues none. -/
theorem exists_boundary {bytes : List UInt8} (encoded : Encoding.utf8.Encoded bytes) {place : Nat}
    {b : UInt8} (found : bytes[place]? = some b) (first : isContinuation b = false) :
    ∃ i ≤ (Encoding.utf8.pieces bytes).length, covered (Encoding.utf8.pieces bytes) i = place := by
  induction encoded generalizing place with
  | nil => simp at found
  | @cons character rest whole _ ih =>
    rw [Encoding.pieces_character whole]
    rcases Nat.lt_or_ge place character.length with inside | behind
    · rw [List.getElem?_append_left inside] at found
      obtain ⟨c, tail, rfl⟩ := List.exists_cons_of_ne_nil whole.ne_nil
      cases place with
      | zero => exact ⟨0, Nat.zero_le _, rfl⟩
      | succ place =>
        have continued := (Form.of_isCharacter whole).leads.2 b (List.mem_of_getElem? found)
        simp [first] at continued
    · rw [List.getElem?_append_right behind] at found
      obtain ⟨i, within, place'⟩ := ih found
      refine ⟨i + 1, Nat.succ_le_succ within, ?_⟩
      rw [covered, place']
      exact Nat.add_sub_cancel' behind

end Utf8

namespace Rope

variable {nodes : List Rope} {r child : Rope} {n : Node} {offset length : Nat} {l : Ledger}

/-- What an outline is written from. -/
inductive Sketch where
  | quoted (text : String)
  | sum (left right : Sketch)
  | window (inner : Sketch) (first length : Nat)
  | product (inner : Sketch) (times : Nat)

def Sketch.write : Sketch → String
  | quoted text => "\"" ++ text ++ "\""
  | sum left right => "(" ++ left.write ++ " + " ++ right.write ++ ")"
  | window inner first length =>
    inner.write ++ "[" ++ toString first ++ ", " ++ toString length ++ "]"
  | product inner times => "(" ++ inner.write ++ "*" ++ toString times ++ ")"

/-- The number of characters that is printed for the bytes in front of a place. -/
def indexAt (r : Rope) (place : Nat) : Nat :=
  r.encoding.countCharacters (r.encoding.scan r.toBytes).codeRange r.toBytes 0 place

def sketch (r : Rope) : Sketch :=
  match r with
  | leaf n bytes => .quoted (n.encoding.lossyText bytes)
  | joined _ left right => .sum left.sketch right.sketch
  | excerpt _ child offset => .window child.sketch (child.indexAt offset) r.pieces.length
  | repeated _ child times => .product child.sketch times

theorem outline_sketch (known : r ∈ nodes) :
    r.outline.Answers .exact nodes (· = r.sketch.write) := by
  have lawful := Reading.exact_lawful
  refine .closed fun closed => ?_
  induction r with
  | leaf n bytes =>
    have spelled : (leaf n bytes).text.Answers .exact nodes (· = n.encoding.lossyText bytes) :=
      (bytes_answers known).bind fun _ same => .pure (by rw [same]; rfl)
    rw [outline]
    exact spelled.bind fun _ same => .pure (by rw [same]; rfl)
  | joined n left right ihl ihr =>
    rw [outline]
    refine (ihl (closed.parts _ known left (by simp [parts]))).bind fun _ same => ?_
    subst same
    refine (ihr (closed.parts _ known right (by simp [parts]))).bind fun _ same => .pure ?_
    rw [same]
    rfl
  | excerpt n child offset ih =>
    have knownc := closed.parts _ known child (by simp [parts])
    rw [outline]
    refine (codeRange_answers lawful knownc).bind fun _ range => ?_
    refine (bytes_answers knownc).bind fun _ bytes => ?_
    refine (ih knownc).bind fun _ inner => ?_
    refine (characterLength_answers lawful known).bind fun count counted => .pure ?_
    have counted : count = (excerpt n child offset).pieces.length :=
      counted.trans (Encoding.scan_characters _ _)
    rw [range, bytes, inner, counted]
    rfl
  | repeated n child times ih =>
    rw [outline]
    refine (ih (closed.parts _ known child (by simp [parts]))).bind fun _ inner => .pure ?_
    rw [inner]
    rfl

/-- What is written of a node stands in what is written of the whole. -/
theorem sketch_within {m : Rope} (within : Within m r) :
    ∃ front back, r.sketch.write = front ++ m.sketch.write ++ back := by
  induction within with
  | self => exact ⟨"", "", by simp⟩
  | @part p whole part _ ih =>
    obtain ⟨front, back, written⟩ := ih
    cases whole with
    | leaf => simp [parts] at part
    | joined n left right =>
      simp only [parts, List.mem_cons, List.not_mem_nil, or_false] at part
      rcases part with rfl | rfl
      · refine ⟨"(" ++ front, back ++ " + " ++ right.sketch.write ++ ")", ?_⟩
        simp [sketch, Sketch.write, written, String.append_assoc]
      · refine ⟨"(" ++ left.sketch.write ++ " + " ++ front, back ++ ")", ?_⟩
        simp [sketch, Sketch.write, written, String.append_assoc]
    | excerpt n child offset =>
      obtain rfl := List.mem_singleton.1 part
      refine ⟨front, back ++ "[" ++ toString (p.indexAt offset) ++ ", " ++
        toString (excerpt n p offset).pieces.length ++ "]", ?_⟩
      simp [sketch, Sketch.write, written, String.append_assoc]
    | repeated n child times =>
      obtain rfl := List.mem_singleton.1 part
      refine ⟨"(" ++ front, back ++ "*" ++ toString times ++ ")", ?_⟩
      simp [sketch, Sketch.write, written, String.append_assoc]

/-- The stretch begins where a character begins and ends where one ends. -/
def Uncut (r : Rope) (offset length : Nat) : Prop :=
  ∃ i count, i + count ≤ r.pieces.length ∧ r.boundary i = offset ∧
    r.boundary (i + count) = offset + length

/-- In front of the place where a character begins there are as many characters as its index says. -/
theorem indexAt_boundary (sound : r.Sound) {i : Nat} (inside : i ≤ r.pieces.length) :
    r.indexAt (r.boundary i) = i := by
  have front : (r.encoding.pieces (r.toBytes.take (r.boundary i))).length = i := by
    rw [boundary, pieces, Encoding.pieces_take, List.length_take]
    exact Nat.min_eq_left inside
  rw [indexAt, Encoding.countCharacters_eq, Encoding.stretch, List.drop_zero, Nat.sub_zero]
  split
  next direct =>
    exact (sound.boundary_direct (direct.imp_left Eq.symm)).2 i inside
  next =>
    split
    next leads =>
      obtain ⟨valid, utf8⟩ := leads
      have whole : r.encoding.Encoded r.toBytes :=
        Reading.isSound_scan_iff.1 (by rw [valid]; rfl)
      have part : r.encoding.Encoded (r.toBytes.take (r.boundary i)) := by
        simpa [boundary, pieces] using whole.between 0 i
      rw [utf8] at part front
      rw [Utf8.countP_encoded part, Encoding.scan_characters, front]
    next => rw [Encoding.scan_characters, front]

/-- What is printed of an uncut excerpt is where its characters are. -/
theorem Uncut.printed (sound : child.Sound) (label : n.encoding = child.encoding)
    (uncut : child.Uncut offset n.byteLength) :
    child.indexAt offset + (excerpt n child offset).pieces.length ≤ child.pieces.length ∧
      child.boundary (child.indexAt offset) = offset ∧
      child.boundary (child.indexAt offset + (excerpt n child offset).pieces.length) =
        offset + n.byteLength := by
  obtain ⟨i, count, inside, rfl, stop⟩ := uncut
  have cut : (excerpt n child (child.boundary i)).pieces.length = count := by
    have size : n.byteLength = child.boundary (i + count) - child.boundary i := by omega
    rw [pieces, toBytes_excerpt, size]
    change (n.encoding.pieces _).length = count
    rw [label]
    exact pieces_characters inside
  rw [indexAt_boundary sound (by omega), cut]
  exact ⟨inside, rfl, stop⟩

/-- A window of valid UTF-8 that is valid itself cuts no character. -/
theorem uncut_of_encoded (label : r.encoding = .utf8) (whole : r.encoding.Encoded r.toBytes)
    (part : r.encoding.Encoded (slice r.toBytes offset length)) (some : 0 < length)
    (inside : offset + length ≤ r.toBytes.length) : r.Uncut offset length := by
  obtain ⟨b, found⟩ : ∃ b, r.toBytes[offset]? = .some b :=
    ⟨_, List.getElem?_eq_getElem (by omega)⟩
  have first : Utf8.isContinuation b = false := by
    refine Utf8.first_of_encoded (label ▸ part) ?_
    rw [getElem?_slice, if_pos some]
    exact found
  obtain ⟨i, within, start⟩ := Utf8.exists_boundary (label ▸ whole) found first
  rw [← label] at within start
  obtain ⟨count, stop⟩ := Encoding.exists_boundary_behind within start part inside
  exact ⟨i, count, stop.1, start, stop.2⟩

/-- The window that is printed of an excerpt, and what it selects. -/
structure PrintedWindow (l : Ledger) (n : Node) (child : Rope) (offset first length : Nat) :
    Prop where
  written : ((excerpt n child offset).outline.run l).1 =
    s!"{(child.outline.run l).1}[{first}, {length}]"
  counted : ((excerpt n child offset).characterLength.run l).1 = length
  bytes : ((excerpt n child offset).bytes.run l).1 = (excerpt n child offset).toBytes
  /-- The characters printed are those at the place of the excerpt unless it cuts one in two. -/
  place : (offsetAt l child first = .ok offset ∧
    offsetAt l child (first + length) = .ok (offset + n.byteLength)) ↔
      child.Uncut offset n.byteLength
  /-- Read back, the window selects the bytes of an excerpt that cuts none. -/
  selects : child.Uncut offset n.byteLength →
    (child.substringChars first length).outcome l =
      .ok (n.encoding, (excerpt n child offset).toBytes)
  /-- In valid UTF-8 it selects those of no other. -/
  valid : child.encoding = .utf8 → child.encoding.Encoded child.toBytes →
    (child.substringChars first length).outcome l =
      .ok (n.encoding, (excerpt n child offset).toBytes) →
    child.Uncut offset n.byteLength

theorem printedWindow_of_fits (fits : l.Fits .exact nodes) (known : excerpt n child offset ∈ nodes)
    (some : 0 < n.byteLength) :
    PrintedWindow l n child offset (child.indexAt offset) (excerpt n child offset).pieces.length := by
  have knownc : child ∈ nodes := fits.parts _ known child (by simp [parts])
  obtain ⟨sound, label, inside⟩ := fits.sound _ known
  have came := Build.outcome_of_comes
    (substringChars_comes knownc (child.indexAt offset) (excerpt n child offset).pieces.length) fits
  constructor
  case written =>
    rw [(outline_sketch known l fits).2, (outline_sketch knownc l fits).2]
    rfl
  case counted => exact characterLength_of_fits fits known
  case bytes => exact (bytes_answers known l fits).2
  case place =>
    rw [offsetAt_of_fits fits knownc, offsetAt_of_fits fits knownc, expectedOffset_eq_ok_iff,
      expectedOffset_eq_ok_iff]
    constructor
    · rintro ⟨⟨-, start⟩, within, stop⟩
      exact ⟨_, _, within, start.symm, stop.symm⟩
    · intro uncut
      obtain ⟨within, start, stop⟩ := uncut.printed sound label
      exact ⟨⟨by omega, start.symm⟩, within, stop.symm⟩
  case selects =>
    intro uncut
    obtain ⟨within, start, stop⟩ := uncut.printed sound label
    rw [came, expectedCharacters_of_le sound within, start, stop, Nat.add_sub_cancel_left, label]
    rfl
  case valid =>
    intro utf8 whole selected
    rw [came, expectedCharacters] at selected
    have same : slice child.toBytes offset n.byteLength =
        slice child.toBytes (child.boundary (child.indexAt offset))
          (child.boundary (child.indexAt offset + (excerpt n child offset).pieces.length) -
            child.boundary (child.indexAt offset)) := by
      split at selected
      · cases selected
      split at selected
      · cases selected
      split at selected
      · cases selected
      · exact (congrArg Prod.snd (Except.ok.inj selected)).symm
    refine uncut_of_encoded utf8 whole ?_ some (sound.length_toBytes ▸ inside)
    rw [same]
    exact whole.between _ _

end Rope

namespace Collection

open Rope (Action Within PrintedWindow)

/-- In the outlines that honest clients see, the window of every excerpt selects the excerpt by its
characters exactly where it cuts none of them in two. -/
theorem outlined {actions : List Action} (honest : ∀ a ∈ actions, a.Honest) {r : Rope}
    (held : r ∈ (start.run actions).ropes) {n : Node} {child : Rope} {offset : Nat}
    (within : Within (.excerpt n child offset) r) :
    (∃ front back, (r.outline.run (start.run actions).ledger).1 =
      front ++ ((Rope.excerpt n child offset).outline.run (start.run actions).ledger).1 ++ back) ∧
    PrintedWindow (start.run actions).ledger n child offset (child.indexAt offset)
      (Rope.excerpt n child offset).pieces.length := by
  have trusted : ∀ a ∈ actions, a.Trusted .exact := fun a called => (honest a called).trusted
  obtain ⟨nodes, fits, among⟩ :=
    run_fits Reading.exact_lawful (start_fits Reading.exact_lawful) trusted
  have known := fits.toClosed.within (among held) within
  have trim := run_trim (start_fits Reading.any_lawful) (fun _ none => nomatch none) actions r held
  constructor
  · rw [(Rope.outline_sketch (among held) _ fits).2, (Rope.outline_sketch known _ fits).2]
    exact Rope.sketch_within within
  · exact Rope.printedWindow_of_fits fits known (trim _ within).warranted.positive

/-- A window of a character of two bytes between two letters. -/
def accented (offset length : Nat) : List Action :=
  [.ofBytes .utf8 ⟨[0x61, 0xC3, 0xA9, 0x62], by decide⟩ .unknown, .substring 0 offset length]

/-- A window with all of the character is selected by what is printed of it, one with half of it is
not. -/
theorem outlined_accented :
    (∃ n child, (start.run (accented 1 3)).ropes[1]? = some (.excerpt n child 1) ∧
      PrintedWindow (start.run (accented 1 3)).ledger n child 1 1 2 ∧
      (child.substringChars 1 2).outcome (start.run (accented 1 3)).ledger =
        .ok (.utf8, [0xC3, 0xA9, 0x62])) ∧
    ∃ n child, (start.run (accented 0 2)).ropes[1]? = some (.excerpt n child 0) ∧
      PrintedWindow (start.run (accented 0 2)).ledger n child 0 0 2 ∧
      (child.substringChars 0 2).outcome (start.run (accented 0 2)).ledger ≠
        .ok (.utf8, [0x61, 0xC3]) := by
  have honest (offset length : Nat) : ∀ a ∈ accented offset length, a.Honest := by
    simp [accented, Action.Honest]
  constructor
  · refine ⟨_, _, rfl, ?_⟩
    have printed := (outlined (honest 1 3) (List.mem_of_getElem? (i := 1) rfl) .self).2
    exact ⟨printed, printed.selects ⟨1, 2, by decide, rfl, rfl⟩⟩
  · refine ⟨_, _, rfl, ?_⟩
    have printed := (outlined (honest 0 2) (List.mem_of_getElem? (i := 1) rfl) .self).2
    refine ⟨printed, fun selected => ?_⟩
    have whole : Encoding.utf8.Encoded [0x61, 0xC3, 0xA9, 0x62] :=
      Encoding.encoded_iff.2 (by decide)
    obtain ⟨i, count, within, -, stop⟩ := printed.valid rfl whole selected
    have apart : ∀ j ≤ 3, Encoding.covered (Encoding.utf8.pieces [0x61, 0xC3, 0xA9, 0x62]) j ≠ 2 := by
      decide
    exact apart _ within stop

end Collection

end RopeBridge
