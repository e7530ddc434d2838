import RopeBridge.Proofs.Encoding.Boundary
import RopeBridge.Proofs.Rope.Guarded

/-! Offsets of characters over arithmetic that stops. Going from one piece to the next stays inside
the bytes. Whether characters are bytes is found out once for a rope, and what is found out stays,
so a later character does not begin before an earlier one and the distance between them is never
negative, whatever has been claimed of the bytes. -/
namespace RopeBridge

namespace Encoding

variable {e : Encoding} {bytes : List UInt8}

/-- The piece after the first one is found behind it. -/
theorem offsetOf?_succ (nonempty : bytes ≠ []) (index : Nat) : e.offsetOf? bytes (index + 1) =
    (e.offsetOf? (bytes.drop (e.piece bytes).width) index).map ((e.piece bytes).width + ·) := by
  rw [offsetOf?_eq, offsetOf?_eq, pieces_of_ne_nil e nonempty, List.length_cons]
  by_cases inside : index ≤ (e.pieces (bytes.drop (e.piece bytes).width)).length
  · rw [if_pos inside, if_pos (Nat.succ_le_succ inside)]
    rfl
  · rw [if_neg inside, if_neg fun less => inside (Nat.le_of_succ_le_succ less)]
    rfl

theorem offsetOf?_mono {i j first last : Nat} (order : i ≤ j)
    (foundi : e.offsetOf? bytes i = some first) (foundj : e.offsetOf? bytes j = some last) :
    first ≤ last := by
  rw [offsetOf?_eq] at foundi foundj
  split at foundi
  next =>
    split at foundj
    next =>
      cases foundi
      cases foundj
      obtain ⟨k, rfl⟩ := Nat.exists_eq_add_of_le order
      rw [covered_add]
      exact Nat.le_add_right _ _
    next => cases foundj
  next => cases foundi

end Encoding

namespace Guarded

/-- The bytes that the first piece covers, where `rest` are left. -/
def width (e : Encoding) (bytes : List UInt8) (rest : Nat) : Nat :=
  match e.measure bytes with
  | .found n => n
  | _ => min e.minLength rest

/-- Where the piece that is `due` pieces after the one at `position` begins, in `size` bytes. -/
def offset (e : Encoding) (bytes : List UInt8) (size : Nat) : (due position : Nat) →
    Option (Option Nat)
  | 0, position => some (some position)
  | due + 1, position =>
    if size ≤ position then some none
    else do
      let rest ← difference size position
      let next ← sum position (width e (bytes.drop position) rest)
      offset e bytes size due next

variable {e : Encoding} {bytes : List UInt8} {position : Nat}

theorem width_eq (e : Encoding) (bytes : List UInt8) :
    width e bytes bytes.length = (e.piece bytes).width := by
  unfold width Encoding.piece
  cases e.measure bytes with
  | found n => rfl
  | invalid => exact (lengthUpTo_eq_min ..).symm
  | needMore n => exact (lengthUpTo_eq_min ..).symm

theorem offset_fits (small : bytes.length < lengthLimit) (inside : position ≤ bytes.length)
    (due : Nat) : offset e bytes bytes.length due position =
      some ((e.offsetOf? (bytes.drop position) due).map (position + ·)) := by
  induction due generalizing position with
  | zero => simp [offset, Encoding.offsetOf?_eq]
  | succ due ih =>
    rw [offset]
    split
    next after =>
      have empty : bytes.drop position = [] := List.drop_eq_nil_iff.2 after
      simp [empty, Encoding.offsetOf?_eq]
    next before =>
      have nonempty : bytes.drop position ≠ [] := mt List.drop_eq_nil_iff.1 before
      have narrow := e.piece_width_le (bytes.drop position)
      rw [difference_fits inside, Option.bind_eq_bind, Option.bind_some, ← List.length_drop,
        width_eq]
      rw [List.length_drop] at narrow
      rw [sum_fits (by omega), Option.bind_some, ih (by omega),
        Encoding.offsetOf?_succ nonempty, List.drop_drop, Option.map_map]
      congr 2
      funext further
      exact Nat.add_assoc ..

end Guarded

namespace Rope

open Guarded (difference)

def guardedIsAsciiOnly (r : Rope) : Guarded Bool := return (← r.guardedCodeRange) = .sevenBit

/-- The place of a character, once it is known whether characters are bytes. -/
def guardedLocate (r : Rope) (index : Nat) (direct : Bool) : GuardedBuild Nat := do
  if direct then
    if r.byteLength < index then throw (.outOfBounds index r.byteLength)
    return index
  let bytes ← r.guardedBytes
  match ← Guarded.offset r.encoding bytes r.byteLength index 0 with
  | some offset => return offset
  | none => throw (.outOfBounds index (← r.guardedCharacterLength))

def guardedCharOffset (r : Rope) (index : Nat) : GuardedBuild Nat :=
  if r.encoding.singleByte then r.guardedLocate index true
  else do r.guardedLocate index (← r.guardedIsAsciiOnly)

def guardedSubstringChars (r : Rope) (offset length : Nat) : GuardedBuild Rope := do
  let stop := offset + length
  if lengthLimit ≤ stop then throw .lengthOverflow
  let first ← r.guardedCharOffset offset
  let last ← r.guardedCharOffset stop
  let count ← difference last first
  r.guardedSubstring first count

end Rope

variable {nodes : List Rope} {α β : Type}

/-- A question in front of a making has been answered. -/
theorem Build.run_ask (q : Query α) (f : α → Build β) (l : Ledger) :
    ((liftM q : Build α) >>= f).run.run l = (f (q.run l).1).run.run (q.run l).2 := rfl

namespace Rope

open Query (Does)
open Guarded (Agrees difference_fits)

variable {r : Rope} {l l' : Ledger} {index : Nat}

/-- What is known of the code range of a rope stays as it is. -/
abbrev SameRange (r : Rope) (l l' : Ledger) : Prop :=
  (l'.entry r.id).codeRange = (l.entry r.id).codeRange

theorem SameRange.refl (l : Ledger) : SameRange r l l := rfl

theorem SameRange.trans {l l' l'' : Ledger} (h : SameRange r l l') (h' : SameRange r l' l'') :
    SameRange r l l'' := Eq.trans h' h

theorem bytes_sameRange (known : r ∈ nodes) : r.bytes.Along .bounded nodes (SameRange r) :=
  (bytes_reads known).mono fun reads => congrArg (·.codeRange) (reads.metadata r.id)

theorem scanned_sameRange (known : r ∈ nodes) : r.scanned.Along .bounded nodes (SameRange r) := by
  have count := Reading.bounded_lawful.length_scan r.encoding r.toBytes
  have counted : (Query.publishCharacterLength r.id (r.encoding.scan r.toBytes).characters).Along
      .bounded nodes (SameRange r) := by
    intro l fits
    show ((l.update r.id _).entry r.id).codeRange = _
    rw [l.entry_update_self _ (fits.inside r known)]
    exact Metadata.publishCharacterLength_codeRange _ _
  have noted : (Query.note .codeRangeScan r.id).Along .bounded nodes (SameRange r) :=
    fun _ _ => rfl
  unfold scanned
  refine .bind (Query.answers_note _ _) noted (fun _ _ => ?_) SameRange.trans
  refine .bind (bytes_answers known) (bytes_sameRange known) (fun bytes same => ?_) SameRange.trans
  subst same
  exact .bind (Query.answers_publishCharacterLength known count) counted
    (fun _ _ => .pure SameRange.refl _) SameRange.trans

theorem part_sameRange (known : r ∈ nodes) {p : Rope} (part : p ∈ r.parts) :
    Does .bounded nodes (SameRange r) p.codeRange (·.isKnown = true) where
  answers := by
    refine .closed fun closed => ?_
    exact codeRange_answers Reading.bounded_lawful (closed.parts r known p part)
  along := by
    intro l fits
    have later := codeRange_later (fits.toClosed.parts r known p part) l fits
    have below := later.toWorks.mono fun m within => (⟨p, part, within⟩ : Below m r)
    exact congrArg (·.codeRange) (below.sameAt_of_below fits.toClosed known).entry

theorem inherited_sameRange (known : r ∈ nodes) (e : Encoding) {p : Rope} (part : p ∈ r.parts) :
    Does .bounded nodes (SameRange r) (inheritedRange e p p.codeRange) fun _ => True := by
  have asked := part_sameRange known part
  refine ⟨?_, inheritedRange_along SameRange.refl e asked.along⟩
  have answers : (inheritedRange e p p.codeRange).Answers .bounded nodes _ :=
    inheritedRange_answers Reading.bounded_lawful e asked.answers
  exact answers.mono fun _ _ => trivial

theorem adopt_sameRange (known : r ∈ nodes) (found : Option CodeRange) :
    Does .bounded nodes (SameRange r) (r.adopt found) (·.isKnown = true) where
  answers := (guardedAdopt_agrees known found).1
  along := by
    unfold adopt
    split
    · exact .pure SameRange.refl _
    · exact .pure SameRange.refl _
    · exact scanned_sameRange known

theorem rememberCodeRange_run (r : Rope) (compute : Query CodeRange) (l : Ledger) :
    (r.rememberCodeRange compute).run l = (if (l.entry r.id).codeRange.isKnown then
      pure (l.entry r.id).codeRange
    else do Query.publishCodeRange r.id (← compute)).run l := rfl

/-- A code range is known from when it has been asked for. -/
theorem rememberCodeRange_remembers (known : r ∈ nodes) {compute : Query CodeRange}
    (does : Does .bounded nodes (SameRange r) compute (·.isKnown = true))
    (fits : l.Fits .bounded nodes) : ∃ l', (r.rememberCodeRange compute).run l =
      ((l'.entry r.id).codeRange, l') ∧ (l'.entry r.id).codeRange.isKnown = true := by
  rw [rememberCodeRange_run]
  split
  next told => exact ⟨l, rfl, told⟩
  next untold =>
    obtain ⟨fits', told⟩ := does.answers l fits
    have same := does.along l fits
    rw [StateT.run_bind]
    generalize StateT.run compute l = asked at fits' told same ⊢
    obtain ⟨x, l'⟩ := asked
    have published : ((l'.update r.id fun e =>
        { e with toMetadata := e.toMetadata.publishCodeRange x }).entry r.id).codeRange = x := by
      rw [l'.entry_update_self _ (fits'.inside r known)]
      rw [← same] at untold
      exact congrArg Metadata.codeRange (if_neg untold)
    refine ⟨l'.update r.id fun e => { e with toMetadata := e.toMetadata.publishCodeRange x },
      ?_, ?_⟩
    · rw [published]
      rfl
    · rw [published]
      exact told

theorem codeRange_remembers (known : r ∈ nodes) (fits : l.Fits .bounded nodes) :
    ∃ l', r.codeRange.run l = ((l'.entry r.id).codeRange, l') ∧
      (l'.entry r.id).codeRange.isKnown = true := by
  have adopted := adopt_sameRange known
  cases r with
  | leaf n bytes =>
    rw [codeRange]
    exact rememberCodeRange_remembers known (adopted none) fits
  | joined n left right =>
    rw [codeRange]
    refine rememberCodeRange_remembers known ?_ fits
    refine .bind (inherited_sameRange known _ (by simp [parts])) (fun a _ => ?_) SameRange.trans
    refine .bind (inherited_sameRange known _ (by simp [parts])) (fun b _ => ?_) SameRange.trans
    exact adopted _
  | excerpt n child offset =>
    rw [codeRange]
    refine rememberCodeRange_remembers known ?_ fits
    exact .bind (part_sameRange known (by simp [parts])) (fun x _ => adopted _) SameRange.trans
  | repeated n child times =>
    rw [codeRange]
    refine rememberCodeRange_remembers known ?_ fits
    refine .bind (inherited_sameRange known _ (by simp [parts])) (fun x _ => ?_) SameRange.trans
    exact adopted x

/-- Where a character begins in a rope whose code range is known. -/
def begins (r : Rope) (x : CodeRange) (index : Nat) : Option Nat :=
  if r.encoding.singleByte ∨ x = .sevenBit then some index
  else r.encoding.offsetOf? r.toBytes index

theorem begins_mono {x : CodeRange} {i j first last : Nat} (order : i ≤ j)
    (foundi : r.begins x i = some first) (foundj : r.begins x j = some last) : first ≤ last := by
  unfold begins at foundi foundj
  split at foundi
  next direct =>
    rw [if_pos direct] at foundj
    cases foundi
    cases foundj
    exact order
  next indirect =>
    rw [if_neg indirect] at foundj
    exact Encoding.offsetOf?_mono order foundi foundj

/-- A character is found by the code range that is known from then on, if it matters. -/
structure Located (l : Ledger) (r : Rope) (index found : Nat) (l' : Ledger) : Prop where
  begins : r.begins (l'.entry r.id).codeRange index = some found
  range : r.encoding.singleByte = true ∨ (l'.entry r.id).codeRange.isKnown = true ∧
    ((l.entry r.id).codeRange.isKnown = true → SameRange r l l')

/-- What `guardedLocate` does over numbers without bounds. -/
def locate (r : Rope) (index : Nat) (direct : Bool) : Build Nat := do
  if direct then
    if r.byteLength < index then throw (.outOfBounds index r.byteLength)
    return index
  match r.encoding.offsetOf? (← r.bytes) index with
  | some offset => return offset
  | none => throw (.outOfBounds index (← r.characterLength))

theorem charOffset_eq (r : Rope) (index : Nat) : r.charOffset index =
    if r.encoding.singleByte then r.locate index true
    else (do r.locate index (← r.isAsciiOnly)) := by
  unfold charOffset locate
  split <;> rfl

theorem locate_located (known : r ∈ nodes) (fits : l.Fits .bounded nodes) {direct : Bool}
    {found : Nat} (ran : (r.locate index direct).run.run l = (.ok found, l')) :
    SameRange r l l' ∧
      (if direct then some index else r.encoding.offsetOf? r.toBytes index) = some found := by
  unfold locate at ran
  cases direct with
  | true =>
    rw [if_pos rfl] at ran
    split at ran
    next => cases ran
    next =>
      cases ran
      exact ⟨rfl, rfl⟩
  | false =>
    have same := bytes_sameRange known l fits
    obtain ⟨_, content⟩ := bytes_answers known l fits
    rw [if_neg Bool.false_ne_true] at ran
    rw [Build.run_ask, content] at ran
    split at ran
    next offset place =>
      cases ran
      exact ⟨same, place⟩
    next => cases ran

theorem charOffset_located (known : r ∈ nodes) (fits : l.Fits .bounded nodes) {found : Nat}
    (ran : (r.charOffset index).run.run l = (.ok found, l')) : Located l r index found l' := by
  rw [charOffset_eq] at ran
  split at ran
  next single =>
    obtain ⟨_, place⟩ := locate_located known fits ran
    exact ⟨(if_pos (.inl single)).trans place, .inl single⟩
  next several =>
    obtain ⟨l₁, asked, told⟩ := codeRange_remembers known fits
    obtain ⟨fits₁, _⟩ := codeRange_answers Reading.bounded_lawful known l fits
    have grown := ((codeRange_later known l fits).grows r.id).codeRange
    rw [asked] at fits₁ grown
    have plain : r.isAsciiOnly.run l = (decide ((l₁.entry r.id).codeRange = .sevenBit), l₁) := by
      unfold isAsciiOnly
      rw [StateT.run_bind, asked]
      rfl
    rw [Build.run_ask, plain] at ran
    obtain ⟨same, place⟩ := locate_located known fits₁ ran
    constructor
    case begins =>
      rw [begins, same]
      simpa [several] using place
    case range => exact .inr ⟨same ▸ told, fun before => SameRange.trans (grown before) same⟩

/-- A later character does not begin before an earlier one that has been found. -/
theorem Located.le {l₁ l₂ : Ledger} {i j first last : Nat} (order : i ≤ j)
    (one : Located l r i first l₁) (other : Located l₁ r j last l₂) : first ≤ last := by
  refine begins_mono order ?_ other.begins
  rw [← one.begins]
  rcases other.range with single | ⟨_, same⟩
  · simp [Rope.begins, single]
  · rcases one.range with single | ⟨told, _⟩
    · simp [Rope.begins, single]
    · rw [same told]

theorem guardedLocate_agrees (known : r ∈ nodes) (index : Nat) (direct : Bool) :
    GuardedBuild.Agrees nodes (r.guardedLocate index direct) (r.locate index direct) := by
  refine .closed fun closed => ?_
  have sound := closed.sound r known
  have placed : Guarded.offset r.encoding r.toBytes r.byteLength index 0 =
      some (r.encoding.offsetOf? r.toBytes index) := by
    rw [← sound.length_toBytes]
    rw [Guarded.offset_fits (sound.length_toBytes ▸ sound.byteLength_lt) (Nat.zero_le _)]
    simp
  unfold guardedLocate locate
  cases direct with
  | true =>
    rw [if_pos rfl, if_pos rfl]
    split
    next => exact .fail
    next => exact .pure _
  | false =>
    rw [if_neg Bool.false_ne_true, if_neg Bool.false_ne_true]
    refine .question (guardedBytes_agrees known) fun bytes same => ?_
    subst same
    refine .fits placed ?_
    cases r.encoding.offsetOf? r.toBytes index with
    | some offset => exact .pure _
    | none => exact .question (guardedCharacterLength_agrees known) fun _ _ _ _ => rfl

/-- Going from one character to the next never leaves 64 bits. -/
theorem guardedCharOffset_agrees (known : r ∈ nodes) (index : Nat) :
    GuardedBuild.Agrees nodes (r.guardedCharOffset index) (r.charOffset index) := by
  rw [charOffset_eq]
  unfold guardedCharOffset
  split
  next => exact guardedLocate_agrees known index true
  next =>
    have plain : Agrees nodes r.guardedIsAsciiOnly r.isAsciiOnly fun _ => True :=
      .bind (guardedCodeRange_agrees known) fun _ _ => .pure trivial
    exact .question plain fun direct _ => guardedLocate_agrees known index direct

/-- The distance between two characters is never negative. -/
theorem guardedSubstringChars_agrees (known : r ∈ nodes) (offset length : Nat) :
    GuardedBuild.Agrees nodes (r.guardedSubstringChars offset length)
      (r.substringChars offset length) := by
  unfold guardedSubstringChars substringChars
  dsimp only
  split
  next => exact .fail
  next =>
    intro l fits
    have stays (index : Nat) {l l' : Ledger} {found : Nat} (fits : l.Fits .bounded nodes)
        (ran : (r.charOffset index).run.run l = (.ok found, l')) : l'.Fits .bounded nodes := by
      obtain ⟨_, _, fits', rfl⟩ := charOffset_makes Reading.bounded_lawful known index l fits
      rwa [ran] at fits'
    refine .bind (guardedCharOffset_agrees known offset l fits) fun first l₁ ran => ?_
    have fits₁ := stays offset fits ran
    refine .bind (guardedCharOffset_agrees known _ l₁ fits₁) fun last l₂ ran' => ?_
    have order := (charOffset_located known fits ran).le (Nat.le_add_right offset length)
      (charOffset_located known fits₁ ran')
    have cut : GuardedBuild.Agrees nodes _ (r.substring first (last - first)) :=
      .fits (difference_fits order) (guardedSubstring_agrees known first (last - first))
    exact cut l₂ (stays _ fits₁ ran')

end Rope

end RopeBridge
