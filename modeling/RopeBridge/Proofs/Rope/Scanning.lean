import RopeBridge.Proofs.Rope.Passes

/-! What it takes to find out about characters. A scan for the code range tells the length as well,
and a count of characters is made only where the range is known. So a node that has been scanned
once has nothing left to scan for, whichever of the two was asked first and whatever a client has
claimed about its bytes. -/
namespace RopeBridge

/-- However wrong the range that is claimed, there are no more characters than bytes. -/
theorem Encoding.countCharacters_le (e : Encoding) (x : CodeRange) (bytes : List UInt8) :
    e.countCharacters x bytes 0 bytes.length ≤ bytes.length := by
  unfold Encoding.countCharacters
  split
  next => simp
  next =>
    simp only [List.take_length, List.drop_zero]
    split
    next => exact List.countP_le_length
    next => exact e.scan_characters_le bytes

namespace Reading

/-- Any range is right that says something, and any length that the bytes allow. -/
def bounded : Reading where
  range _ _ x := x.isKnown = true
  length _ bytes n := n ≤ bytes.length

theorem bounded_lawful : Lawful bounded where
  range_scan e bytes := e.scan_codeRange_isKnown bytes
  range_relabel _ _ _ _ _ := id
  range_window _ _ _ _ := id
  range_append _ _ _ x y soundx soundy _ _ := by
    apply CodeRange.isKnown_of_isSound
    simp [CodeRange.isSound_common, soundx, soundy]
  length_scan e bytes := e.scan_characters_le bytes
  length_relabel _ _ _ _ _ _ _ _ := id
  length_plain _ _ _ := Nat.le_refl _
  length_count e bytes x _ := e.countCharacters_le x bytes
  length_append _ a b _ _ m n _ _ _ _ few few' _ := by
    have few : m ≤ a.length := few
    have few' : n ≤ b.length := few'
    have wrapped : Metadata.wrapLength (m + n) ≤ m + n := Nat.mod_le ..
    show Metadata.wrapLength (m + n) ≤ (a ++ b).length
    simp only [List.length_append]
    omega

end Reading

/-- What a client claims about bytes is right by this reading, if it says anything. -/
theorem Rope.Action.trusted_bounded (a : Action) : a.Trusted .bounded := by
  cases a with
  | ofBytes e bytes hint => exact fun known => known
  | _ => trivial

open Rope (Within Below Closed)

/-- One scan has been made at most, and if one has been made, nothing is left to scan for. -/
def Metadata.Settled (scans : Nat) (m : Metadata) : Prop :=
  scans = 0 ∨ scans = 1 ∧ m.codeRange.isKnown = true ∧ m.characterLength.isSome = true

namespace Metadata

variable {k : Nat} {m : Metadata}

theorem Settled.unscanned_of_range (h : m.Settled k) (unknown : ¬m.codeRange.isKnown = true) :
    k = 0 := h.resolve_right fun done => unknown done.2.1

theorem Settled.unscanned_of_length (h : m.Settled k)
    (unknown : ∀ n, m.characterLength = some n → False) : k = 0 := by
  refine h.resolve_right fun done => ?_
  obtain ⟨n, found⟩ := Option.isSome_iff_exists.1 done.2.2
  exact unknown n found

end Metadata

namespace Ledger

variable {l l' l'' : Ledger}

theorem scans_noted (l : Ledger) {w : Work} (scan : w ≠ .flatten) (id : NodeId) :
    (l.noted w id).scans id = l.scans id + 1 := by
  cases w with
  | flatten => exact absurd rfl scan
  | codeRangeScan => simp [scans, Nat.add_right_comm]
  | characterCount => simp [scans, Nat.add_assoc]

/-- A node has been scanned at most once. The greatest length cannot be remembered. -/
def ScannedOnce (l : Ledger) (n : Rope) : Prop :=
  n.byteLength < lengthLimit - 1 → (l.entry n.id).Settled (l.scans n.id)

theorem ScannedOnce.grow {n : Rope} (once : l.ScannedOnce n)
    (grows : (l.entry n.id).Grows (l'.entry n.id)) (same : l'.scans n.id = l.scans n.id) :
    l'.ScannedOnce n := by
  intro small
  rw [same]
  refine (once small).imp_right fun ⟨one, ranged, measured⟩ => ⟨one, ?_, ?_⟩
  · rwa [grows.codeRange ranged]
  · obtain ⟨k, measured⟩ := Option.isSome_iff_exists.1 measured
    simp [grows.characterLength k measured]

theorem SameAt.scannedOnce {n : Rope} (h : SameAt n.id l l') (once : l.ScannedOnce n) :
    l'.ScannedOnce n := by
  refine once.grow ?_ h.scans
  simpa [h.entry] using Entry.Grows.refl _

/-- Work after which nodes that were scanned once at most are so still. -/
structure Later (nodes : List Rope) (T : Rope → Prop) (l l' : Ledger) : Prop
    extends Works nodes T l l' where
  scanned : ∀ n ∈ nodes, l.ScannedOnce n → l'.ScannedOnce n

/-- Work on a rope that leads from `P` to `Q`, which are about the scans of the rope itself and what
is known of it. -/
structure Turns (nodes : List Rope) (r : Rope) (P Q : Nat → Metadata → Prop) (l l' : Ledger) : Prop
    extends Works nodes (Within · r) l l' where
  others : ∀ n ∈ nodes, n ≠ r → l.ScannedOnce n → l'.ScannedOnce n
  own : r.byteLength < lengthLimit - 1 → P (l.scans r.id) (l.entry r.id).toMetadata →
    Q (l'.scans r.id) (l'.entry r.id).toMetadata

variable {nodes : List Rope} {T : Rope → Prop} {r : Rope} {P Q S : Nat → Metadata → Prop}

theorem Later.mono (h : Later nodes T l l') {T' : Rope → Prop} (wider : ∀ n, T n → T' n) :
    Later nodes T' l l' := ⟨h.toWorks.mono wider, h.scanned⟩

theorem Reads.later (h : Reads nodes T l l') : Later nodes T l l' where
  toWorks := h.toWorks
  scanned n _ once := by simpa [ScannedOnce, h.metadata, h.scans] using once

namespace Turns

theorem refl (enough : P (l.scans r.id) (l.entry r.id).toMetadata →
    Q (l.scans r.id) (l.entry r.id).toMetadata) : Turns nodes r P Q l l :=
  ⟨.refl l, fun _ _ _ => id, fun _ => enough⟩

theorem trans (h : Turns nodes r P Q l l') (h' : Turns nodes r Q S l' l'') :
    Turns nodes r P S l l'' where
  toWorks := h.toWorks.trans h'.toWorks
  others n known other once := h'.others n known other (h.others n known other once)
  own small before := h'.own small (h.own small before)

theorem mono (h : Turns nodes r P Q l l') {P' Q' : Nat → Metadata → Prop}
    (enough : P' (l.scans r.id) (l.entry r.id).toMetadata →
      P (l.scans r.id) (l.entry r.id).toMetadata)
    (weaker : ∀ k m, Q k m → Q' k m) : Turns nodes r P' Q' l l' :=
  ⟨h.toWorks, h.others, fun small before => weaker _ _ (h.own small (enough before))⟩

theorem later (h : Turns nodes r Metadata.Settled Metadata.Settled l l')
    (closed : Closed nodes) (known : r ∈ nodes) : Later nodes (Within · r) l l' where
  toWorks := h.toWorks
  scanned n member once := by
    by_cases number : n.id = r.id
    · obtain rfl := closed.unique n member r known number
      exact fun small => h.own small (once small)
    · exact h.others n member (fun same => number (congrArg Rope.id same)) once

/-- Work on a rope that is no more than work on its parts. -/
theorem ofParts (closed : Closed nodes) (known : r ∈ nodes) (h : Later nodes (Below · r) l l')
    (P : Nat → Metadata → Prop) : Turns nodes r P P l l' where
  toWorks := h.toWorks.mono fun _ below => below.within
  others n member _ once := h.scanned n member once
  own _ before := by
    have same := h.sameAt_of_below closed known
    rwa [same.scans, same.entry]

theorem ofReads (h : Reads nodes (Within · r) l l') (P : Nat → Metadata → Prop) :
    Turns nodes r P P l l' where
  toWorks := h.toWorks
  others n member _ once := h.later.scanned n member once
  own _ before := by rwa [h.scans, h.metadata]

theorem noted (closed : Closed nodes) (known : r ∈ nodes) {w : Work} (scan : w ≠ .flatten)
    (own : ∀ k m, P k m → Q (k + 1) m) : Turns nodes r P Q l (l.noted w r.id) where
  toWorks := by
    refine .own closed known .self (fun id => SameAt.noted w) (.refl _) ?_
    simp [FlattenedOnce, scan]
  others n member other once := by
    refine SameAt.scannedOnce (SameAt.noted w fun number => other ?_) once
    exact closed.unique n member r known number
  own _ before := by
    rw [l.scans_noted scan]
    exact own _ _ before

/-- Something becomes known of a node. -/
theorem update (closed : Closed nodes) (known : r ∈ nodes) (inside : r.id < l.entries.size)
    {f : Entry → Entry} (grows : ∀ e : Entry, e.Grows (f e))
    (own : r.byteLength < lengthLimit - 1 →
      ∀ (k : Nat) (e : Entry), P k e.toMetadata → Q k (f e).toMetadata) :
    Turns nodes r P Q l (l.update r.id f) where
  toWorks := by
    have grown : (l.entry r.id).Grows ((l.update r.id f).entry r.id) := by
      rw [l.entry_update_self f inside]
      exact grows _
    exact .own closed known .self (fun id => SameAt.update f) grown fun once => once.grow grown rfl
  others n member other once := by
    refine SameAt.scannedOnce (SameAt.update f fun number => other ?_) once
    exact closed.unique n member r known number
  own small before := by
    rw [l.entry_update_self f inside]
    exact own small _ _ before

end Turns

end Ledger

namespace Rope

open Query (Along Does)
open Ledger (Later Reads Turns)
open Metadata (Settled)

variable {R : Reading} {nodes : List Rope} {r : Rope} {α : Type} {P Q : Nat → Metadata → Prop}

/-- A question put to a part of a rope. -/
theorem part_turns (known : r ∈ nodes) {p : Rope} (part : p ∈ r.parts) {q : Query α}
    (later : q.Along R nodes (Later nodes (Within · p))) (P : Nat → Metadata → Prop) :
    q.Along R nodes (Turns nodes r P P) := by
  intro l fits
  refine .ofParts fits.toClosed known ((later l fits).mono fun m within => ?_) P
  exact ⟨p, part, within⟩

theorem turns_later (known : r ∈ nodes) {q : Query α}
    (turns : q.Along R nodes (Turns nodes r Settled Settled)) :
    q.Along R nodes (Later nodes (Within · r)) :=
  fun l fits => (turns l fits).later fits.toClosed known

theorem bytes_turns (known : r ∈ nodes) (P : Nat → Metadata → Prop) :
    r.bytes.Along R nodes (Turns nodes r P P) :=
  (bytes_reads known).mono (Turns.ofReads · P)

theorem note_turns (known : r ∈ nodes) {w : Work} (scan : w ≠ .flatten)
    (own : ∀ k m, P k m → Q (k + 1) m) :
    (Query.note w r.id).Along R nodes (Turns nodes r P Q) :=
  fun _ fits => .noted fits.toClosed known scan own

theorem publishCodeRange_turns (known : r ∈ nodes) (x : CodeRange)
    (own : ∀ k m, P k m → Q k (m.publishCodeRange x)) :
    (Query.publishCodeRange r.id x).Along R nodes (Turns nodes r P Q) :=
  fun _ fits => .update fits.toClosed known (fits.inside r known)
    (fun e => e.grows_publishCodeRange x) fun _ k e => own k e.toMetadata

theorem publishCharacterLength_turns (known : r ∈ nodes) (n : Nat)
    (own : r.byteLength < lengthLimit - 1 → ∀ k m, P k m → Q k (m.publishCharacterLength n)) :
    (Query.publishCharacterLength r.id n).Along R nodes (Turns nodes r P Q) :=
  fun _ fits => .update fits.toClosed known (fits.inside r known)
    (fun e => e.grows_publishCharacterLength n) fun small k e => own small k e.toMetadata

/-- A length that is right can be remembered. -/
theorem isSome_publishCharacterLength {n : Nat} (few : n ≤ r.byteLength)
    (small : r.byteLength < lengthLimit - 1) (m : Metadata) :
    (m.publishCharacterLength n).characterLength.isSome = true := by
  unfold Metadata.publishCharacterLength
  split
  next found => exact found
  next => simp [Metadata.remembered_of_lt (Nat.lt_of_le_of_lt few small)]

theorem isKnown_publishCodeRange {x : CodeRange} (known : x.isKnown = true) (m : Metadata) :
    (m.publishCodeRange x).codeRange.isKnown = true := by
  unfold Metadata.publishCodeRange
  split
  next found => exact found
  next => exact known

abbrev Unscanned (k : Nat) (_ : Metadata) : Prop := k = 0

/-- No scan has been made, or one that has found the length. -/
def Measured (k : Nat) (m : Metadata) : Prop := k = 0 ∨ k = 1 ∧ m.characterLength.isSome = true

/-- No scan has been made, or one where the code range was known. -/
def Ranged (k : Nat) (m : Metadata) : Prop := k = 0 ∨ k = 1 ∧ m.codeRange.isKnown = true

/-- A scan has nothing left to find, and the code range is known. -/
abbrev Classified (k : Nat) (m : Metadata) : Prop := Settled k m ∧ m.codeRange.isKnown = true

/-- No scan has been made and the code range is known. -/
abbrev Uncounted (k : Nat) (m : Metadata) : Prop := k = 0 ∧ m.codeRange.isKnown = true

theorem scanned_turns (known : r ∈ nodes) :
    r.scanned.Along .bounded nodes (Turns nodes r Unscanned Measured) := by
  refine .closed fun closed => ?_
  have few : (r.encoding.scan r.toBytes).characters ≤ r.byteLength := by
    rw [← (closed.sound r known).length_toBytes]
    exact r.encoding.scan_characters_le r.toBytes
  have counted := Reading.bounded_lawful.length_scan r.encoding r.toBytes
  have first : Along .bounded nodes (Turns nodes r Unscanned fun k _ => k = 1)
      (Query.note .codeRangeScan r.id) := note_turns known nofun (by simp)
  unfold scanned
  refine .bind (Query.answers_note _ _) first (fun _ _ => ?_) Turns.trans
  refine .bind (bytes_answers known) (bytes_turns known _) (fun bytes same => ?_) Turns.trans
  subst same
  have last : Along .bounded nodes (Turns nodes r (fun k _ => k = 1) Measured)
      (Query.publishCharacterLength r.id (r.encoding.scan r.toBytes).characters) :=
    publishCharacterLength_turns known _ fun small _ m one =>
      .inr ⟨one, isSome_publishCharacterLength few small m⟩
  exact .bind (Query.answers_publishCharacterLength known counted) last
    (fun _ _ => .pure (fun _ => .refl fun made => made) _) Turns.trans

theorem adopt_turns (known : r ∈ nodes) (found : Option CodeRange) :
    (r.adopt found).Along .bounded nodes (Turns nodes r Unscanned Measured) := by
  unfold adopt
  split
  · exact .pure (fun _ => .refl .inl) _
  · exact .pure (fun _ => .refl .inl) _
  · exact scanned_turns known

theorem knownCodeRange_along {rel : Ledger → Ledger → Prop} {f : CodeRange → Query α}
    (rest : ∀ l, l.Fits R nodes → rel l ((f (l.entry r.id).codeRange).run l).2) :
    Along R nodes rel (r.knownCodeRange >>= f) := rest

theorem knownCharacterLength_run (r : Rope) (f : Option Nat → Query α) (l : Ledger) :
    (r.knownCharacterLength >>= f).run l = (f (l.entry r.id).characterLength).run l := rfl

theorem knownCharacterLength_along {rel : Ledger → Ledger → Prop} {f : Option Nat → Query α}
    (rest : ∀ l, l.Fits R nodes → rel l ((f (l.entry r.id).characterLength).run l).2) :
    Along R nodes rel (r.knownCharacterLength >>= f) := rest

theorem rememberCodeRange_turns (known : r ∈ nodes) {compute : Query CodeRange}
    (does : Does .bounded nodes (Turns nodes r Unscanned Measured) compute (·.isKnown = true)) :
    (r.rememberCodeRange compute).Along .bounded nodes (Turns nodes r Settled Classified) := by
  have computed : Along .bounded nodes (Turns nodes r Unscanned Classified)
      (do Query.publishCodeRange r.id (← compute)) := by
    refine .bind does.answers does.along (fun x right => ?_) Turns.trans
    refine publishCodeRange_turns known x fun k m measured => ?_
    have ranged := isKnown_publishCodeRange right m
    refine ⟨measured.imp_right fun ⟨one, found⟩ => ⟨one, ranged, ?_⟩, ranged⟩
    simpa using found
  unfold rememberCodeRange
  refine knownCodeRange_along fun l fits => ?_
  split
  next found => exact .refl fun settled => ⟨settled, found⟩
  next unknown =>
    exact (computed l fits).mono (·.unscanned_of_range unknown) fun _ _ done => done

theorem inheritedRange_along {rel : Ledger → Ledger → Prop} (refl : ∀ l, rel l l) (e : Encoding)
    {part : Rope} {range : Query CodeRange} (asked : range.Along R nodes rel) :
    (inheritedRange e part range).Along R nodes rel := by
  unfold inheritedRange
  split
  next => exact asked
  next =>
    split
    next => exact asked
    next => exact .pure refl _

/-- A node that has been asked for its code range has one, and has been scanned once at most. -/
theorem codeRange_turns (known : r ∈ nodes) :
    r.codeRange.Along .bounded nodes (Turns nodes r Settled Classified) := by
  refine .closed fun closed => ?_
  have lawful := Reading.bounded_lawful
  induction r using byParts with
  | step r ih =>
    -- what the parts are asked is no scan of the whole
    have asked : ∀ p ∈ r.parts, Does .bounded nodes (Turns nodes r Unscanned Unscanned)
        p.codeRange (·.isKnown = true) := by
      intro p part
      have knownp := closed.parts r known p part
      refine ⟨codeRange_answers lawful knownp, part_turns known part (turns_later knownp ?_) _⟩
      exact (ih p part knownp).mono (·.mono (fun settled => settled) fun _ _ => And.left)
    have inherited (e : Encoding) : ∀ p ∈ r.parts, Does .bounded nodes
        (Turns nodes r Unscanned Unscanned) (inheritedRange e p p.codeRange) fun _ => True := by
      intro p part
      refine ⟨?_, inheritedRange_along (fun _ => .refl fun none => none) e (asked p part).along⟩
      exact (inheritedRange_answers lawful e (asked p part).answers).mono fun _ _ => trivial
    have adopted (found : Option CodeRange) : Does .bounded nodes (Turns nodes r Unscanned Measured)
        (r.adopt found) (·.isKnown = true) := by
      refine ⟨adopt_answers lawful known found ?_, adopt_turns known found⟩
      exact fun x _ sound => CodeRange.isKnown_of_isSound sound
    cases r with
    | leaf n bytes =>
      rw [codeRange]
      exact rememberCodeRange_turns known (adopted none)
    | joined n left right =>
      rw [codeRange]
      refine rememberCodeRange_turns known ?_
      refine .bind (inherited _ left (by simp [parts])) (fun a _ => ?_) Turns.trans
      refine .bind (inherited _ right (by simp [parts])) (fun b _ => ?_) Turns.trans
      exact adopted _
    | excerpt n child offset =>
      rw [codeRange]
      refine rememberCodeRange_turns known ?_
      exact .bind (asked child (by simp [parts])) (fun x _ => adopted _) Turns.trans
    | repeated n child times =>
      rw [codeRange]
      refine rememberCodeRange_turns known ?_
      exact .bind (inherited _ child (by simp [parts])) (fun x _ => adopted x) Turns.trans

theorem codeRange_later (known : r ∈ nodes) :
    r.codeRange.Along .bounded nodes (Later nodes (Within · r)) := by
  refine turns_later known ((codeRange_turns known).mono (·.mono (fun settled => settled) ?_))
  exact fun _ _ done => done.1

theorem rememberCharacterLength_turns (known : r ∈ nodes) {compute : Query Nat}
    (does : Does .bounded nodes (Turns nodes r Unscanned Ranged) compute (· ≤ r.byteLength)) :
    (r.rememberCharacterLength compute).Along .bounded nodes (Turns nodes r Settled Settled) := by
  have computed (f : Nat → Query Nat)
      (rest : ∀ n, n ≤ r.byteLength → (f n).Along .bounded nodes (Turns nodes r Ranged Settled)) :
      Along .bounded nodes (Turns nodes r Unscanned Settled) (compute >>= f) :=
    .bind does.answers does.along rest Turns.trans
  unfold rememberCharacterLength
  refine knownCharacterLength_along fun l fits => ?_
  split
  next => exact .refl fun settled => settled
  next unknown =>
    refine (computed _ (fun n few => ?_) l fits).mono (·.unscanned_of_length unknown)
      fun _ _ done => done
    refine knownCharacterLength_along fun l fits => ?_
    split
    next found =>
      exact .refl fun ranged => ranged.imp_right fun ⟨one, x⟩ => ⟨one, x, by simp [found]⟩
    next =>
      refine publishCharacterLength_turns known n (fun small k m ranged => ?_) l fits
      have measured := isSome_publishCharacterLength few small m
      exact ranged.imp_right fun ⟨one, x⟩ => ⟨one, by simpa using x, measured⟩

theorem counted_does (known : r ∈ nodes) {range : CodeRange} (right : range.isKnown = true) :
    Does .bounded nodes (Turns nodes r Uncounted Ranged) (r.counted range) (· ≤ r.byteLength) where
  answers := by
    refine .closed fun closed => ?_
    refine (counted_answers Reading.bounded_lawful known right).mono fun n few => ?_
    rwa [← (closed.sound r known).length_toBytes]
  along := by
    have first : Along .bounded nodes (Turns nodes r Uncounted Ranged)
        (Query.note .characterCount r.id) :=
      note_turns known nofun fun k m due => .inr ⟨by simp [due.1], due.2⟩
    unfold counted
    refine .bind (Query.answers_note _ _) first (fun _ _ => ?_) Turns.trans
    exact bytes_turns known Ranged

/-- What is done to count the characters where a scan for the code range has not told them. -/
theorem unlessKnown_does (known : r ∈ nodes) {count : Query Nat}
    (does : Does .bounded nodes (Turns nodes r Uncounted Ranged) count (· ≤ r.byteLength)) :
    Does .bounded nodes (Turns nodes r Classified Ranged)
      (do
        match ← r.knownCharacterLength with
        | some n => pure n
        | _ => count) (· ≤ r.byteLength) where
  answers := by
    refine .closed fun closed => ?_
    refine (knownCharacterLength_answers known).bind fun found right => ?_
    split
    next n =>
      rw [← (closed.sound r known).length_toBytes]
      exact .pure (right n rfl)
    next => exact does.answers
  along := by
    refine knownCharacterLength_along fun l fits => ?_
    split
    next => exact .refl fun ⟨settled, x⟩ => settled.imp_right fun one => ⟨one.1, x⟩
    next unknown =>
      refine (does.along l fits).mono (fun ⟨settled, x⟩ => ?_) fun _ _ ranged => ranged
      exact ⟨settled.unscanned_of_length unknown, x⟩

theorem reusable_does (e : Encoding) {part : Rope} {rel : Ledger → Ledger → Prop}
    (refl : ∀ l, rel l l) (trans : ∀ {l l' l''}, rel l l' → rel l' l'' → rel l l'')
    (known : part ∈ nodes) (asked : part.codeRange.Along .bounded nodes rel) :
    Does .bounded nodes rel (reusable e part) fun _ => True where
  answers := (reusable_answers Reading.bounded_lawful e known).mono fun _ _ => trivial
  along := by
    have answers := codeRange_answers Reading.bounded_lawful known
    unfold reusable
    refine .bind (inheritedRange_answers Reading.bounded_lawful e answers)
      (inheritedRange_along refl e asked) (fun found _ => ?_) trans
    split <;> exact .pure refl _

/-- A node does not count more characters than it has bytes, and is scanned once at most, if that is
so of its parts. -/
theorem characterLength_turns_of_parts (known : r ∈ nodes)
    (counts : ∀ p ∈ r.parts, Does .bounded nodes (Later nodes (Within · p)) p.characterLength
      (· ≤ p.byteLength)) :
    r.characterLength.Along .bounded nodes (Turns nodes r Settled Settled) := by
  refine .closed fun closed => ?_
  have sound := closed.sound r known
  have enough (n : Nat) (few : n ≤ r.byteLength) : Does .bounded nodes
      (Turns nodes r Uncounted Ranged) (pure n) (· ≤ r.byteLength) :=
    .pure (fun _ => .refl fun due => .inl due.1) few
  -- what the parts are asked is no scan of the whole
  have counted : ∀ p ∈ r.parts, Does .bounded nodes (Turns nodes r Uncounted Uncounted)
      p.characterLength (· ≤ p.byteLength) := fun p part =>
    ⟨(counts p part).answers, part_turns known part (counts p part).along _⟩
  have reused (e : Encoding) : ∀ p ∈ r.parts, Does .bounded nodes
      (Turns nodes r Uncounted Uncounted) (reusable e p) fun _ => True := fun p part =>
    have knownp := closed.parts r known p part
    reusable_does e (fun _ => .refl fun due => due) Turns.trans knownp
      (part_turns known part (codeRange_later knownp) _)
  rw [characterLength]
  refine rememberCharacterLength_turns known ?_
  split
  next => exact .pure (fun _ => .refl .inl) (Nat.le_refl _)
  next several =>
    have ranged : Does .bounded nodes (Turns nodes r Unscanned Classified) r.codeRange
        (·.isKnown = true) :=
      ⟨codeRange_answers Reading.bounded_lawful known,
        (codeRange_turns known).mono (·.mono .inl fun _ _ done => done)⟩
    refine .bind ranged (fun range right => ?_) Turns.trans
    have scan := counted_does known right
    refine unlessKnown_does known ?_
    split
    next => exact enough _ (Nat.le_refl _)
    next =>
      split
      next n left back =>
        have total : n.byteLength = left.byteLength + back.byteLength := sound.2.2.1
        refine .bind (reused _ left (by simp [parts])) (fun whole _ => ?_) Turns.trans
        dsimp only
        split
        next =>
          refine .bind (reused _ back (by simp [parts])) (fun whole _ => ?_) Turns.trans
          split
          next =>
            refine .bind (counted left (by simp [parts])) (fun a fewa => ?_) Turns.trans
            refine .bind (counted back (by simp [parts])) (fun b fewb => ?_) Turns.trans
            have wrapped : Metadata.wrapLength (a + b) ≤ a + b := Nat.mod_le ..
            refine enough _ (Nat.le_trans wrapped ?_)
            show a + b ≤ n.byteLength
            omega
          next => exact scan
        next => exact scan
      next n child times =>
        have total : n.byteLength = child.byteLength * times := sound.2.2.2.2.1
        refine .bind (reused _ child (by simp [parts])) (fun whole _ => ?_) Turns.trans
        split
        next =>
          refine .bind (counted child (by simp [parts])) (fun a few => ?_) Turns.trans
          have wrapped : Metadata.wrapLength (a * times) ≤ a * times := Nat.mod_le ..
          refine enough _ (Nat.le_trans wrapped ?_)
          show a * times ≤ n.byteLength
          rw [total]
          exact Nat.mul_le_mul_right times few
        next => exact scan
      next => exact scan
    next => exact scan

theorem characterLength_later (known : r ∈ nodes) :
    r.characterLength.Along .bounded nodes (Later nodes (Within · r)) := by
  refine .closed fun closed => turns_later known ?_
  induction r using byParts with
  | step r ih =>
    refine characterLength_turns_of_parts known fun p part => ?_
    have knownp := closed.parts r known p part
    refine ⟨?_, turns_later knownp (ih p part knownp)⟩
    rw [← (closed.sound p knownp).length_toBytes]
    exact characterLength_answers Reading.bounded_lawful knownp

end Rope

end RopeBridge
