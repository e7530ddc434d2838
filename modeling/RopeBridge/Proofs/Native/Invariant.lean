import RopeBridge.Proofs.OwnedString.Holdings
import RopeBridge.Proofs.OwnedString.Storage
import RopeBridge.Proofs.Rope.Client
import RopeBridge.Proofs.Rope.Thrift

/-! What holds of every text in native memory, whatever has been done to it, to other texts and to
the ropes beside them. A client may claim what it likes of its ropes, as long as what is known of a
rope is right when it is copied. What a text is copied back into is right all the same. It depends
on the nodes of the start at most, and everything is known of those and stays known. -/

namespace RopeBridge

open Ledger (Kept)
open Rope (Use)

namespace Ledger

/-- Everything is known of bytes that are scanned beforehand. -/
theorem scanned_known (e : Encoding) {bytes : List UInt8} (few : bytes.length < lengthLimit - 1) :
    (scanned e bytes).codeRange.isKnown = true ∧
      (scanned e bytes).characterLength = some bytes.length := by
  refine ⟨e.scan_codeRange_isKnown bytes, ?_⟩
  simp only [scanned, Metadata.ofNew, Metadata.ofKnown, ite_self, Option.bind_some]
  exact Metadata.remembered_of_lt few

theorem initial_known {r : Rope} (member : r ∈ Rope.canonical) :
    (initial.entry r.id).codeRange.isKnown = true ∧
      (initial.entry r.id).characterLength = some r.toBytes.length := by
  rcases Rope.mem_canonical member with ⟨e, rfl⟩ | ⟨e, b, rfl⟩
  · have number : (Rope.empty e).id = (Rope.emptyNode e).id := rfl
    rw [number, initial_entry_empty]
    exact scanned_known e (show 0 < lengthLimit - 1 by decide)
  · have number : (Rope.singleByte e b).id = (Rope.byteNode e b).id := rfl
    rw [number, initial_entry_singleByte]
    exact scanned_known e (show 1 < lengthLimit - 1 by decide)

/-- The nodes of the start are right for good, whatever is claimed of others. -/
theorem canonical_fits {R : Reading} {nodes : List Rope} {l : Ledger} (fits : l.Fits R nodes)
    (grown : ∀ id, (initial.entry id).Grows (l.entry id)) : l.Fits .exact Rope.canonical where
  toClosed := (initial_fits Reading.exact_lawful).toClosed
  inside r member := fits.inside r (fits.canonical member)
  entry r member := by
    have first := (initial_fits Reading.exact_lawful).entry r member
    have now := fits.entry r (fits.canonical member)
    obtain ⟨range, length⟩ := initial_known member
    refine ⟨⟨fun _ => ?_, fun n found => ?_⟩, now.bytes, now.hash⟩
    · rw [(grown r.id).codeRange range]
      exact first.codeRange range
    · rw [(grown r.id).characterLength _ length] at found
      cases found
      exact first.characterLength _ length

end Ledger

/-- What is known of a rope is what a scan of its bytes finds. -/
structure Rope.Described (l : Ledger) (r : Rope) : Prop where
  codeRange : (r.knownCodeRange.run l).1.isKnown = true →
    (r.knownCodeRange.run l).1 = (r.encoding.scan (r.bytes.run l).1).codeRange
  characterLength : ∀ n, (r.knownCharacterLength.run l).1 = some n →
    n = (r.encoding.scan (r.bytes.run l).1).characters

namespace NativeText

variable {t t' : NativeText} {f f' : Finalization} {n : Nat} {call : Call}

/-- The length that a call asks for. -/
def Call.length? : Call → Option Nat
  | resize n | setByteLength n _ _ => some n
  | _ => none

/-- What a call claims of the text that it leaves is what a scan finds. -/
def Call.Right (t : NativeText) (f : Finalization) : Call → Prop
  | setByteLength n characters range => ∀ t' f',
      t.setByteLength n characters range f = .ok (t', f') →
      (range.isKnown = true → range = (t'.encoding.scan t'.bytes).codeRange) ∧
      ∀ k, characters = some k → k = (t'.encoding.scan t'.bytes).characters
  | _ => True

/-- A text that is right, with nothing written outside its buffer. -/
structure Whole (t : NativeText) : Prop extends Fits t where
  confined : ∀ i, t.capacity < i → t.buffer.byte i = 0

theorem zeros_whole {byteLength capacity : Nat} {e : Encoding}
    (made : zeros f byteLength capacity e = .ok (t, f')) : t.Whole :=
  ⟨zeros_fits made, fun i _ => (zeros_ok made).2.2 i⟩

theorem Copies.whole {r : Rope} (h : t.Copies .exact r) : t.Whole where
  toFits := h.fits
  confined i outside := by
    rw [h.full] at outside
    exact h.behind i (Nat.le_of_lt outside)

theorem Call.setByte_of_run {index : Nat} {byte : UInt8}
    (done : (setByte index byte).run t f = .ok (t', f')) : t.setByte index byte = .ok t' := by
  cases written : t.setByte index byte with
  | error fault =>
    simp only [run, written] at done
    cases done
  | ok text =>
    simp only [run, written] at done
    cases done
    rfl

/-- A call that asks for no length stays inside the buffer. -/
theorem Call.run_inPlace (short : call.length? = none) (done : call.run t f = .ok (t', f')) :
    t'.capacity = t.capacity ∧ ∀ i, t.capacity < i → t'.buffer.byte i = t.buffer.byte i := by
  cases call with
  | setByte index byte =>
    obtain ⟨reached, rfl⟩ := setByte_ok (setByte_of_run done)
    refine ⟨by simp [capacity], fun i outside => ?_⟩
    rw [Buffer.byte_set, if_neg (by omega)]
  | clear =>
    cases done
    exact ⟨rfl, fun _ _ => rfl⟩
  | codeRange =>
    cases done
    simp [capacity]
  | characterLength =>
    cases done
    simp [capacity]
  | resize n => cases short
  | setByteLength n characters range => cases short

theorem Call.run_cut (h : t.Contained) (asks : call.length? = some n)
    (done : call.run t f = .ok (t', f')) : Cut t t' n := by
  cases call with
  | resize n' =>
    cases asks
    exact (resize_cut h done).1
  | setByteLength n' characters range =>
    cases asks
    exact (setByteLength_cut h done).1
  | _ => cases asks

theorem Cut.confined (cut : Cut t t' n) (h : t.Whole) :
    ∀ i, t'.capacity < i → t'.buffer.byte i = 0 := by
  intro i outside
  have room := h.room
  have size := cut.capacity
  rw [cut.byte i (by omega)]
  split
  · exact h.confined i (by omega)
  · rfl

/-- A text that outgrows its buffer takes its bytes along, and nothing else. -/
theorem Cut.memory (cut : Cut t t' n) (h : t.Contained) (more : t.capacity < n) :
    t'.capacity = n ∧
      t'.buffer.memory = t.bytes ++ List.replicate (n + 1 - t.byteLength) 0 := by
  have room := h.room
  have size : t'.capacity = n := by
    rw [cut.capacity]
    exact Nat.max_eq_right (Nat.le_of_lt more)
  refine ⟨size, List.ext_getElem? fun i => ?_⟩
  have new : t'.buffer.capacity = n := size
  rw [Buffer.memory, new, Buffer.getElem?_front, List.getElem?_append, length_bytes, getElem?_bytes,
    List.getElem?_replicate]
  by_cases front : i < t.byteLength
  · rw [if_pos (by omega), if_pos front, if_pos front, cut.byte i (by omega), if_pos (.inr front)]
  · rw [if_neg front]
    by_cases inside : i < n + 1
    · rw [if_pos inside, if_pos (by omega)]
      by_cases last : i = n
      · rw [last, cut.terminated]
      · rw [cut.byte i last, if_neg (by omega)]
    · rw [if_neg inside, if_neg (by omega)]

theorem Call.run_fits (h : t.Fits) (right : call.Right t f) (done : call.run t f = .ok (t', f')) :
    t'.Fits := by
  cases call with
  | setByte index byte =>
    exact setByte_fits h (setByte_of_run done)
  | clear =>
    cases done
    exact clear_fits h
  | codeRange =>
    cases done
    exact (codeRange_fits h).2.1
  | characterLength =>
    cases done
    exact (characterLength_fits h).2.1
  | resize n => exact resize_fits h done
  | setByteLength n characters range =>
    obtain ⟨cut, metadata⟩ := setByteLength_cut h.contained done
    obtain ⟨known, length⟩ := right t' f' done
    refine cut.toResized.fits ?_
    rw [metadata]
    exact .ofKnown known length

theorem Call.run_whole (h : t.Whole) (right : call.Right t f)
    (done : call.run t f = .ok (t', f')) : t'.Whole := by
  refine ⟨Call.run_fits h.toFits right done, ?_⟩
  cases asks : call.length? with
  | none =>
    obtain ⟨size, same⟩ := Call.run_inPlace asks done
    intro i outside
    rw [size] at outside
    rw [same i outside, h.confined i outside]
  | some n => exact (Call.run_cut h.contained asks done).confined h

section

variable {nodes : List Rope} {r : Rope} {l : Ledger}

/-- What is known of a copy is what is known of the rope once its bytes have been read. -/
theorem ofRope_metadata (made : ((ofRope f r).run l).1 = .ok (t, f')) :
    t.metadata = .ofKnown ((r.bytes.run l).2.entry r.id).codeRange
      ((r.bytes.run l).2.entry r.id).characterLength := by
  obtain ⟨bytes, copied⟩ : ∃ bytes, ((ofRope f r).run l).1 =
      (Buffer.allocate f bytes.length).bind fun made => .ok (⟨made.1.overwrite 0 bytes,
        bytes.length, r.encoding, .ofKnown ((r.bytes.run l).2.entry r.id).codeRange
          ((r.bytes.run l).2.entry r.id).characterLength⟩, made.2) := ⟨_, rfl⟩
  rw [made] at copied
  cases allocated : Buffer.allocate f bytes.length with
  | error fault =>
    rw [allocated] at copied
    cases copied
  | ok result =>
    rw [allocated] at copied
    cases copied
    rfl

/-- A copy is right if what is known of the rope is, and nothing else matters. -/
theorem ofRope_whole (known : r ∈ nodes) (fits : l.Fits .bounded nodes) (described : r.Described l)
    (made : ((ofRope f r).run l).1 = .ok (t, f')) : t.Whole := by
  have copy := (ofRope_copies known l fits).2 t f' made
  obtain ⟨_, same⟩ := Rope.bytes_answers known l fits
  obtain ⟨range, length⟩ := described
  rw [same] at range length
  -- Reading the bytes fills the entries of nodes below, but finds out nothing about characters.
  have reads := (Rope.bytes_reads known l fits).metadata r.id
  have metadata : t.metadata.Fits .exact r.encoding r.toBytes := by
    rw [ofRope_metadata made, reads]
    exact .ofKnown range length
  have right : t.Copies .exact r := { copy with metadata }
  exact right.whole

theorem ofRope_keeps (known : r ∈ nodes) : (ofRope f r).Keeps nodes :=
  (Rope.bytes_keeps known).bind fun _ => (Rope.knownCodeRange_keeps known).bind fun _ =>
    (Rope.knownCharacterLength_keeps known).bind fun _ => .pure _

theorem toRope_keeps (t : NativeText) : t.toRope.Along .bounded nodes (Kept nodes) := by
  intro l fits
  have leaf := Rope.ofBytes_keeps t.encoding t.bytes t.metadata.codeRange l fits
  unfold toRope
  cases t.metadata.characterLength with
  | none => exact leaf
  | some n => exact leaf.trans (.update (Entry.grows_publishCharacterLength _ n))

/-- What a scan finds is as well what any reading of bounds allows. -/
theorem Fits.bounded (h : t.Fits) : t.metadata.Fits .bounded t.encoding t.bytes where
  codeRange := id
  characterLength n found := by
    rw [h.metadata.characterLength n found]
    exact t.encoding.scan_characters_le t.bytes

end

/-- The rope that the text is copied into answers as the text does. -/
def CopiesBack (l : Ledger) (t : NativeText) : Prop :=
  ∃ r l', t.toRope.run l = (r, l') ∧ r.encoding = t.encoding ∧ (r.bytes.run l').1 = t.bytes ∧
    (r.codeRange.run l').1 = t.codeRange.1 ∧ (r.characterLength.run l').1 = t.characterLength.1

/-- What holds of a text beside the ledger of the ropes, and what every call to it does. -/
structure Sound (l : Ledger) (t : NativeText) : Prop where
  room : t.byteLength ≤ t.capacity
  memory : t.buffer.memory.length = t.capacity + 1
  content : t.bytes = t.buffer.memory.take t.byteLength
  confined : ∀ i, t.capacity < i → t.buffer.byte i = 0
  codeRange : t.metadata.codeRange.isKnown = true →
    t.metadata.codeRange = (t.encoding.scan t.bytes).codeRange
  characterLength : ∀ n, t.metadata.characterLength = some n →
    n = (t.encoding.scan t.bytes).characters
  reads : ∀ i, t.readRaw i = byteAt? t.buffer.memory i
  writes : ∀ i byte, i ≤ t.capacity → ∃ t', t.setByte i byte = .ok t' ∧
    t'.byteLength = t.byteLength ∧ t'.encoding = t.encoding ∧ t'.capacity = t.capacity ∧
    t'.buffer.memory = t.buffer.memory.set i byte
  refuses : ∀ i byte, t.capacity < i →
    t.setByte i byte = .error (.outOfBounds i (t.capacity + 1))
  stays : ∀ (call : Call) f t' f', (∀ n, call.length? = some n → n ≤ t.capacity) →
    call.run t f = .ok (t', f') → t'.capacity = t.capacity
  outgrows : ∀ (call : Call) n f t' f', call.length? = some n → t.capacity < n →
    call.run t f = .ok (t', f') → t'.capacity = n ∧
      t'.buffer.memory = t.bytes ++ List.replicate (n + 1 - t.byteLength) 0
  copiesBack : t.CopiesBack l

theorem Whole.copiesBack (h : t.Whole) {l : Ledger} (fits : l.Fits .exact Rope.canonical) :
    t.CopiesBack l := by
  -- The nodes of the start and the new one are closed among themselves, so the others, and what
  -- may be wrongly known of them, need not be looked at.
  obtain ⟨more, _, fits', denotes⟩ :=
    toRope_makes Reading.exact_lawful h.contained h.metadata l fits
  generalize made : t.toRope.run l = result at fits' denotes
  obtain ⟨r, l'⟩ := result
  have truthful := Rope.truthful_of_fits fits' denotes.known
  have bytes := (Rope.bytes_answers denotes.known _ fits').2
  rw [denotes.toBytes] at bytes
  refine ⟨r, l', made, denotes.encoding, bytes, ?_, ?_⟩
  · rw [truthful.codeRange, bytes, denotes.encoding, (codeRange_fits h.toFits).1]
  · rw [truthful.characterLength, bytes, denotes.encoding, (characterLength_fits h.toFits).1]

theorem Contained.bytes_eq_take (h : t.Contained) :
    t.bytes = t.buffer.memory.take t.byteLength := by
  apply List.ext_getElem?
  intro i
  have room : t.byteLength ≤ t.buffer.capacity := h.room
  rw [List.getElem?_take, getElem?_bytes, Buffer.memory, Buffer.getElem?_front]
  by_cases inside : i < t.byteLength
  · rw [if_pos inside, if_pos inside, if_pos (by omega)]
  · rw [if_neg inside, if_neg inside]

theorem readRaw_eq (t : NativeText) (i : Nat) : t.readRaw i = byteAt? t.buffer.memory i := by
  rw [byteAt?, t.buffer.length_memory, Buffer.memory, Buffer.getElem?_front]
  by_cases reached : i ≤ t.buffer.capacity
  · rw [readRaw_inside reached, if_pos (Nat.lt_succ_of_le reached)]
  · rw [if_neg (by omega)]
    simp [readRaw, Buffer.byte?, capacity, reached]

theorem Whole.sound (h : t.Whole) {l : Ledger} (fits : l.Fits .exact Rope.canonical) :
    t.Sound l where
  room := h.room
  memory := t.buffer.length_memory
  content := h.contained.bytes_eq_take
  confined := h.confined
  codeRange := h.metadata.codeRange
  characterLength := h.metadata.characterLength
  reads := t.readRaw_eq
  writes i byte reached := by
    cases written : t.setByte i byte with
    | error fault => simp [setByte, reached] at written
    | ok t' =>
      obtain ⟨_, rfl⟩ := setByte_ok written
      refine ⟨_, rfl, rfl, rfl, by simp [capacity], ?_⟩
      rw [Buffer.memory, Buffer.set_capacity]
      exact t.buffer.front_set _ reached byte
  refuses i byte outside := by simp [setByte, Nat.not_le.2 outside]
  stays call f t' f' within done := by
    cases asks : call.length? with
    | none => exact (Call.run_inPlace asks done).1
    | some n =>
      rw [(Call.run_cut h.contained asks done).capacity]
      exact Nat.max_eq_left (within n asks)
  outgrows call n f t' f' asks more done :=
    (Call.run_cut h.contained asks done).memory h.contained more
  copiesBack := h.copiesBack fits

end NativeText

/-- Texts in native memory beside the ropes of a client. -/
structure Workbench where
  texts : List NativeText
  ropes : Collection

namespace Workbench

open NativeText (Call)

/-- Where any history leads. Texts begin as zeros, or as copies of ropes of which nothing wrong is
known. Every call finds the finalizers as others have left them, and one that fails changes
nothing. -/
inductive Reached : Workbench → Prop where
  | start : Reached ⟨[], .start⟩
  | use {s : Workbench} (before : Reached s) (u : Use) : Reached { s with ropes := s.ropes.use u }
  | zeros {s : Workbench} (before : Reached s) {f f' : Finalization} {byteLength capacity : Nat}
      {e : Encoding} {t : NativeText}
      (made : NativeText.zeros f byteLength capacity e = .ok (t, f')) :
      Reached { s with texts := t :: s.texts }
  | ofRope {s : Workbench} (before : Reached s) {r : Rope} (held : r ∈ s.ropes.ropes)
      (described : r.Described s.ropes.ledger) {f f' : Finalization} {t : NativeText} {l : Ledger}
      (made : (NativeText.ofRope f r).run s.ropes.ledger = (.ok (t, f'), l)) :
      Reached ⟨t :: s.texts, { s.ropes with ledger := l }⟩
  | call {s : Workbench} (before : Reached s) {i : Nat} {t : NativeText}
      (present : s.texts[i]? = some t) {f : Finalization} (call : Call) (right : call.Right t f)
      {t' : NativeText} {f' : Finalization} (done : call.run t f = .ok (t', f')) :
      Reached { s with texts := s.texts.set i t' }
  | toRope {s : Workbench} (before : Reached s) {t : NativeText} (present : t ∈ s.texts) {r : Rope}
      {l : Ledger} (made : t.toRope.run s.ropes.ledger = (r, l)) :
      Reached { s with ropes := ⟨l, s.ropes.ropes ++ [r]⟩ }

structure Whole (s : Workbench) : Prop where
  thrifty : s.ropes.Thrifty
  grown : ∀ id, (Ledger.initial.entry id).Grows (s.ropes.ledger.entry id)
  texts : ∀ t ∈ s.texts, t.Whole

variable {s : Workbench}

/-- What is left of a ledger that keeps what is known. -/
theorem Whole.later (h : s.Whole) {nodes more : List Rope} {c : Collection}
    {texts : List NativeText} (tidy : s.ropes.ledger.Tidy nodes) (kept : Kept nodes s.ropes.ledger c.ledger)
    (grows : nodes ⊆ more) (fits : c.ledger.Fits .bounded more) (among : c.ropes ⊆ more)
    (whole : ∀ t ∈ texts, t.Whole) : Whole ⟨texts, c⟩ where
  thrifty := ⟨more, tidy.later kept grows fits, among⟩
  grown id := (h.grown id).trans (kept.grows id)
  texts := whole

theorem start_whole : Whole ⟨[], .start⟩ where
  thrifty := ⟨_, Ledger.initial_tidy, List.nil_subset _⟩
  grown _ := .refl _
  texts _ none := nomatch none

theorem Whole.use (h : s.Whole) (u : Use) : Whole { s with ropes := s.ropes.use u } where
  thrifty := (Collection.use_thrifty h.thrifty u).1
  grown id := (h.grown id).trans ((Collection.use_thrifty h.thrifty u).2 id)
  texts := h.texts

theorem Whole.add (h : s.Whole) {t : NativeText} (whole : t.Whole) :
    ∀ t' ∈ t :: s.texts, t'.Whole := List.forall_mem_cons.2 ⟨whole, h.texts⟩

theorem Whole.ofRope (h : s.Whole) {r : Rope} (held : r ∈ s.ropes.ropes)
    (described : r.Described s.ropes.ledger) {f f' : Finalization} {t : NativeText} {l : Ledger}
    (made : (NativeText.ofRope f r).run s.ropes.ledger = (.ok (t, f'), l)) :
    Whole ⟨t :: s.texts, { s.ropes with ledger := l }⟩ := by
  obtain ⟨nodes, tidy, among⟩ := h.thrifty
  have known := among held
  have whole := NativeText.ofRope_whole known tidy.toFits described (congrArg Prod.fst made)
  have fits := (NativeText.ofRope_copies (f := f) known _ tidy.toFits).1
  have kept := (NativeText.ofRope_keeps (f := f) known).along _ tidy.toFits
  rw [made] at fits kept
  exact h.later tidy kept (List.Subset.refl _) fits among (h.add whole)

theorem Whole.toRope (h : s.Whole) {t : NativeText} (present : t ∈ s.texts) {r : Rope} {l : Ledger}
    (made : t.toRope.run s.ropes.ledger = (r, l)) :
    Whole { s with ropes := ⟨l, s.ropes.ropes ++ [r]⟩ } := by
  obtain ⟨nodes, tidy, among⟩ := h.thrifty
  have whole := h.texts t present
  obtain ⟨more, grows, fits, denotes⟩ := NativeText.toRope_makes Reading.bounded_lawful
    whole.contained whole.toFits.bounded _ tidy.toFits
  have kept := NativeText.toRope_keeps t _ tidy.toFits
  rw [made] at fits denotes kept
  refine h.later tidy kept grows fits
    (List.append_subset.2 ⟨List.Subset.trans among grows, ?_⟩) h.texts
  exact List.cons_subset.2 ⟨denotes.known, List.nil_subset _⟩

theorem Reached.whole (reached : Reached s) : s.Whole := by
  induction reached with
  | start => exact start_whole
  | use _ u ih => exact ih.use u
  | zeros _ made ih => exact ⟨ih.thrifty, ih.grown, ih.add (NativeText.zeros_whole made)⟩
  | ofRope _ held described made ih => exact ih.ofRope held described made
  | call _ present call right done ih =>
    refine ⟨ih.thrifty, ih.grown, fun t member => ?_⟩
    obtain old | rfl := List.mem_or_eq_of_mem_set member
    · exact ih.texts t old
    · exact Call.run_whole (ih.texts _ (List.mem_of_getElem? present)) right done
  | toRope _ present made ih => exact ih.toRope present made

/-- Every text is sound, after any history. -/
theorem texts_sound (reached : Reached s) {t : NativeText} (present : t ∈ s.texts) :
    t.Sound s.ropes.ledger := by
  have whole := reached.whole
  obtain ⟨nodes, tidy, _⟩ := whole.thrifty
  exact (whole.texts t present).sound (Ledger.canonical_fits tidy.toFits whole.grown)

/-- A copy of a rope beside zeros that have been given a greater length and are known to be plain
ASCII. -/
theorem texts_sound_grown :
    ∃ s t u, Reached s ∧ s.texts = [t, u] ∧
      t.bytes = [0, 0] ∧ t.capacity = 2 ∧ t.metadata = ⟨.sevenBit, some 2⟩ ∧
      t.Sound s.ropes.ledger ∧ u.bytes = [0x61] ∧ u.Sound s.ropes.ledger := by
  let letter : Rope.Action := .ofBytes .utf8 ⟨[0x61], by decide⟩ .sevenBit
  have plain : .sevenBit = (Encoding.utf8.scan [0x61]).codeRange := by decide
  obtain ⟨nodes, right, among⟩ := Collection.step_fits Reading.exact_lawful
    (Collection.start_fits Reading.exact_lawful) (a := letter) fun _ => plain
  have held := List.mem_of_getElem? (l := (Collection.start.step letter).ropes) (i := 0) rfl
  have truthful := Rope.truthful_of_fits right (among held)
  have copied := (Reached.start.use (.call letter)).ofRope held
    ⟨truthful.knownCodeRange, truthful.knownCharacterLength⟩ (f := {}) rfl
  have made : NativeText.zeros {} 1 1 .utf8 = .ok (_, _) := rfl
  have grown := (copied.zeros made).call (i := 0) (f := {}) rfl
    (.setByteLength 2 (some 2) .sevenBit) (by rintro _ _ ⟨⟩; decide) rfl
  have first := texts_sound grown List.mem_cons_self
  have second := texts_sound grown (List.mem_cons_of_mem _ List.mem_cons_self)
  exact ⟨_, _, _, grown, rfl, by decide, rfl, rfl, first, by decide, second⟩

end Workbench

end RopeBridge
