import RopeBridge.Proofs.Rope.Metadata

/-! What comes of making a rope. Each operation either fails for the reason the lengths give or adds
nodes of which the result denotes the bytes the operation stands for, under its label. Hints about
code ranges matter only to what a reading says of them. -/
namespace RopeBridge

/-- A node that has been made and denotes some bytes under a label. -/
structure Rope.Denotes (nodes : List Rope) (e : Encoding) (bytes : List UInt8) (r : Rope) :
    Prop where
  known : r ∈ nodes
  encoding : r.encoding = e
  toBytes : r.toBytes = bytes

/-- The making of a rope keeps to what is expected of it: a failure, or a label and bytes. -/
def Rope.Matches (nodes : List Rope) :
    Except Fault (Encoding × List UInt8) → Except Fault Rope → Prop
  | .ok (e, bytes), .ok r => r.Denotes nodes e bytes
  | .error expected, .error fault => fault = expected
  | _, _ => False

/-- What comes of the making of a rope, whatever is known about the nodes it is made from. -/
abbrev Build.Comes (R : Reading) (nodes : List Rope) (b : Build Rope)
    (expected : Except Fault (Encoding × List UInt8)) : Prop :=
  b.Makes R nodes fun more result => Rope.Matches more expected result

namespace Rope

variable {R : Reading} {nodes : List Rope} {r : Rope} {e : Encoding}

theorem denotes_self (known : r ∈ nodes) : r.Denotes nodes r.encoding r.toBytes :=
  ⟨known, rfl, rfl⟩

theorem Closed.denotes_empty (closed : Closed nodes) (e : Encoding) :
    (empty e).Denotes nodes e [] :=
  ⟨closed.canonical (empty_mem_canonical e), rfl, rfl⟩

theorem Closed.denotes_singleByte (closed : Closed nodes) (e : Encoding) (b : UInt8) :
    (singleByte e b).Denotes nodes e [b] :=
  ⟨closed.canonical (singleByte_mem_canonical e b), rfl, rfl⟩

/-- A new node is right if what is known about it is right for the bytes it will denote. -/
theorem newNode_makes (lawful : R.Lawful) (make : Node → Rope) {bytes : List UInt8}
    {byteLength depth : Nat} {x : CodeRange} {chars : Option Nat}
    (own : ∀ n, (make n).node = n)
    (parts : ∀ n, ∀ p ∈ (make n).parts, p ∈ nodes)
    (sound : ∀ id, (make ⟨id, e, byteLength, depth⟩).Sound)
    (denotes : ∀ id, (make ⟨id, e, byteLength, depth⟩).toBytes = bytes)
    (range : x.isKnown = true → R.range e bytes x)
    (length : ∀ k, chars = some k → R.length e bytes k) :
    (Query.newNode e byteLength depth x chars).Makes R nodes
      fun more n => (make n).Denotes more e bytes := by
  intro l fits
  let n : Node := ⟨l.entries.size, e, byteLength, depth⟩
  have label : (make n).encoding = e := by rw [Rope.encoding, own]
  have size : (make n).byteLength = byteLength := by rw [Rope.byteLength, own]
  have content : (make n).toBytes = bytes := denotes _
  have right : ({ Metadata.ofNew e byteLength x chars with } : Entry).Fits R (make n) := by
    rw [← label]
    refine Entry.Fits.ofNew lawful ((sound _).length_toBytes.trans size) ?_ ?_
    · rw [label, content]
      exact range
    · rw [label, content]
      exact length
  refine ⟨make n :: nodes, List.subset_cons_self _ _, ?_, List.mem_cons_self, label, content⟩
  exact fits.add (by rw [Rope.id, own]) (parts n) (sound _) right

/-- What a window of a rope is expected to come to. -/
def expectedWindow (r : Rope) (offset length : Nat) : Except Fault (Encoding × List UInt8) :=
  if lengthLimit ≤ offset + length then .error .lengthOverflow
  else if r.byteLength < offset + length then .error (.outOfBounds (offset + length) r.byteLength)
  else .ok (r.encoding, slice r.toBytes offset length)

/-- A window that lies inside a part is that window of the part. -/
theorem expectedWindow_part {p : Rope} (sound : p.Sound) {offset length : Nat}
    (inside : offset + length ≤ p.byteLength) :
    p.expectedWindow offset length = .ok (p.encoding, slice p.toBytes offset length) := by
  have below := sound.byteLength_lt
  rw [expectedWindow, if_neg (by omega), if_neg (by omega)]

/-- A window of one byte is the one rope of that byte. -/
theorem singleByte_comes (known : r ∈ nodes) {offset : Nat} (inside : offset < r.byteLength) :
    Build.Comes R nodes (do return singleByte r.encoding (← r.getByte offset))
      (.ok (r.encoding, slice r.toBytes offset 1)) := by
  refine .closed fun closed => ?_
  have bound : offset < r.toBytes.length := by
    rw [(closed.sound r known).length_toBytes]
    exact inside
  have found : r.toBytes[offset]? = some r.toBytes[offset] := List.getElem?_eq_getElem bound
  have cutting : slice r.toBytes offset 1 = [r.toBytes[offset]] := by
    rw [slice, List.take_one, List.head?_drop, found]
    rfl
  rw [cutting]
  refine Build.Makes.bind (getByte_answers known offset).makes ?_ ?_
  · rintro more fault ⟨_, wrong⟩
    rw [found] at wrong
    cases wrong
  · rintro more _ byte ⟨rfl, right⟩
    rw [found] at right
    cases right
    exact .pure (closed.denotes_singleByte _ _)

/-- What a window comes to, if cutting it where nothing simpler does comes to that. -/
theorem narrow_comes (known : r ∈ nodes) {offset length : Nat} {cut : Build Rope}
    (cuts : 0 < length → offset + length ≤ r.byteLength →
      cut.Comes R nodes (.ok (r.encoding, slice r.toBytes offset length))) :
    (r.narrow offset length cut).Comes R nodes
      (r.expectedWindow offset length) := by
  refine .closed fun closed => ?_
  have sound := closed.sound r known
  unfold narrow expectedWindow
  dsimp only
  split
  next long => exact .fail rfl
  next =>
    split
    next beyond => exact .fail rfl
    next inside =>
      have inside := Nat.le_of_not_lt inside
      split
      next none =>
        subst none
        exact .pure (by simpa [slice, Matches] using closed.denotes_empty r.encoding)
      next several =>
        split
        next whole =>
          obtain rfl : offset = 0 := by omega
          rw [whole, ← sound.length_toBytes, slice_whole]
          exact .pure (denotes_self known)
        next =>
          split
          next one =>
            obtain ⟨rfl, _⟩ := one
            exact singleByte_comes known (by omega)
          next => exact cuts (Nat.pos_of_ne_zero several) inside

section

variable (lawful : R.Lawful)
include lawful

theorem newLeaf_makes {bytes : List UInt8} {x : CodeRange} (small : bytes.length < lengthLimit)
    (trusted : x.isKnown = true → R.range e bytes x) :
    (newLeaf e x bytes).Makes R nodes fun more r => r.Denotes more e bytes := by
  unfold newLeaf
  refine (newNode_makes lawful (leaf · bytes) (fun _ => rfl) (fun _ _ part => nomatch part)
    (fun _ => ⟨rfl, small⟩) (fun _ => rfl) trusted (by rintro _ ⟨⟩)).bind ?_
  exact fun more _ n denotes => .pure denotes

theorem ofBytes_makes {bytes : List UInt8} {x : CodeRange} (small : bytes.length < lengthLimit)
    (trusted : x.isKnown = true → R.range e bytes x) :
    (ofBytes e bytes x).Makes R nodes fun more r => r.Denotes more e bytes := by
  refine .closed fun closed => ?_
  unfold ofBytes
  split
  next none =>
    subst none
    exact .pure (closed.denotes_empty e)
  next => exact newLeaf_makes lawful small trusted

/-- The bytes of a text are valid, and what is claimed about them is what a scan would find. -/
theorem utf8_makes {text : String} (small : text.toUTF8.toList.length < lengthLimit) :
    (utf8 text).Makes R nodes fun more r => r.Denotes more .utf8 text.toUTF8.toList := by
  have found := Encoding.scan_codeRange_of_encoded (Utf8.encoded_text text)
  have right := lawful.range_scan .utf8 text.toUTF8.toList
  refine ofBytes_makes lawful small fun _ => ?_
  rw [found] at right
  simpa [Encoding.asciiCompatible] using right

theorem ascii_makes {text : String} (small : text.toUTF8.toList.length < lengthLimit) :
    (ascii text).Makes R nodes fun more r => r.Denotes more .usAscii text.toUTF8.toList :=
  ofBytes_makes lawful small fun unknown => nomatch unknown

theorem flatten_makes (known : r ∈ nodes) :
    r.flatten.Makes R nodes fun more f => f.Denotes more r.encoding r.toBytes := by
  refine .closed fun closed => ?_
  have sound := closed.sound r known
  unfold flatten
  split
  next => exact .pure (denotes_self known)
  next =>
    refine (bytes_answers known).thenMakes fun bytes same => ?_
    subst same
    refine (knownCodeRange_answers known).thenMakes fun x right => ?_
    refine (newLeaf_makes lawful ?_ right).bind fun more grown f denotes => ?_
    · rw [sound.length_toBytes]
      exact sound.byteLength_lt
    refine (knownCharacterLength_answers (grown known)).thenMakes fun length counted => ?_
    split
    next n =>
      have count : R.length f.encoding f.toBytes n := by
        rw [denotes.encoding, denotes.toBytes]
        exact counted n rfl
      refine (Query.answers_publishCharacterLength denotes.known count).thenMakes fun _ _ => ?_
      exact .pure denotes
    next => exact .pure denotes

/-- What is known of a rope in another encoding is right there. -/
theorem knownRangeIn_answers (e : Encoding) (known : r ∈ nodes) :
    (knownRangeIn e r).Answers R nodes fun x => x.isKnown = true → R.range e r.toBytes x := by
  unfold knownRangeIn
  refine (knownCodeRange_answers known).bind fun x right => ?_
  split
  next same =>
    subst same
    exact .pure right
  next =>
    split
    next plain =>
      obtain ⟨rfl, compatible, compatible'⟩ := plain
      exact .pure fun _ => lawful.range_relabel _ _ _ compatible' compatible (right rfl)
    next => exact .pure fun unknown => nomatch unknown

theorem withEncoding_makes (known : r ∈ nodes) (e : Encoding) :
    (r.withEncoding e).Makes R nodes fun more f => f.Denotes more e r.toBytes := by
  refine .closed fun closed => ?_
  have sound := closed.sound r known
  unfold withEncoding
  split
  next same =>
    subst same
    exact .pure (denotes_self known)
  next =>
    split
    next none =>
      rw [sound.toBytes_eq_nil_iff.2 (by simpa [isEmpty] using none)]
      exact .pure (closed.denotes_empty e)
    next =>
      refine (knownRangeIn_answers lawful e known).thenMakes fun x right => ?_
      refine (bytes_answers known).thenMakes fun bytes same => ?_
      subst same
      refine newLeaf_makes lawful ?_ fun told => ?_
      · rw [sound.length_toBytes]
        exact sound.byteLength_lt
      · split at told
        next plain => simpa [plain] using right
        next => cases told

/-- What two sides say together is right of the whole, with `broken` left out. -/
theorem range_seam {a b : List UInt8} {x y : CodeRange}
    (righta : x.isKnown = true → R.range e a x) (rightb : y.isKnown = true → R.range e b y)
    (known : (x.common y).dropBroken.isKnown = true) :
    R.range e (a ++ b) (x.common y).dropBroken := by
  obtain ⟨same, sound⟩ := CodeRange.dropBroken_eq_of_isKnown known
  rw [CodeRange.isSound_common, Bool.and_eq_true] at sound
  rw [same]
  exact lawful.range_append _ _ _ _ _ sound.1 sound.2 (righta (CodeRange.isKnown_of_isSound sound.1))
    (rightb (CodeRange.isKnown_of_isSound sound.2))

theorem concatBounded_comes {a b : Rope} (knowna : a ∈ nodes) (knownb : b ∈ nodes)
    (e : Encoding) (maxDepth : Nat) :
    (concatBounded a b e maxDepth).Comes R nodes
      (if lengthLimit ≤ a.byteLength + b.byteLength then .error .lengthOverflow
        else .ok (e, a.toBytes ++ b.toBytes)) := by
  refine .closed fun closed => ?_
  have sounda := closed.sound a knowna
  have soundb := closed.sound b knownb
  unfold concatBounded
  dsimp only
  split
  next long => exact .fail rfl
  next short =>
    split
    next none =>
      have nothing := soundb.toBytes_eq_nil_iff.2 (by simpa [isEmpty] using none)
      rw [nothing, List.append_nil]
      exact .lift (withEncoding_makes lawful knowna e) fun _ _ denotes => denotes
    next =>
      split
      next none =>
        have nothing := sounda.toBytes_eq_nil_iff.2 (by simpa [isEmpty] using none)
        rw [nothing, List.nil_append]
        exact .lift (withEncoding_makes lawful knownb e) fun _ _ denotes => denotes
      next =>
        have total : a.byteLength + b.byteLength = (a.toBytes ++ b.toBytes).length := by
          rw [List.length_append, sounda.length_toBytes, soundb.length_toBytes]
        have small : (a.toBytes ++ b.toBytes).length < lengthLimit := by omega
        refine .ask (knownRangeIn_answers lawful e knowna) fun x righta => ?_
        refine .ask (knownRangeIn_answers lawful e knownb) fun y rightb => ?_
        have trusted := range_seam lawful righta rightb
        split
        next deep =>
          refine .ask (bytes_answers knowna) fun front same => ?_
          refine .ask (bytes_answers knownb) fun back same' => ?_
          subst same same'
          exact .lift (newLeaf_makes lawful small trusted) fun _ _ denotes => denotes
        next =>
          refine .bindLift (newNode_makes lawful (joined · a b) (fun _ => rfl) ?_
            (fun _ => ⟨sounda, soundb, rfl, Nat.lt_of_not_le short⟩) (fun _ => rfl) trusted
            (by rintro _ ⟨⟩)) fun more grown n denotes => .pure denotes
          rintro _ p part
          simp only [parts, List.mem_cons, List.not_mem_nil, or_false] at part
          rcases part with rfl | rfl
          · exact knowna
          · exact knownb

theorem view_comes (known : r ∈ nodes) {offset length : Nat}
    (inside : offset + length ≤ r.byteLength) :
    (r.view offset length).Comes R nodes (.ok (r.encoding, slice r.toBytes offset length)) := by
  refine .closed fun closed => ?_
  have sound := closed.sound r known
  unfold view
  refine .ask (knownCodeRange_answers known) fun x right => ?_
  have trusted : (if x = .sevenBit then CodeRange.sevenBit else .unknown).isKnown = true →
      R.range r.encoding (slice r.toBytes offset length)
        (if x = .sevenBit then CodeRange.sevenBit else .unknown) := by
    split
    next plain =>
      subst plain
      exact fun _ => lawful.range_window _ _ _ _ (right rfl)
    next => exact fun unknown => nomatch unknown
  refine .bindLift (newNode_makes lawful (excerpt · r offset) (fun _ => rfl) ?_
    (fun _ => ⟨sound, rfl, inside⟩) (fun _ => rfl) trusted (by rintro _ ⟨⟩))
    fun more grown n denotes => .pure denotes
  intro _ p part
  obtain rfl := List.mem_singleton.1 part
  exact known

theorem substring_comes (known : r ∈ nodes) (offset length : Nat) :
    (r.substring offset length).Comes R nodes (r.expectedWindow offset length) := by
  refine .closed fun closed => ?_
  have sound := closed.sound r known
  induction r generalizing offset length with
  | leaf n bytes =>
    rw [substring]
    exact narrow_comes known fun _ inside => view_comes lawful known inside
  | joined n left right ihl ihr =>
    have knownl := closed.parts _ known left (by simp [parts])
    have knownr := closed.parts _ known right (by simp [parts])
    obtain ⟨soundl, soundr, sum, _⟩ := sound
    rw [substring]
    refine narrow_comes known fun _ inside => ?_
    have within : offset + length ≤ left.byteLength + right.byteLength := sum ▸ inside
    dsimp only
    split
    next before =>
      have cut := ihl knownl offset length soundl
      rw [expectedWindow_part soundl before.1] at cut
      rw [toBytes_joined, slice_append_left _ (by rw [soundl.length_toBytes]; exact before.1)]
      rw [before.2] at cut
      exact cut
    next =>
      split
      next behind =>
        have cut := ihr knownr (offset - left.byteLength) length soundr
        rw [expectedWindow_part soundr (by omega)] at cut
        rw [toBytes_joined, slice_append_right _ (by rw [soundl.length_toBytes]; exact behind.1),
          soundl.length_toBytes]
        rw [behind.2] at cut
        exact cut
      next => exact view_comes lawful known inside
  | excerpt n child base ih =>
    have knownc := closed.parts _ known child (by simp [parts])
    obtain ⟨soundc, label, bound⟩ := sound
    rw [substring]
    refine narrow_comes known fun _ inside => ?_
    have inside : offset + length ≤ n.byteLength := inside
    have cut := ih knownc (base + offset) length soundc
    rw [expectedWindow_part soundc (by omega)] at cut
    rw [show (excerpt n child base).toBytes = slice child.toBytes base n.byteLength from rfl,
      slice_slice _ inside]
    rw [← label] at cut
    exact cut
  | repeated n child times ih =>
    have knownc := closed.parts _ known child (by simp [parts])
    obtain ⟨soundc, label, positive, _, product, _⟩ := sound
    rw [substring]
    refine narrow_comes known fun some inside => ?_
    dsimp only
    split
    next one =>
      rw [← soundc.length_toBytes] at one
      have within : offset + length ≤ child.byteLength * times := product ▸ inside
      rw [← soundc.length_toBytes] at within
      obtain ⟨fits, window⟩ := slice_copies some within one
      rw [soundc.length_toBytes] at fits window
      have cut := ih knownc (offset % child.byteLength) length soundc
      rw [expectedWindow_part soundc fits] at cut
      rw [toBytes_repeated, window]
      rw [← label] at cut
      exact cut
    next => exact view_comes lawful known inside

theorem replicate_comes (known : r ∈ nodes) (times : Nat) :
    (r.replicate times).Comes R nodes
      (if lengthLimit ≤ r.byteLength * times then .error .lengthOverflow
        else .ok (r.encoding, (List.replicate times r.toBytes).flatten)) := by
  refine .closed fun closed => ?_
  have sound := closed.sound r known
  unfold replicate
  dsimp only
  split
  next long => exact .fail rfl
  next short =>
    split
    next none =>
      have nothing : (List.replicate times r.toBytes).flatten = [] := by
        rw [← List.length_eq_zero_iff]
        simpa [sound.length_toBytes, Nat.mul_comm] using none
      rw [nothing]
      exact .pure (closed.denotes_empty r.encoding)
    next several =>
      split
      next one =>
        subst one
        exact .pure (by simpa [Matches] using denotes_self known)
      next =>
        have unit : 0 < r.byteLength :=
          Nat.pos_of_ne_zero fun zero => several (by rw [zero, Nat.zero_mul])
        have some : 0 < times :=
          Nat.pos_of_ne_zero fun zero => several (by rw [zero, Nat.mul_zero])
        have size : (List.replicate times r.toBytes).flatten.length = r.byteLength * times := by
          simp [sound.length_toBytes, Nat.mul_comm]
        refine .ask (knownCodeRange_answers known) fun x right => ?_
        refine .ask (knownCharacterLength_answers known) fun length counted => ?_
        refine .bindLift (newNode_makes lawful (repeated · r times) (fun _ => rfl) ?_
          (fun _ => ⟨sound, rfl, unit, some, rfl, Nat.lt_of_not_le short⟩) (fun _ => rfl) ?_ ?_)
          fun more grown n denotes => .pure denotes
        · intro _ p part
          obtain rfl := List.mem_singleton.1 part
          exact known
        · intro told
          obtain ⟨same, soundx⟩ := CodeRange.dropBroken_eq_of_isKnown told
          rw [same]
          exact lawful.range_copies soundx (right (CodeRange.isKnown_of_isSound soundx)) some
        · intro k copies
          split at copies
          next told =>
            obtain ⟨_, soundx⟩ := CodeRange.dropBroken_eq_of_isKnown told
            obtain ⟨n, found, rfl⟩ := Option.map_eq_some_iff.1 copies
            exact lawful.length_copies soundx (right (CodeRange.isKnown_of_isSound soundx))
              (counted n found) (by omega)
          next => cases copies

theorem isAsciiOnly_answers (known : r ∈ nodes) :
    r.isAsciiOnly.Answers R nodes
      fun plain => plain = true → R.range r.encoding r.toBytes .sevenBit := by
  unfold isAsciiOnly
  refine (codeRange_answers lawful known).bind fun x right => .pure fun plain => ?_
  rwa [of_decide_eq_true plain] at right

theorem compatibleEncoding_answers {a b : Rope} (knowna : a ∈ nodes) (knownb : b ∈ nodes) :
    (compatibleEncoding a b).Answers R nodes fun _ => True := by
  unfold compatibleEncoding
  repeat' split
  all_goals first
    | exact .pure trivial
    | skip
  refine (isAsciiOnly_answers lawful knownb).bind fun _ _ => ?_
  split
  next => exact .pure trivial
  next =>
    refine (isAsciiOnly_answers lawful knowna).bind fun _ _ => ?_
    split
    all_goals exact .pure trivial

/-- A concatenation is that of the bytes, under some encoding, or fails. -/
theorem concatWithin_makes {a b : Rope} (knowna : a ∈ nodes) (knownb : b ∈ nodes)
    (maxDepth : Nat) :
    (concatWithin maxDepth a b).Makes R nodes fun more result =>
      ∀ r, result = .ok r → ∃ e, r.Denotes more e (a.toBytes ++ b.toBytes) := by
  unfold concatWithin
  refine .ask (compatibleEncoding_answers lawful knowna knownb) fun found _ => ?_
  split
  next e =>
    refine (concatBounded_comes lawful knowna knownb e maxDepth).mono fun more result _ comes => ?_
    rintro r rfl
    split at comes
    · cases comes
    · exact ⟨e, comes⟩
  next => exact .throw fun _ none => nomatch none

theorem charOffset_makes (known : r ∈ nodes) (index : Nat) :
    (r.charOffset index).Makes R nodes fun more _ => more = nodes := by
  unfold charOffset
  extract_lets inBounds located
  -- what follows once it is known whether the characters are bytes
  have found : ∀ direct : Bool,
      Build.Makes R nodes (located direct) fun more _ => more = nodes := by
    intro direct
    dsimp only [located, inBounds]
    split
    next =>
      split
      next => exact .fail rfl
      next => exact .pure rfl
    next =>
      refine .ask (bytes_answers known) fun bytes _ => ?_
      split
      next => exact .pure rfl
      next => exact .ask (characterLength_answers lawful known) fun _ _ => .throw rfl
  split
  next => exact found true
  next => exact .ask (isAsciiOnly_answers lawful known) fun direct _ => found direct

theorem substringChars_makes (known : r ∈ nodes) (offset length : Nat) :
    (r.substringChars offset length).Makes R nodes fun more result =>
      ∀ s, result = .ok s → ∃ first last,
        s.Denotes more r.encoding (slice r.toBytes first (last - first)) := by
  unfold substringChars
  dsimp only
  split
  next => exact .fail fun _ none => nomatch none
  next =>
    refine Build.Makes.bind (charOffset_makes lawful known offset) (fun _ _ _ _ none => nomatch none)
      fun more _ first same => ?_
    subst same
    refine Build.Makes.bind (charOffset_makes lawful known _) (fun _ _ _ _ none => nomatch none)
      fun more _ last same => ?_
    subst same
    refine (substring_comes lawful known first (last - first)).mono fun more result _ comes => ?_
    rintro s rfl
    unfold expectedWindow at comes
    split at comes
    · cases comes
    · split at comes
      · cases comes
      · exact ⟨first, last, comes⟩

end

end Rope

end RopeBridge
