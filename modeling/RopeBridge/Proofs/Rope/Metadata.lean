import RopeBridge.Proofs.Rope.Content

/-! Code range and character length of a rope are right for its bytes: what a node takes over from
its parts is right by the laws of a reading, and everything else comes from a scan of the node. -/
namespace RopeBridge

/-- What is known of a part may be said of it under the encoding of the whole. -/
structure Reading.Carries (R : Reading) (e : Encoding) (part : Rope) (x : CodeRange) : Prop where
  range : R.range e part.toBytes x
  length : e.singleByte = false →
    ∀ n, R.length part.encoding part.toBytes n → R.length e part.toBytes n

namespace Rope

variable {R : Reading} {nodes : List Rope} {r : Rope}

theorem knownCodeRange_answers (known : r ∈ nodes) :
    r.knownCodeRange.Answers R nodes
      fun x => x.isKnown = true → R.range r.encoding r.toBytes x :=
  (Query.answers_entry known).bind fun _ fits => .pure fits.codeRange

theorem knownCharacterLength_answers (known : r ∈ nodes) :
    r.knownCharacterLength.Answers R nodes
      fun length => ∀ n, length = some n → R.length r.encoding r.toBytes n :=
  (Query.answers_entry known).bind fun _ fits => .pure fits.characterLength

theorem rememberCodeRange_answers (known : r ∈ nodes) {compute : Query CodeRange}
    (computed : compute.Answers R nodes (R.range r.encoding r.toBytes)) :
    (r.rememberCodeRange compute).Answers R nodes (R.range r.encoding r.toBytes) := by
  unfold rememberCodeRange
  refine (knownCodeRange_answers known).bind fun before right => ?_
  split
  next found => exact .pure (right found)
  next =>
    refine computed.bind fun x right => ?_
    refine (Query.answers_publishCodeRange known right).mono fun y same => ?_
    rwa [same]

theorem rememberCharacterLength_answers (known : r ∈ nodes) {compute : Query Nat}
    (computed : compute.Answers R nodes (R.length r.encoding r.toBytes)) :
    (r.rememberCharacterLength compute).Answers R nodes (R.length r.encoding r.toBytes) := by
  unfold rememberCharacterLength
  refine (knownCharacterLength_answers known).bind fun before right => ?_
  split
  next n => exact .pure (right n rfl)
  next =>
    refine computed.bind fun n rightn => ?_
    refine (knownCharacterLength_answers known).bind fun now right => ?_
    split
    next m => exact .pure (right m rfl)
    next =>
      refine (Query.answers_publishCharacterLength known rightn).bind fun _ _ => ?_
      exact .pure rightn

section

variable (lawful : R.Lawful)
include lawful

theorem scanned_answers (known : r ∈ nodes) :
    r.scanned.Answers R nodes (R.range r.encoding r.toBytes) := by
  unfold scanned
  refine (Query.answers_note _ _).bind fun _ _ => ?_
  refine (bytes_answers known).bind fun bytes same => ?_
  subst same
  have count := lawful.length_scan r.encoding r.toBytes
  refine (Query.answers_publishCharacterLength known count).bind fun _ _ => ?_
  exact .pure (lawful.range_scan r.encoding r.toBytes)

theorem inheritedRange_answers (e : Encoding) {part : Rope} {range : Query CodeRange}
    (asked : range.Answers R nodes (R.range part.encoding part.toBytes)) :
    (inheritedRange e part range).Answers R nodes
      fun found => ∀ x, found = some x → R.Carries e part x := by
  unfold inheritedRange
  split
  next same =>
    subst same
    refine asked.bind fun x right => .pure ?_
    rintro _ ⟨⟩
    exact ⟨right, fun _ _ count => count⟩
  next =>
    split
    next compatible =>
      rw [Bool.and_eq_true] at compatible
      refine asked.bind fun x right => ?_
      split
      next plain =>
        subst plain
        refine .pure ?_
        rintro _ ⟨⟩
        exact ⟨lawful.range_relabel _ _ _ compatible.2 compatible.1 right,
          fun several n => lawful.length_relabel _ _ _ n compatible.2 compatible.1 several right⟩
      next => exact .pure (fun _ none => nomatch none)
    next => exact .pure (fun _ none => nomatch none)

/-- A sound range is taken over; otherwise the node is scanned. -/
theorem adopt_answers (known : r ∈ nodes) (found : Option CodeRange)
    (right : ∀ x, found = some x → x.isSound = true → R.range r.encoding r.toBytes x) :
    (r.adopt found).Answers R nodes (R.range r.encoding r.toBytes) := by
  unfold adopt
  split
  · exact .pure (right _ rfl rfl)
  · exact .pure (right _ rfl rfl)
  · exact scanned_answers lawful known

theorem codeRange_answers (known : r ∈ nodes) :
    r.codeRange.Answers R nodes (R.range r.encoding r.toBytes) := by
  refine .closed fun closed => ?_
  have sound := closed.sound r known
  induction r with
  | leaf n bytes =>
    rw [codeRange]
    exact rememberCodeRange_answers known (scanned_answers lawful known)
  | joined n left right ihl ihr =>
    have asl := ihl (closed.parts _ known left (by simp [parts])) sound.1
    have asr := ihr (closed.parts _ known right (by simp [parts])) sound.2.1
    rw [codeRange]
    refine rememberCodeRange_answers known ?_
    refine (inheritedRange_answers lawful n.encoding asl).bind fun a carriesa => ?_
    refine (inheritedRange_answers lawful n.encoding asr).bind fun b carriesb => ?_
    refine adopt_answers lawful known _ fun x found soundx => ?_
    split at found
    next a b =>
      cases found
      rw [CodeRange.isSound_common, Bool.and_eq_true] at soundx
      exact lawful.range_append _ _ _ _ _ soundx.1 soundx.2 (carriesa a rfl).range
        (carriesb b rfl).range
    next => cases found
  | excerpt n child offset ih =>
    have asc := ih (closed.parts _ known child (by simp [parts])) sound.1
    rw [codeRange]
    refine rememberCodeRange_answers known (asc.bind fun x right => ?_)
    refine adopt_answers lawful known _ fun y found _ => ?_
    split at found
    next plain =>
      cases found
      rw [plain, ← sound.2.1] at right
      exact lawful.range_window _ _ _ _ right
    next => cases found
  | repeated n child times ih =>
    have asc := ih (closed.parts _ known child (by simp [parts])) sound.1
    rw [codeRange]
    refine rememberCodeRange_answers known ?_
    refine (inheritedRange_answers lawful n.encoding asc).bind fun found carries => ?_
    refine adopt_answers lawful known _ fun x same soundx => ?_
    exact lawful.range_copies soundx (carries x same).range sound.2.2.2.1

theorem reusable_answers (e : Encoding) {part : Rope} (known : part ∈ nodes) :
    (reusable e part).Answers R nodes
      fun whole => whole = true → ∃ x, x.isSound = true ∧ R.Carries e part x := by
  unfold reusable
  refine (inheritedRange_answers lawful e (codeRange_answers lawful known)).bind
    fun found carries => ?_
  split
  · exact .pure fun _ => ⟨_, rfl, carries _ rfl⟩
  · exact .pure fun _ => ⟨_, rfl, carries _ rfl⟩
  · exact .pure fun no => nomatch no

theorem counted_answers (known : r ∈ nodes) {range : CodeRange}
    (right : R.range r.encoding r.toBytes range) :
    (r.counted range).Answers R nodes (R.length r.encoding r.toBytes) := by
  refine .closed fun closed => ?_
  unfold counted
  refine (Query.answers_note _ _).bind fun _ _ => ?_
  refine (bytes_answers known).bind fun bytes same => ?_
  subst same
  rw [← (closed.sound r known).length_toBytes]
  exact .pure (lawful.length_count _ _ _ right)

/-- A node counts right if its parts do. -/
theorem characterLength_answers_of_parts (known : r ∈ nodes)
    (counts : ∀ p ∈ r.parts, p.characterLength.Answers R nodes (R.length p.encoding p.toBytes)) :
    r.characterLength.Answers R nodes (R.length r.encoding r.toBytes) := by
  refine .closed fun closed => ?_
  have sound := closed.sound r known
  have plainLength : R.range r.encoding r.toBytes .sevenBit ∨ r.encoding.singleByte = true →
      R.length r.encoding r.toBytes r.byteLength := by
    rw [← sound.length_toBytes]
    exact lawful.length_plain _ _
  rw [characterLength]
  refine rememberCharacterLength_answers known ?_
  split
  next single => exact .pure (plainLength (.inr single))
  next several =>
    rw [Bool.not_eq_true] at several
    refine (codeRange_answers lawful known).bind fun range right => ?_
    have counted := counted_answers lawful known right
    refine (knownCharacterLength_answers known).bind fun before found => ?_
    split
    next n => exact .pure (found n rfl)
    next =>
      split
      next => exact .pure (plainLength (.inl right))
      next =>
        split
        next n left back =>
          have knownl := closed.parts _ known left (by simp [parts])
          have knownr := closed.parts _ known back (by simp [parts])
          refine (reusable_answers lawful n.encoding knownl).bind fun reusel wholel => ?_
          dsimp only
          split
          next yesl =>
            refine (reusable_answers lawful n.encoding knownr).bind fun reuser wholer => ?_
            split
            next yesr =>
              obtain ⟨x, soundx, carriesl⟩ := wholel yesl
              obtain ⟨y, soundy, carriesr⟩ := wholer yesr
              refine (counts left (by simp [parts])).bind fun a counta => ?_
              refine (counts back (by simp [parts])).bind fun b countb => .pure ?_
              refine lawful.length_append _ _ _ x y _ _ soundx soundy carriesl.range
                carriesr.range (carriesl.length several a counta)
                (carriesr.length several b countb) ?_
              rw [← toBytes_joined n, sound.length_toBytes]
              exact sound.2.2.2
            next => exact counted
          next => exact counted
        next n child times =>
          have knownc := closed.parts _ known child (by simp [parts])
          refine (reusable_answers lawful n.encoding knownc).bind fun reuse whole => ?_
          split
          next yes =>
            obtain ⟨x, soundx, carries⟩ := whole yes
            refine (counts child (by simp [parts])).bind fun a counta => .pure ?_
            refine lawful.length_copies soundx carries.range (carries.length several a counta) ?_
            rw [← toBytes_repeated n, sound.length_toBytes]
            exact sound.2.2.2.2.2
          next => exact counted
        next => exact counted
      next => exact counted

theorem characterLength_answers (known : r ∈ nodes) :
    r.characterLength.Answers R nodes (R.length r.encoding r.toBytes) := by
  refine .closed fun closed => ?_
  induction r using byParts with
  | step r ih =>
    exact characterLength_answers_of_parts lawful known fun p part =>
      ih p part (closed.parts r known p part)

end

end Rope

end RopeBridge
