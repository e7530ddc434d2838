import RopeBridge.Proofs.Rope.Run

/-! What a client of ropes sees after any run: metadata that a scan of the content would find, and
content that depends on how a rope was made and on nothing that was found out about it. -/
namespace RopeBridge

namespace Rope

/-- What is answered about a rope, and what is known about it, is what a scan of the bytes it answers
with finds. -/
structure Truthful (l : Ledger) (r : Rope) : Prop where
  codeRange : (r.codeRange.run l).1 = (r.encoding.scan (r.bytes.run l).1).codeRange
  characterLength :
    (r.characterLength.run l).1 = (r.encoding.scan (r.bytes.run l).1).characters
  knownCodeRange : (r.knownCodeRange.run l).1.isKnown = true →
    (r.knownCodeRange.run l).1 = (r.encoding.scan (r.bytes.run l).1).codeRange
  knownCharacterLength : ∀ n, (r.knownCharacterLength.run l).1 = some n →
    n = (r.encoding.scan (r.bytes.run l).1).characters

/-- A client may leave the code range of new bytes open or give the one a scan would find. -/
def Action.Honest : Action → Prop
  | ofBytes e bytes hint => hint = .unknown ∨ hint = (e.scan bytes).codeRange
  | _ => True

theorem Action.Honest.trusted {a : Action} (honest : a.Honest) : a.Trusted .exact := by
  cases a with
  | ofBytes e bytes hint =>
    intro known
    rcases honest with rfl | right
    · cases known
    · exact right
  | _ => trivial

/-- Every hint is right by the reading that takes anything for right. -/
theorem Action.trusted_any (a : Action) : a.Trusted .any := by
  cases a with
  | ofBytes e bytes hint => exact fun _ => trivial
  | _ => trivial

theorem truthful_of_fits {l : Ledger} {nodes : List Rope} (fits : l.Fits .exact nodes) {r : Rope}
    (known : r ∈ nodes) : r.Truthful l := by
  have bytes := (bytes_answers known l fits).2
  constructor
  · rw [bytes]
    exact (codeRange_answers Reading.exact_lawful known l fits).2
  · rw [bytes]
    exact (characterLength_answers Reading.exact_lawful known l fits).2
  · rw [bytes]
    exact (knownCodeRange_answers known l fits).2
  · rw [bytes]
    exact (knownCharacterLength_answers known l fits).2

end Rope

open Rope (Action)

/-- Ropes of honest clients are truthful after every run. -/
theorem Collection.truthful_run {actions : List Action} (honest : ∀ a ∈ actions, a.Honest)
    {r : Rope} (held : r ∈ (start.run actions).ropes) :
    r.Truthful (start.run actions).ledger := by
  have trusted : ∀ a ∈ actions, a.Trusted .exact := fun a called => (honest a called).trusted
  obtain ⟨nodes, fits, among⟩ :=
    run_fits Reading.exact_lawful (start_fits Reading.exact_lawful) trusted
  exact Rope.truthful_of_fits fits (among held)

/-- Two halves of a character, each broken, and the whole they meet in. -/
def Collection.halves : List Action :=
  [.ofBytes .utf8 ⟨[0xC3], by decide⟩ .broken, .ofBytes .utf8 ⟨[0xA9], by decide⟩ .unknown,
    .concat 0 1]

theorem Collection.truthful_run_halves :
    ∃ r, (start.run halves).ropes[2]? = some r ∧ r.toBytes = [0xC3, 0xA9] ∧
      r.Truthful (start.run halves).ledger := by
  refine ⟨_, rfl, rfl, truthful_run ?_ (List.mem_of_getElem? (i := 2) rfl)⟩
  simp [halves, Action.Honest]
  decide

/-- What the making of a rope comes to, as its label and the bytes it answers with. -/
def Build.outcome (b : Build Rope) (l : Ledger) : Except Fault (Encoding × List UInt8) :=
  let (result, l) := b.run.run l
  match result with
  | .ok r => .ok (r.encoding, (r.bytes.run l).1)
  | .error fault => .error fault

theorem Build.outcome_of_comes {R : Reading} {nodes : List Rope} {l : Ledger} {b : Build Rope}
    {expected : Except Fault (Encoding × List UInt8)} (comes : b.Comes R nodes expected)
    (fits : l.Fits R nodes) : b.outcome l = expected := by
  obtain ⟨more, _, fits', kept⟩ := comes l fits
  unfold outcome
  split
  next result l' made =>
    rw [made] at fits' kept
    cases result with
    | ok r =>
      cases expected with
      | ok content =>
        have bytes := (Rope.bytes_answers kept.known l' fits').2
        simp only [bytes, kept.encoding, kept.toBytes]
      | error fault => exact kept.elim
    | error fault =>
      cases expected with
      | ok content => exact kept.elim
      | error expected => exact congrArg _ kept

namespace Rope

/-- A rope holds the bytes it denotes: every reader finds them, and everything made from the rope is
made of them. -/
structure Holds (l : Ledger) (r : Rope) : Prop where
  bytes : (r.bytes.run l).1 = r.toBytes
  byteLength : r.byteLength = (r.bytes.run l).1.length
  getByte : ∀ i, ((r.getByte i).run.run l).1 =
    if inside : i < r.toBytes.length then .ok r.toBytes[i] else .error (.outOfBounds i r.byteLength)
  substring : ∀ offset length, (r.substring offset length).outcome l =
    if lengthLimit ≤ offset + length then .error .lengthOverflow
    else if r.byteLength < offset + length then
      .error (.outOfBounds (offset + length) r.byteLength)
    else .ok (r.encoding, (r.toBytes.drop offset).take length)
  replicate : ∀ times, (r.replicate times).outcome l =
    if lengthLimit ≤ r.byteLength * times then .error .lengthOverflow
    else .ok (r.encoding, (List.replicate times r.toBytes).flatten)
  withEncoding : ∀ e, Build.outcome (r.withEncoding e) l = .ok (e, r.toBytes)
  flatten : Build.outcome r.flatten l = .ok (r.encoding, r.toBytes)

variable {R : Reading} {nodes : List Rope} {l : Ledger} {r : Rope}

theorem getByte_of_fits (fits : l.Fits R nodes) (known : r ∈ nodes) (i : Nat) :
    ((r.getByte i).run.run l).1 =
      if inside : i < r.toBytes.length then .ok r.toBytes[i]
      else .error (.outOfBounds i r.byteLength) := by
  rw [(getByte_answers known i l fits).2]
  split
  next byte found =>
    obtain ⟨inside, rfl⟩ := List.getElem?_eq_some_iff.1 found
    rw [dif_pos inside]
  next none =>
    rw [List.getElem?_eq_none_iff] at none
    rw [dif_neg (Nat.not_lt.2 none)]

theorem holds_of_fits (lawful : R.Lawful) (fits : l.Fits R nodes) (known : r ∈ nodes) :
    r.Holds l := by
  have bytes := (bytes_answers known l fits).2
  have relabelled (e : Encoding) : Build.Comes R nodes (r.withEncoding e) (.ok (e, r.toBytes)) :=
    .lift (withEncoding_makes lawful known e) fun _ _ denotes => denotes
  have flattened : Build.Comes R nodes r.flatten (.ok (r.encoding, r.toBytes)) :=
    .lift (flatten_makes lawful known) fun _ _ denotes => denotes
  constructor
  case bytes => exact bytes
  case byteLength =>
    rw [bytes]
    exact (fits.sound r known).length_toBytes.symm
  case getByte => exact getByte_of_fits fits known
  case substring =>
    intro offset length
    exact Build.outcome_of_comes (substring_comes lawful known offset length) fits
  case replicate =>
    intro times
    exact Build.outcome_of_comes (replicate_comes lawful known times) fits
  case withEncoding =>
    intro e
    exact Build.outcome_of_comes (relabelled e) fits
  case flatten => exact Build.outcome_of_comes flattened fits

end Rope

/-- Whatever clients claim of code ranges: every rope holds the bytes it denotes and goes on holding
them, and a concatenation holds those of its two sides or fails where their number has more than 64
bits. -/
theorem Collection.holds_run (actions : List Action) :
    (∀ r ∈ (start.run actions).ropes, ∀ later,
      r.Holds ((start.run actions).run later).ledger) ∧
    ∀ a ∈ (start.run actions).ropes, ∀ b ∈ (start.run actions).ropes, ∀ e maxDepth,
      (Rope.concatBounded a b e maxDepth).outcome (start.run actions).ledger =
        if lengthLimit ≤ a.byteLength + b.byteLength then .error .lengthOverflow
        else .ok (e, a.toBytes ++ b.toBytes) := by
  have lawful := Reading.any_lawful
  have fits := run_fits lawful (start_fits lawful) fun a (_ : a ∈ actions) => a.trusted_any
  constructor
  · intro r held later
    obtain ⟨nodes, right, among⟩ :=
      run_fits lawful fits fun a (_ : a ∈ later) => a.trusted_any
    exact Rope.holds_of_fits lawful right (among (ropes_run _ later held))
  · intro a helda b heldb e maxDepth
    obtain ⟨nodes, right, among⟩ := fits
    exact Build.outcome_of_comes
      (Rope.concatBounded_comes lawful (among helda) (among heldb) e maxDepth) right

/-- A byte that is claimed to be plain ASCII and is not, repeated, and cut over a seam. -/
theorem Collection.holds_run_claimed :
    ∃ r, (start.run [.ofBytes .utf8 ⟨[0x61, 0xFF], by decide⟩ .sevenBit, .replicate 0 2,
        .substring 1 1 2]).ropes[2]? = some r ∧ r.toBytes = [0xFF, 0x61] ∧
      ∀ later, r.Holds ((start.run [.ofBytes .utf8 ⟨[0x61, 0xFF], by decide⟩ .sevenBit,
        .replicate 0 2, .substring 1 1 2]).run later).ledger :=
  ⟨_, rfl, rfl, (holds_run _).1 _ (List.mem_of_getElem? (i := 2) rfl)⟩

end RopeBridge
