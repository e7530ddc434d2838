import RopeBridge.Proofs.Rope.Client

/-! Concatenation with negotiation of the encoding. What ropes denote, bytes under a label, is a
partial monoid: both ways to put three parts together are defined together and come to the same, and
an empty side changes nothing. Ropes follow it, whatever is known about them and however deep they
may become. -/
namespace RopeBridge

namespace Encoding

/-- The label of two sides that both have bytes, given whether each is plain ASCII. A plain side
gives way to the other one where both encodings are compatible with ASCII; of two plain sides the
left one prevails. -/
def agreed (e f : Encoding) (plain plain' : Bool) : Option Encoding :=
  if e = f then some e
  else if !e.asciiCompatible || !f.asciiCompatible then none
  else if plain' then some e
  else if plain then some f
  else none

/-- Which of three labels is agreed on is a matter of five encodings and three flags. -/
theorem agreed_assoc (e f g : Encoding) (p q r : Bool) :
    (agreed e f p q).bind (fun x => agreed x g (p && q) r) =
      (agreed f g q r).bind fun x => agreed e x p (q && r) := by
  revert p q r
  cases e <;> cases f <;> cases g <;> decide

theorem isSome_agreed_comm (e f : Encoding) (p q : Bool) :
    (agreed e f p q).isSome = (agreed f e q p).isSome := by
  revert p q
  cases e <;> cases f <;> decide

theorem asciiCompatible_of_agreed {e f x : Encoding} {p q : Bool} (h : agreed e f p q = some x) :
    x.asciiCompatible = (e.asciiCompatible && f.asciiCompatible) := by
  revert p q
  cases e <;> cases f <;> cases x <;> decide

end Encoding

namespace Rope

/-- What a rope denotes: bytes under a label. -/
structure Content where
  encoding : Encoding
  bytes : List UInt8

def content (r : Rope) : Content := ⟨r.encoding, r.toBytes⟩

theorem Denotes.content {nodes : List Rope} {r : Rope} {e : Encoding} {bytes : List UInt8}
    (h : r.Denotes nodes e bytes) : r.content = ⟨e, bytes⟩ := by
  rw [Rope.content, h.encoding, h.toBytes]

namespace Content

variable {a b c : Content}

def plain (a : Content) : Bool := a.encoding.asciiCompatible && a.bytes.all Encoding.isAscii

/-- The label of two contents put together, if they agree on one. An empty side gives way to the
other, and of two empty sides the left one prevails. -/
def label (a b : Content) : Option Encoding :=
  if b.bytes = [] then some a.encoding
  else if a.bytes = [] then some b.encoding
  else a.encoding.agreed b.encoding a.plain b.plain

def join (a b : Content) : Option Content :=
  (a.label b).map fun e => ⟨e, a.bytes ++ b.bytes⟩

theorem bytes_of_join (h : a.join b = some c) : c.bytes = a.bytes ++ b.bytes := by
  obtain ⟨e, _, rfl⟩ := Option.map_eq_some_iff.1 h
  rfl

theorem join_empty (noneb : b.bytes = []) : a.join b = some a := by
  simp [join, label, noneb]

theorem empty_join (nonea : a.bytes = []) (someb : b.bytes ≠ []) : a.join b = some b := by
  simp [join, label, nonea, someb]

theorem label_of_same (same : a.encoding = b.encoding) : a.label b = some a.encoding := by
  simp [label, Encoding.agreed, same]

theorem label_eq_agreed (somea : a.bytes ≠ []) (someb : b.bytes ≠ []) :
    a.label b = a.encoding.agreed b.encoding a.plain b.plain := by
  simp [label, somea, someb]

/-- Two contents put together are plain ASCII where both are. -/
theorem plain_of_agreed {e : Encoding}
    (agreed : a.encoding.agreed b.encoding a.plain b.plain = some e) :
    plain ⟨e, a.bytes ++ b.bytes⟩ = (a.plain && b.plain) := by
  simp only [plain, Encoding.asciiCompatible_of_agreed agreed, List.all_append]
  ac_rfl

/-- The way from the left, on contents that have bytes. -/
theorem join_bind_left (somea : a.bytes ≠ []) (someb : b.bytes ≠ []) (somec : c.bytes ≠ []) :
    (a.join b).bind (·.join c) =
      ((a.encoding.agreed b.encoding a.plain b.plain).bind fun x =>
        x.agreed c.encoding (a.plain && b.plain) c.plain).map
          fun e => ⟨e, a.bytes ++ (b.bytes ++ c.bytes)⟩ := by
  rw [join, label_eq_agreed somea someb, Option.bind_map, Option.map_bind]
  refine Option.bind_congr fun x agreed => ?_
  have someab : a.bytes ++ b.bytes ≠ [] := by simp [somea]
  rw [Function.comp_apply, join, label_eq_agreed someab somec, plain_of_agreed agreed,
    List.append_assoc]
  rfl

/-- The way from the right, on contents that have bytes. -/
theorem join_bind_right (somea : a.bytes ≠ []) (someb : b.bytes ≠ []) (somec : c.bytes ≠ []) :
    (b.join c).bind (a.join ·) =
      ((b.encoding.agreed c.encoding b.plain c.plain).bind fun x =>
        a.encoding.agreed x a.plain (b.plain && c.plain)).map
          fun e => ⟨e, a.bytes ++ (b.bytes ++ c.bytes)⟩ := by
  rw [join, label_eq_agreed someb somec, Option.bind_map, Option.map_bind]
  refine Option.bind_congr fun x agreed => ?_
  have somebc : b.bytes ++ c.bytes ≠ [] := by simp [someb]
  rw [Function.comp_apply, join, label_eq_agreed somea somebc, plain_of_agreed agreed]
  rfl

theorem join_assoc (a b c : Content) :
    (a.join b).bind (·.join c) = (b.join c).bind (a.join ·) := by
  by_cases nonec : c.bytes = []
  · simp [join_empty nonec]
  by_cases noneb : b.bytes = []
  · simp [join_empty noneb, empty_join noneb nonec]
  by_cases nonea : a.bytes = []
  · -- whatever the others come to has bytes, so it stays as it is behind an empty side
    rw [empty_join nonea noneb, Option.bind_some]
    refine (Option.bind_fun_some _).symm.trans (Option.bind_congr fun d joined => ?_)
    refine (empty_join nonea ?_).symm
    simp [bytes_of_join joined, noneb]
  rw [join_bind_left nonea noneb nonec, join_bind_right nonea noneb nonec,
    Encoding.agreed_assoc]

theorem isSome_join_comm (a b : Content) : (a.join b).isSome = (b.join a).isSome := by
  simp only [join, Option.isSome_map]
  by_cases nonea : a.bytes = []
  · by_cases noneb : b.bytes = [] <;> simp [label, nonea, noneb]
  by_cases noneb : b.bytes = []
  · simp [label, nonea, noneb]
  rw [label_eq_agreed nonea noneb, label_eq_agreed noneb nonea, Encoding.isSome_agreed_comm]

end Content

variable {nodes : List Rope}

theorem Sound.isEmpty_iff {r : Rope} (h : r.Sound) : r.isEmpty = true ↔ r.content.bytes = [] := by
  rw [isEmpty, beq_iff_eq]
  exact h.toBytes_eq_nil_iff.symm

theorem isAsciiOnly_exact {r : Rope} (known : r ∈ nodes) :
    r.isAsciiOnly.Answers .exact nodes (· = r.content.plain) := by
  refine (codeRange_answers Reading.exact_lawful known).bind fun x right => .pure ?_
  rw [Bool.eq_iff_iff, decide_eq_true_eq, show x = _ from right,
    Encoding.scan_codeRange_eq_sevenBit_iff, ← Bool.and_eq_true]
  rfl

/-- The encodings are compared before anything else is asked, but the answer depends on what the two
sides denote alone. -/
theorem compatibleEncoding_exact {a b : Rope} (knowna : a ∈ nodes) (knownb : b ∈ nodes) :
    (compatibleEncoding a b).Answers .exact nodes (· = a.content.label b.content) := by
  refine .closed fun closed => ?_
  have emptya := (closed.sound a knowna).isEmpty_iff
  have emptyb := (closed.sound b knownb).isEmpty_iff
  unfold compatibleEncoding
  split
  next same =>
    have same : a.content.encoding = b.content.encoding := same
    exact .pure (Content.label_of_same same).symm
  next other =>
    split
    next noneb =>
      rw [emptyb] at noneb
      exact .pure (by rw [Content.label, if_pos noneb]; rfl)
    next someb =>
      rw [emptyb] at someb
      split
      next nonea =>
        rw [emptya] at nonea
        exact .pure (by rw [Content.label, if_neg someb, if_pos nonea]; rfl)
      next somea =>
        rw [emptya] at somea
        have label : a.content.label b.content =
            a.encoding.agreed b.encoding a.content.plain b.content.plain :=
          Content.label_eq_agreed somea someb
        rw [label, Encoding.agreed, if_neg other]
        split
        next => exact .pure rfl
        next =>
          refine (isAsciiOnly_exact knownb).bind fun plain same => ?_
          subst same
          split
          next => exact .pure rfl
          next =>
            refine (isAsciiOnly_exact knowna).bind fun plain same => ?_
            subst same
            split
            all_goals exact .pure rfl

/-- The making of a rope succeeds where a content is expected, with a rope of that content. -/
def Joins (nodes : List Rope) : Option Content → Except Fault Rope → Prop
  | some c, .ok r => r.Denotes nodes c.encoding c.bytes
  | none, .error _ => True
  | _, _ => False

/-- A program with a content expected of it, or a failure. -/
abbrev JoinsTo (nodes : List Rope) (b : Build Rope) (expected : Option Content) : Prop :=
  b.Makes .exact nodes fun more result => Joins more expected result

theorem concatWithin_exact {a b : Rope} (knowna : a ∈ nodes) (knownb : b ∈ nodes)
    (small : a.byteLength + b.byteLength < lengthLimit) (depth : Nat) :
    JoinsTo nodes (concatWithin depth a b) (a.content.join b.content) := by
  unfold concatWithin Content.join
  refine .ask (compatibleEncoding_exact knowna knownb) fun found label => ?_
  subst label
  split
  next e agreed =>
    have made := concatBounded_comes Reading.exact_lawful knowna knownb e depth
    rw [if_neg (Nat.not_le.2 small)] at made
    refine made.mono fun more result _ comes => ?_
    rw [agreed]
    cases result with
    | ok r => exact comes
    | error fault => exact comes
  next none =>
    rw [none]
    exact .throw trivial

/-- One program after another, each with a content expected of it. -/
theorem joins_bind {first : Build Rope} {f : Rope → Build Rope} {expected : Option Content}
    {next : Content → Option Content}
    (makes : JoinsTo nodes first expected)
    (rest : ∀ more, nodes ⊆ more → ∀ r ∈ more, expected = some r.content →
      JoinsTo more (f r) (next r.content)) :
    JoinsTo nodes (first >>= f) (expected.bind next) := by
  refine Build.Makes.bind makes ?_ ?_
  · intro more fault joins
    cases expected with
    | none => exact trivial
    | some content => exact joins.elim
  · intro more grown r joins
    cases expected with
    | none => exact joins.elim
    | some content =>
      have made := rest more grown r joins.known (congrArg some joins.content.symm)
      rwa [joins.content] at made

theorem Closed.byteLength_of_join {a b c : Rope} (closed : Closed nodes) (knowna : a ∈ nodes)
    (knownb : b ∈ nodes) (knownc : c ∈ nodes) (joined : a.content.join b.content = some c.content) :
    c.byteLength = a.byteLength + b.byteLength := by
  have bytes : c.toBytes = a.toBytes ++ b.toBytes := Content.bytes_of_join joined
  rw [← (closed.sound a knowna).length_toBytes, ← (closed.sound b knownb).length_toBytes,
    ← (closed.sound c knownc).length_toBytes, bytes, List.length_append]

/-- Three ropes put together from the left, with a bound for the depth in each step. -/
def leftFirst (depth depth' : Nat) (a b c : Rope) : Build Rope := do
  let ab ← concatWithin depth a b
  concatWithin depth' ab c

/-- Three ropes put together from the right, with a bound for the depth in each step. -/
def rightFirst (depth depth' : Nat) (a b c : Rope) : Build Rope := do
  let bc ← concatWithin depth b c
  concatWithin depth' a bc

section

variable {a b c : Rope} (knowna : a ∈ nodes) (knownb : b ∈ nodes) (knownc : c ∈ nodes)
  (small : a.byteLength + b.byteLength + c.byteLength < lengthLimit)
include knowna knownb knownc small

theorem leftFirst_makes (depth depth' : Nat) :
    JoinsTo nodes (leftFirst depth depth' a b c)
      ((a.content.join b.content).bind (·.join c.content)) := by
  refine joins_bind (concatWithin_exact knowna knownb (by omega) depth) ?_
  refine fun more grown ab known joined => .closed fun closed => ?_
  have length := closed.byteLength_of_join (grown knowna) (grown knownb) known joined
  exact concatWithin_exact known (grown knownc) (by omega) depth'

theorem rightFirst_makes (depth depth' : Nat) :
    JoinsTo nodes (rightFirst depth depth' a b c)
      ((a.content.join b.content).bind (·.join c.content)) := by
  rw [Content.join_assoc]
  refine joins_bind (concatWithin_exact knownb knownc (by omega) depth) ?_
  refine fun more grown bc known joined => .closed fun closed => ?_
  have length := closed.byteLength_of_join (grown knownb) (grown knownc) known joined
  exact concatWithin_exact (grown knowna) known (by omega) depth'

end

/-- Two ropes that compare as equal, and of which the same is answered. -/
structure Alike (l : Ledger) (a b : Rope) : Prop where
  equal : ((a.equal b).run l).1 = true
  encoding : a.encoding = b.encoding
  bytes : (a.bytes.run l).1 = (b.bytes.run l).1
  codeRange : (a.codeRange.run l).1 = (b.codeRange.run l).1
  characterLength : (a.characterLength.run l).1 = (b.characterLength.run l).1

theorem alike_of_content {l : Ledger} {a b : Rope} (fits : l.Fits .exact nodes) (knowna : a ∈ nodes)
    (knownb : b ∈ nodes) (same : a.content = b.content) : a.Alike l b := by
  have encoding : a.encoding = b.encoding := congrArg Content.encoding same
  have bytes : a.toBytes = b.toBytes := congrArg Content.bytes same
  constructor
  case equal => exact (equal_answers knowna knownb l fits).2.2 ⟨encoding, bytes⟩
  case encoding => exact encoding
  case bytes =>
    exact (bytes_answers knowna l fits).2.trans (bytes.trans (bytes_answers knownb l fits).2.symm)
  case codeRange =>
    have righta := (codeRange_answers Reading.exact_lawful knowna l fits).2
    have rightb := (codeRange_answers Reading.exact_lawful knownb l fits).2
    rw [encoding, bytes] at righta
    exact righta.trans rightb.symm
  case characterLength =>
    have counta := (characterLength_answers Reading.exact_lawful knowna l fits).2
    have countb := (characterLength_answers Reading.exact_lawful knownb l fits).2
    rw [encoding, bytes] at counta
    exact counta.trans countb.symm

end Rope

namespace Build

def Succeeds (b : Build Rope) (l : Ledger) : Prop := ∃ r l', b.run.run l = (.ok r, l')

/-- Two ways to make a rope succeed together, and made one after the other they come to ropes that
are alike. -/
structure Agrees (b b' : Build Rope) (l : Ledger) : Prop where
  succeeds_iff : b.Succeeds l ↔ b'.Succeeds l
  alike : ∀ u l₁, b.run.run l = (.ok u, l₁) →
    ∃ v l₂, b'.run.run l₁ = (.ok v, l₂) ∧ u.Alike l₂ v

/-- Making a rope comes to one that is like `r`. -/
def GivesAlike (b : Build Rope) (l : Ledger) (r : Rope) : Prop :=
  ∃ u l', b.run.run l = (.ok u, l') ∧ u.Alike l' r

end Build

namespace Rope

variable {nodes : List Rope} {l : Ledger} {b b' : Build Rope} {expected : Option Content}

theorem succeeds_iff (fits : l.Fits .exact nodes) (makes : JoinsTo nodes b expected) :
    b.Succeeds l ↔ expected.isSome = true := by
  unfold Build.Succeeds
  cases ran : b.run.run l with
  | mk result l' =>
    obtain ⟨more, _, _, joins⟩ := makes.ran fits ran
    cases expected with
    | none =>
      cases result with
      | ok r => exact joins.elim
      | error fault => exact iff_of_false (fun ⟨r, l', made⟩ => nomatch made) nofun
    | some content =>
      cases result with
      | ok r => exact iff_of_true ⟨r, l', rfl⟩ rfl
      | error fault => exact joins.elim

/-- What has been made has the content expected. -/
theorem joins_made (fits : l.Fits .exact nodes) (makes : JoinsTo nodes b expected) {r : Rope}
    {l' : Ledger} (ran : b.run.run l = (.ok r, l')) :
    ∃ more, nodes ⊆ more ∧ l'.Fits .exact more ∧ r ∈ more ∧ expected = some r.content := by
  obtain ⟨more, grown, fits', joins⟩ := makes.ran fits ran
  cases expected with
  | none => exact joins.elim
  | some content => exact ⟨more, grown, fits', joins.known, congrArg some joins.content.symm⟩

theorem agrees_of_joins (fits : l.Fits .exact nodes)
    (makes : JoinsTo nodes b expected) (makes' : ∀ more, nodes ⊆ more → JoinsTo more b' expected) :
    b.Agrees b' l := by
  constructor
  case succeeds_iff =>
    exact (succeeds_iff fits makes).trans (succeeds_iff fits (makes' nodes (List.Subset.refl _))).symm
  case alike =>
    intro u l₁ ran
    obtain ⟨more, grown, fits₁, knownu, content⟩ := joins_made fits makes ran
    have again := makes' more grown
    obtain ⟨v, l₂, ran'⟩ := (succeeds_iff fits₁ again).2 (by simp [content])
    obtain ⟨final, grown', fits₂, knownv, content'⟩ := joins_made fits₁ again ran'
    refine ⟨v, l₂, ran', alike_of_content fits₂ (grown' knownu) knownv ?_⟩
    exact Option.some.inj (content.symm.trans content')

theorem givesAlike_of_joins (fits : l.Fits .exact nodes) {r : Rope} (known : r ∈ nodes)
    (makes : JoinsTo nodes b (some r.content)) : b.GivesAlike l r := by
  obtain ⟨u, l', ran⟩ := (succeeds_iff fits makes).2 rfl
  obtain ⟨more, grown, fits', knownu, content⟩ := joins_made fits makes ran
  exact ⟨u, l', ran, alike_of_content fits' knownu (grown known) (Option.some.inj content).symm⟩

/-- Ropes are put together as a partial monoid, whatever depths they are kept to: both ways to put
three together succeed with ropes that are alike or both fail, two go together in either order, and
an empty side leaves a rope that is not empty as it is. -/
structure Concatenates (l : Ledger) (x y z : Rope) : Prop where
  assoc : ∀ d₁ d₂ d₃ d₄, (leftFirst d₁ d₂ x y z).Agrees (rightFirst d₃ d₄ x y z) l
  assoc_symm : ∀ d₁ d₂ d₃ d₄, (rightFirst d₃ d₄ x y z).Agrees (leftFirst d₁ d₂ x y z) l
  comm : ∀ d₁ d₂, (concatWithin d₁ x y).Succeeds l ↔ (concatWithin d₂ y x).Succeeds l
  empty_right : x.isEmpty = false → y.isEmpty = true → ∀ d, (concatWithin d x y).GivesAlike l x
  empty_left : x.isEmpty = true → y.isEmpty = false → ∀ d, (concatWithin d x y).GivesAlike l y

theorem concatenates_of_fits (fits : l.Fits .exact nodes) {x y z : Rope} (knownx : x ∈ nodes)
    (knowny : y ∈ nodes) (knownz : z ∈ nodes)
    (small : x.byteLength + y.byteLength + z.byteLength < lengthLimit) :
    Concatenates l x y z := by
  have left := fun d₁ d₂ more (grown : nodes ⊆ more) =>
    leftFirst_makes (grown knownx) (grown knowny) (grown knownz) small d₁ d₂
  have right := fun d₃ d₄ more (grown : nodes ⊆ more) =>
    rightFirst_makes (grown knownx) (grown knowny) (grown knownz) small d₃ d₄
  have here := List.Subset.refl nodes
  have both := concatWithin_exact knownx knowny (by omega)
  have emptyx := (fits.sound x knownx).isEmpty_iff
  have emptyy := (fits.sound y knowny).isEmpty_iff
  constructor
  case assoc => exact fun d₁ d₂ d₃ d₄ => agrees_of_joins fits (left d₁ d₂ _ here) (right d₃ d₄)
  case assoc_symm =>
    exact fun d₁ d₂ d₃ d₄ => agrees_of_joins fits (right d₃ d₄ _ here) (left d₁ d₂)
  case comm =>
    intro d₁ d₂
    rw [succeeds_iff fits (both d₁),
      succeeds_iff fits (concatWithin_exact knowny knownx (by omega) d₂), Content.isSome_join_comm]
  case empty_right =>
    intro _ noney d
    refine givesAlike_of_joins fits knownx ?_
    have made := both d
    rwa [Content.join_empty (emptyy.1 noney)] at made
  case empty_left =>
    intro nonex somey d
    refine givesAlike_of_joins fits knowny ?_
    have made := both d
    rwa [Content.empty_join (emptyx.1 nonex) (mt emptyy.2 (by simp [somey]))] at made

end Rope

namespace Collection

/-- Ropes of which nothing false is known are put together as a partial monoid. -/
theorem concatenates {c : Collection} (right : c.Fits .exact) {x y z : Rope} (heldx : x ∈ c.ropes)
    (heldy : y ∈ c.ropes) (heldz : z ∈ c.ropes)
    (small : x.byteLength + y.byteLength + z.byteLength < lengthLimit) :
    Rope.Concatenates c.ledger x y z := by
  obtain ⟨nodes, fits, among⟩ := right
  exact Rope.concatenates_of_fits fits (among heldx) (among heldy) (among heldz) small

/-- Plain ASCII under a label of its own, no bytes in an encoding that is not compatible with ASCII,
and a character of two bytes. -/
def labelled : List Rope.Action :=
  [.ofBytes .usAscii ⟨[0x61], by decide⟩ .sevenBit, .empty .utf16le,
    .ofBytes .utf8 ⟨[0xC3, 0xB6], by decide⟩ .unknown]

theorem concatenates_labelled :
    ∃ x y z, (start.run labelled).ropes = [x, y, z] ∧ x.content = ⟨.usAscii, [0x61]⟩ ∧
      y.content = ⟨.utf16le, []⟩ ∧ z.content = ⟨.utf8, [0xC3, 0xB6]⟩ ∧
      x.Concatenates (start.run labelled).ledger y z := by
  have honest : ∀ a ∈ labelled, a.Honest := by
    simp [labelled, Rope.Action.Honest]
    decide
  have right : (start.run labelled).Fits .exact :=
    run_fits Reading.exact_lawful (start_fits Reading.exact_lawful)
      fun a called => (honest a called).trusted
  obtain ⟨x, y, z, ropes, contentx, contenty, contentz, small⟩ :
      ∃ x y z, (start.run labelled).ropes = [x, y, z] ∧ x.content = ⟨.usAscii, [0x61]⟩ ∧
        y.content = ⟨.utf16le, []⟩ ∧ z.content = ⟨.utf8, [0xC3, 0xB6]⟩ ∧
        x.byteLength + y.byteLength + z.byteLength < lengthLimit :=
    ⟨_, _, _, rfl, rfl, rfl, rfl, by decide⟩
  refine ⟨x, y, z, ropes, contentx, contenty, contentz, concatenates right ?_ ?_ ?_ small⟩
  all_goals simp [ropes]

end Collection

end RopeBridge
