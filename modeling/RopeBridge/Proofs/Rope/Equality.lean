import RopeBridge.Proofs.Native.Text
import RopeBridge.Proofs.Rope.Thrift

/-! Equality and hashes of the ropes that a client holds. Both go by label and bytes, whatever the
shape of the ropes and whatever has been found out about them, so nothing that is done later can
change an answer. -/
namespace RopeBridge

variable {R : Reading} {nodes : List Rope}

namespace Rope

variable {r : Rope}

theorem outline_answers (lawful : R.Lawful) (known : r ∈ nodes) :
    r.outline.Answers R nodes fun _ => True := by
  refine .closed fun closed => ?_
  induction r with
  | leaf n bytes =>
    have written : (leaf n bytes).text.Answers R nodes fun _ => True :=
      (bytes_answers known).bind fun _ _ => .pure trivial
    rw [outline]
    exact written.bind fun _ _ => .pure trivial
  | joined n left right ihl ihr =>
    rw [outline]
    refine (ihl (closed.parts _ known left (by simp [parts]))).bind fun _ _ => ?_
    exact (ihr (closed.parts _ known right (by simp [parts]))).bind fun _ _ => .pure trivial
  | excerpt n child offset ih =>
    have knownc := closed.parts _ known child (by simp [parts])
    rw [outline]
    refine (codeRange_answers lawful knownc).bind fun _ _ => ?_
    refine (bytes_answers knownc).bind fun _ _ => (ih knownc).bind fun _ _ => ?_
    exact (characterLength_answers lawful known).bind fun _ _ => .pure trivial
  | repeated n child times ih =>
    rw [outline]
    exact (ih (closed.parts _ known child (by simp [parts]))).bind fun _ _ => .pure trivial

theorem Rendering.render_answers (lawful : R.Lawful) (known : r ∈ nodes) (form : Rendering) :
    (form.render r).Answers R nodes fun _ => True := by
  cases form with
  | text => exact (bytes_answers known).bind fun _ _ => .pure trivial
  | escapes => exact (bytes_answers known).bind fun _ _ => .pure trivial
  | outline => exact outline_answers lawful known

/-- What a client does: it uses its ropes, or takes one that a text in native memory, with whatever
is thought to be known of it, is copied into. -/
inductive Deed where
  | use (u : Use)
  | copy (t : NativeText) (contained : t.Contained)

end Rope

namespace Collection

open Rope (Use Deed)

variable {c : Collection}

theorem use_grows (lawful : R.Lawful) (right : c.ledger.Fits R nodes) (among : c.ropes ⊆ nodes)
    {u : Use} (trusted : ∀ a, u = .call a → a.Trusted R) :
    ∃ more, nodes ⊆ more ∧ (c.use u).ledger.Fits R more ∧ (c.use u).ropes ⊆ more := by
  cases u with
  | call a => exact step_grows lawful right among (trusted a rfl)
  | render i form =>
    simp only [use]
    split
    next r found =>
      have rendered := form.render_answers lawful (among (List.mem_of_getElem? found))
      exact ⟨nodes, List.Subset.refl _, (rendered c.ledger right).1, among⟩
    next => exact ⟨nodes, List.Subset.refl _, right, among⟩

theorem use_fits (lawful : R.Lawful) (fits : c.Fits R) {u : Use}
    (trusted : ∀ a, u = .call a → a.Trusted R) : (c.use u).Fits R := by
  obtain ⟨nodes, right, among⟩ := fits
  obtain ⟨more, _, right', among'⟩ := use_grows lawful right among trusted
  exact ⟨more, right', among'⟩

theorem useAll_fits (lawful : R.Lawful) (fits : c.Fits R) {uses : List Use}
    (trusted : ∀ a, .call a ∈ uses → a.Trusted R) : (c.useAll uses).Fits R := by
  induction uses generalizing c with
  | nil => exact fits
  | cons u rest ih =>
    have first : (c.use u).Fits R := use_fits lawful fits fun a call =>
      trusted a (call ▸ List.mem_cons_self)
    exact ih first fun a later => trusted a (List.mem_cons_of_mem _ later)

theorem ropes_use (c : Collection) (u : Use) : c.ropes ⊆ (c.use u).ropes :=
  c.ropes_useAll [u]

def perform (c : Collection) : Deed → Collection
  | .use u => c.use u
  | .copy t _ =>
    let (r, ledger) := t.toRope.run c.ledger
    ⟨ledger, c.ropes ++ [r]⟩

def performAll (c : Collection) (deeds : List Deed) : Collection := deeds.foldl perform c

theorem performAll_nil (c : Collection) : c.performAll [] = c := rfl

/-- Of native texts as of hints, anything may be claimed. -/
theorem perform_grows (right : c.ledger.Fits .any nodes) (among : c.ropes ⊆ nodes) (d : Deed) :
    ∃ more, nodes ⊆ more ∧ (c.perform d).ledger.Fits .any more ∧ (c.perform d).ropes ⊆ more := by
  cases d with
  | use u => exact use_grows Reading.any_lawful right among fun a _ => a.trusted_any
  | copy t contained =>
    have claimed : t.metadata.Fits .any t.encoding t.bytes :=
      ⟨fun _ => trivial, fun _ _ => trivial⟩
    obtain ⟨more, grown, right', denotes⟩ :=
      NativeText.toRope_makes Reading.any_lawful contained claimed c.ledger right
    refine ⟨more, grown, right', List.append_subset.2 ⟨List.Subset.trans among grown, ?_⟩⟩
    exact List.cons_subset.2 ⟨denotes.known, List.nil_subset _⟩

theorem perform_fits (fits : c.Fits .any) (d : Deed) : (c.perform d).Fits .any := by
  obtain ⟨nodes, right, among⟩ := fits
  obtain ⟨more, _, right', among'⟩ := perform_grows right among d
  exact ⟨more, right', among'⟩

theorem performAll_fits (fits : c.Fits .any) (deeds : List Deed) :
    (c.performAll deeds).Fits .any := by
  induction deeds generalizing c with
  | nil => exact fits
  | cons d rest ih => exact ih (perform_fits fits d)

theorem ropes_perform (c : Collection) (d : Deed) : c.ropes ⊆ (c.perform d).ropes := by
  cases d with
  | use u => exact c.ropes_use u
  | copy t contained => exact List.subset_append_left _ _

theorem ropes_performAll (c : Collection) (deeds : List Deed) :
    c.ropes ⊆ (c.performAll deeds).ropes := by
  induction deeds generalizing c with
  | nil => exact List.Subset.refl _
  | cons d rest ih => exact List.Subset.trans (c.ropes_perform d) (ih (c.perform d))

/-- Equality and hashes of the ropes a client holds are settled by their labels and bytes. -/
structure EqualByContent (c : Collection) : Prop where
  /-- Whatever is done later, equality is that of labels and of the bytes answered then, -/
  content : ∀ later, ∀ a ∈ c.ropes, ∀ b ∈ c.ropes,
    ((a.equal b).run (c.performAll later).ledger).1 = true ↔
      a.encoding = b.encoding ∧
        (a.bytes.run (c.performAll later).ledger).1 = (b.bytes.run (c.performAll later).ledger).1
  /-- and what it has been before. -/
  settled : ∀ later, ∀ a ∈ c.ropes, ∀ b ∈ c.ropes,
    ((a.equal b).run (c.performAll later).ledger).1 = ((a.equal b).run c.ledger).1
  hash : ∀ later, ∀ a ∈ c.ropes, (a.hashCode.run (c.performAll later).ledger).1 =
    contentHash a.encoding (a.bytes.run (c.performAll later).ledger).1
  /-- Equal ropes have equal hashes, whenever either is asked for its own. -/
  hashes : ∀ later later', ∀ a ∈ c.ropes, ∀ b ∈ c.ropes,
    ((a.equal b).run c.ledger).1 = true →
      (a.hashCode.run (c.performAll later).ledger).1 =
        (b.hashCode.run (c.performAll later').ledger).1
  equivalence : Equivalence fun a b : { r // r ∈ c.ropes } =>
    ((a.1.equal b.1).run c.ledger).1 = true

/-- After any deeds, with any claims, ropes are equal by label and bytes alone. -/
theorem equalByContent (deeds : List Deed) : (start.performAll deeds).EqualByContent := by
  have fits := performAll_fits (start_fits Reading.any_lawful) deeds
  generalize start.performAll deeds = c at fits
  -- What a rope denotes does not mention the ledger, so answers that go by it cannot change.
  have right : ∀ later, ∃ nodes, (c.performAll later).ledger.Fits .any nodes ∧ c.ropes ⊆ nodes := by
    intro later
    obtain ⟨nodes, right, among⟩ := performAll_fits fits later
    exact ⟨nodes, right, List.Subset.trans (c.ropes_performAll later) among⟩
  have bytes : ∀ later, ∀ a ∈ c.ropes,
      (a.bytes.run (c.performAll later).ledger).1 = a.toBytes := by
    intro later a held
    obtain ⟨nodes, right, among⟩ := right later
    exact (Rope.bytes_answers (among held) _ right).2
  have hash : ∀ later, ∀ a ∈ c.ropes, (a.hashCode.run (c.performAll later).ledger).1 =
      contentHash a.encoding a.toBytes := by
    intro later a held
    obtain ⟨nodes, right, among⟩ := right later
    exact (Rope.hashCode_answers (among held) _ right).2
  have equal : ∀ later, ∀ a ∈ c.ropes, ∀ b ∈ c.ropes,
      ((a.equal b).run (c.performAll later).ledger).1 = true ↔
        a.encoding = b.encoding ∧ a.toBytes = b.toBytes := by
    intro later a helda b heldb
    obtain ⟨nodes, right, among⟩ := right later
    exact (Rope.equal_answers (among helda) (among heldb) _ right).2
  constructor
  case content =>
    intro later a helda b heldb
    rw [equal later a helda b heldb, bytes later a helda, bytes later b heldb]
  case settled =>
    intro later a helda b heldb
    exact Bool.eq_iff_iff.2 ((equal later a helda b heldb).trans (equal [] a helda b heldb).symm)
  case hash =>
    intro later a held
    rw [hash later a held, bytes later a held]
  case hashes =>
    intro later later' a helda b heldb same
    obtain ⟨encoding, content⟩ := (equal [] a helda b heldb).1 same
    rw [hash later a helda, hash later' b heldb, encoding, content]
  case equivalence =>
    constructor
    case refl => exact fun ⟨a, held⟩ => (equal [] a held a held).2 ⟨rfl, rfl⟩
    case symm =>
      rintro ⟨a, helda⟩ ⟨b, heldb⟩ same
      obtain ⟨encoding, content⟩ := (equal [] a helda b heldb).1 same
      exact (equal [] b heldb a helda).2 ⟨encoding.symm, content.symm⟩
    case trans =>
      rintro ⟨a, helda⟩ ⟨b, heldb⟩ ⟨d, heldd⟩ first second
      obtain ⟨encoding, content⟩ := (equal [] a helda b heldb).1 first
      obtain ⟨encoding', content'⟩ := (equal [] b heldb d heldd).1 second
      exact (equal [] a helda d heldd).2 ⟨encoding.trans encoding', content.trans content'⟩

/-- A character in a leaf, and a rope in which its bytes meet. -/
def met : List Deed :=
  [.use (.call (.ofBytes .utf8 ⟨[0xD0, 0xB4], by decide⟩ .valid)),
    .use (.call (.ofBytes .utf8 ⟨[0xD0], by decide⟩ .unknown)),
    .use (.call (.ofBytes .utf8 ⟨[0xB4], by decide⟩ .unknown)), .use (.call (.concat 1 2))]

theorem ropes_met : ∃ leaf joined, (start.performAll met).ropes[0]? = some leaf ∧
    (start.performAll met).ropes[3]? = some joined ∧
    leaf.isLeaf = true ∧ joined.isLeaf = false ∧
    (leaf.encoding = .utf8 ∧ leaf.toBytes = [0xD0, 0xB4]) ∧
    joined.encoding = .utf8 ∧ joined.toBytes = [0xD0, 0xB4] :=
  ⟨_, _, rfl, rfl, rfl, rfl, ⟨rfl, rfl⟩, rfl, rfl⟩

theorem equalByContent_met :
    ∃ leaf joined, (start.performAll met).ropes[0]? = some leaf ∧
      (start.performAll met).ropes[3]? = some joined ∧
      leaf.isLeaf = true ∧ joined.isLeaf = false ∧ ∀ later,
        ((leaf.equal joined).run ((start.performAll met).performAll later).ledger).1 = true := by
  obtain ⟨nodes, right, among⟩ := performAll_fits (start_fits Reading.any_lawful) met
  have equal := equalByContent met
  obtain ⟨leaf, joined, first, last, shape, shape', ⟨label, bytes⟩, label', bytes'⟩ := ropes_met
  have helda := List.mem_of_getElem? first
  have heldb := List.mem_of_getElem? last
  refine ⟨leaf, joined, first, last, shape, shape', fun later => ?_⟩
  rw [equal.settled later leaf helda joined heldb]
  have content := equal.content [] leaf helda joined heldb
  rw [performAll_nil, (Rope.bytes_answers (among helda) _ right).2,
    (Rope.bytes_answers (among heldb) _ right).2] at content
  exact content.2 ⟨label.trans label'.symm, bytes.trans bytes'.symm⟩

end Collection

end RopeBridge
