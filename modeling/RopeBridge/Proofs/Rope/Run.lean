import RopeBridge.Proofs.Rope.Build

/-! A client's calls, one after another, over the ropes it has been given and one ledger. Every call
leaves the ledger right for all nodes made so far, so what is proved of a right ledger holds after
every run: ropes keep to their bytes whatever was claimed of them, and their metadata is that of a
scan if nothing false was claimed. -/
namespace RopeBridge

/-- Bytes as memory can hold them: their number is one of 64 bits. -/
abbrev Storable := { bytes : List UInt8 // bytes.length < lengthLimit }

/-- Text as memory can hold it. -/
abbrev StorableText := { text : String // text.toUTF8.toList.length < lengthLimit }

namespace Rope

/-- A question to one rope. -/
inductive Question where
  | bytes | codeRange | characterLength | hashCode
  | byte (index : Nat)
  | charOffset (index : Nat)

/-- A call of a client. Numbers of ropes are positions among those the client holds. -/
inductive Action where
  | ofBytes (e : Encoding) (bytes : Storable) (hint : CodeRange)
  | utf8 (text : StorableText)
  | ascii (text : StorableText)
  | empty (e : Encoding)
  | singleByte (e : Encoding) (b : UInt8)
  | concat (left right : Nat)
  | concatBounded (left right : Nat) (e : Encoding) (maxDepth : Nat)
  | substring (rope offset length : Nat)
  | substringChars (rope offset length : Nat)
  | replicate (rope times : Nat)
  | withEncoding (rope : Nat) (e : Encoding)
  | flatten (rope : Nat)
  /-- Takes a part of a rope for a rope of its own. -/
  | part (rope index : Nat)
  | ask (rope : Nat) (question : Question)
  | equal (left right : Nat)
  | compatibleEncoding (left right : Nat)

/-- Asks a question for what it does to the ledger. -/
def Question.ask (r : Rope) : Question → Build Unit
  | bytes => do let _ ← r.bytes; return
  | codeRange => do let _ ← r.codeRange; return
  | characterLength => do let _ ← r.characterLength; return
  | hashCode => do let _ ← r.hashCode; return
  | byte index => do let _ ← r.getByte index; return
  | charOffset index => do let _ ← r.charOffset index; return

/-- A program for a rope the client holds; nothing happens without one. -/
def held (ropes : List Rope) (i : Nat) (program : Rope → Build (List Rope)) :
    Build (List Rope) :=
  match ropes[i]? with
  | some r => program r
  | none => return []

/-- What a call does and the ropes the client is given for it. -/
def Action.program (ropes : List Rope) : Action → Build (List Rope)
  | ofBytes e bytes hint => return [← Rope.ofBytes e bytes hint]
  | utf8 text => return [← Rope.utf8 text]
  | ascii text => return [← Rope.ascii text]
  | empty e => return [Rope.empty e]
  | singleByte e b => return [Rope.singleByte e b]
  | concat i j => held ropes i fun a => held ropes j fun b => return [← a.concat b]
  | concatBounded i j e maxDepth =>
    held ropes i fun a => held ropes j fun b => return [← Rope.concatBounded a b e maxDepth]
  | substring i offset length => held ropes i fun r => return [← r.substring offset length]
  | substringChars i offset length =>
    held ropes i fun r => return [← r.substringChars offset length]
  | replicate i times => held ropes i fun r => return [← r.replicate times]
  | withEncoding i e => held ropes i fun r => return [← r.withEncoding e]
  | flatten i => held ropes i fun r => return [← r.flatten]
  | part i index => held ropes i fun r => return r.parts[index]?.toList
  | ask i question => held ropes i fun r => do
    let _ ← question.ask r
    return []
  | equal i j => held ropes i fun a => held ropes j fun b => do
    let _ ← a.equal b
    return []
  | compatibleEncoding i j => held ropes i fun a => held ropes j fun b => do
    let _ ← Rope.compatibleEncoding a b
    return []

end Rope

/-- The ropes a client holds, the oldest first, and the ledger they share. -/
structure Collection where
  ledger : Ledger
  ropes : List Rope

namespace Collection

open Rope (Action Question)

def start : Collection := ⟨Ledger.initial, []⟩

/-- What a failed call found out is kept; it gives no rope. -/
def step (c : Collection) (a : Action) : Collection :=
  let (result, ledger) := (a.program c.ropes).run.run c.ledger
  match result with
  | .ok new => ⟨ledger, c.ropes ++ new⟩
  | .error _ => ⟨ledger, c.ropes⟩

def run (c : Collection) (actions : List Action) : Collection := actions.foldl step c

/-- The ledger is right for some nodes, the ropes of the client among them. -/
def Fits (R : Reading) (c : Collection) : Prop :=
  ∃ nodes, c.ledger.Fits R nodes ∧ c.ropes ⊆ nodes

end Collection

namespace Rope

variable {R : Reading} {nodes ropes : List Rope}

/-- What a call says of its bytes is right by a reading. -/
def Action.Trusted (R : Reading) : Action → Prop
  | ofBytes e bytes hint => hint.isKnown = true → R.range e bytes hint
  | _ => True

/-- A program whose result, if there is one, is a node. -/
abbrev GivesOne (R : Reading) (nodes : List Rope) (b : Build Rope) : Prop :=
  b.Makes R nodes fun more result => ∀ r, result = .ok r → r ∈ more

/-- A program whose results are nodes. -/
abbrev Gives (R : Reading) (nodes : List Rope) (b : Build (List Rope)) : Prop :=
  b.Makes R nodes fun more result => ∀ new, result = .ok new → new ⊆ more

theorem gives_one {b : Build Rope} (gives : GivesOne R nodes b) :
    Gives R nodes (do return [← b]) := by
  refine Build.Makes.bind gives (fun _ _ _ _ none => nomatch none) fun more _ r one => .pure ?_
  rintro _ ⟨⟩
  exact List.cons_subset.2 ⟨one r rfl, List.nil_subset _⟩

theorem gives_none {α : Type} {b : Build α} (asks : b.Makes R nodes fun _ _ => True) :
    Gives R nodes (do let _ ← b; return []) := by
  refine Build.Makes.bind asks (fun _ _ _ _ none => nomatch none) fun more _ r _ => .pure ?_
  rintro _ ⟨⟩
  exact List.nil_subset _

theorem givesOne_of_comes {b : Build Rope} {expected : Except Fault (Encoding × List UInt8)}
    (comes : b.Comes R nodes expected) : GivesOne R nodes b := by
  refine comes.mono fun more result _ kept => ?_
  rintro r rfl
  cases expected with
  | ok content => exact kept.known
  | error fault => exact kept.elim

theorem givesOne_of_makes {q : Query Rope} {e : Encoding} {bytes : List UInt8}
    (makes : q.Makes R nodes fun more r => r.Denotes more e bytes) :
    GivesOne R nodes (liftM q) := by
  refine .lift makes fun more a denotes => ?_
  rintro r ⟨⟩
  exact denotes.known

theorem asks_lift {α : Type} {q : Query α} {P : α → Prop} (answers : q.Answers R nodes P) :
    Build.Makes R nodes (liftM q) fun _ _ => True :=
  .lift answers.makes fun _ _ _ => trivial

theorem held_gives (among : ropes ⊆ nodes) {i : Nat} {program : Rope → Build (List Rope)}
    (gives : ∀ r ∈ nodes, Gives R nodes (program r)) : Gives R nodes (held ropes i program) := by
  unfold held
  split
  next r found => exact gives r (among (List.mem_of_getElem? found))
  next => exact .pure (by rintro _ ⟨⟩; exact List.nil_subset _)

theorem Question.ask_makes (lawful : R.Lawful) {r : Rope} (known : r ∈ nodes)
    (question : Question) : (question.ask r).Makes R nodes fun _ _ => True := by
  cases question with
  | bytes => exact .ask (bytes_answers known) fun _ _ => .pure trivial
  | codeRange => exact .ask (codeRange_answers lawful known) fun _ _ => .pure trivial
  | characterLength => exact .ask (characterLength_answers lawful known) fun _ _ => .pure trivial
  | hashCode => exact .ask (hashCode_answers known) fun _ _ => .pure trivial
  | byte index =>
    exact Build.Makes.bind (getByte_answers known index).makes (fun _ _ _ => trivial)
      fun _ _ _ _ => .pure trivial
  | charOffset index =>
    exact Build.Makes.bind (charOffset_makes lawful known index) (fun _ _ _ => trivial)
      fun _ _ _ _ => .pure trivial

/-- Every call may be made of nodes, and what it gives are nodes. -/
theorem Action.program_gives (lawful : R.Lawful) (among : ropes ⊆ nodes) {a : Action}
    (trusted : a.Trusted R) : Gives R nodes (a.program ropes) := by
  refine .closed fun closed => ?_
  cases a with
  | ofBytes e bytes hint =>
    exact gives_one (givesOne_of_makes (ofBytes_makes lawful bytes.2 trusted))
  | utf8 text => exact gives_one (givesOne_of_makes (utf8_makes lawful text.2))
  | ascii text => exact gives_one (givesOne_of_makes (ascii_makes lawful text.2))
  | empty e => exact .pure (by rintro _ ⟨⟩; simpa using (closed.denotes_empty e).known)
  | singleByte e b => exact .pure (by rintro _ ⟨⟩; simpa using (closed.denotes_singleByte e b).known)
  | concat i j =>
    refine held_gives among fun a knowna => held_gives among fun b knownb => gives_one ?_
    refine (concatWithin_makes lawful knowna knownb defaultFlattenDepth).mono ?_
    intro more result _ denotes r given
    obtain ⟨e, denotes⟩ := denotes r given
    exact denotes.known
  | concatBounded i j e maxDepth =>
    refine held_gives among fun a knowna => held_gives among fun b knownb => gives_one ?_
    exact givesOne_of_comes (concatBounded_comes lawful knowna knownb e maxDepth)
  | substring i offset length =>
    refine held_gives among fun r known => gives_one ?_
    exact givesOne_of_comes (substring_comes lawful known offset length)
  | substringChars i offset length =>
    refine held_gives among fun r known => gives_one ?_
    refine (substringChars_makes lawful known offset length).mono ?_
    intro more result _ denotes s given
    obtain ⟨_, _, denotes⟩ := denotes s given
    exact denotes.known
  | replicate i times =>
    refine held_gives among fun r known => gives_one ?_
    exact givesOne_of_comes (replicate_comes lawful known times)
  | withEncoding i e =>
    refine held_gives among fun r known => gives_one ?_
    exact givesOne_of_makes (withEncoding_makes lawful known e)
  | flatten i =>
    refine held_gives among fun r known => gives_one ?_
    exact givesOne_of_makes (flatten_makes lawful known)
  | part i index =>
    refine held_gives among fun r known => .pure ?_
    rintro _ ⟨⟩ p member
    rw [Option.mem_toList] at member
    exact closed.parts r known p (List.mem_of_getElem? member)
  | ask i question =>
    exact held_gives among fun r known => gives_none (question.ask_makes lawful known)
  | equal i j =>
    refine held_gives among fun a knowna => held_gives among fun b knownb => gives_none ?_
    exact asks_lift (equal_answers knowna knownb)
  | compatibleEncoding i j =>
    refine held_gives among fun a knowna => held_gives among fun b knownb => gives_none ?_
    exact asks_lift (compatibleEncoding_answers lawful knowna knownb)

end Rope

namespace Collection

open Rope (Action)

variable {R : Reading} {c : Collection}

theorem start_fits (lawful : R.Lawful) : start.Fits R :=
  ⟨Rope.canonical, Ledger.initial_fits lawful, List.nil_subset _⟩

/-- A call keeps the ledger right for all nodes there are, and adds those it gives. -/
theorem step_grows (lawful : R.Lawful) {nodes : List Rope} (right : c.ledger.Fits R nodes)
    (among : c.ropes ⊆ nodes) {a : Action} (trusted : a.Trusted R) :
    ∃ more, nodes ⊆ more ∧ (c.step a).ledger.Fits R more ∧ (c.step a).ropes ⊆ more := by
  obtain ⟨more, grown, right', given⟩ := Action.program_gives lawful among trusted c.ledger right
  have among' := List.Subset.trans among grown
  refine ⟨more, grown, ?_⟩
  unfold step
  split
  next result ledger made =>
    rw [made] at right' given
    split
    next new => exact ⟨right', List.append_subset.2 ⟨among', given new rfl⟩⟩
    next => exact ⟨right', among'⟩

theorem step_fits (lawful : R.Lawful) (fits : c.Fits R) {a : Action} (trusted : a.Trusted R) :
    (c.step a).Fits R := by
  obtain ⟨nodes, right, among⟩ := fits
  obtain ⟨more, _, right', among'⟩ := step_grows lawful right among trusted
  exact ⟨more, right', among'⟩

theorem run_fits (lawful : R.Lawful) (fits : c.Fits R) {actions : List Action}
    (trusted : ∀ a ∈ actions, a.Trusted R) : (c.run actions).Fits R := by
  induction actions generalizing c with
  | nil => exact fits
  | cons a rest ih =>
    have one := step_fits lawful fits (trusted a List.mem_cons_self)
    exact ih one fun b later => trusted b (List.mem_cons_of_mem _ later)

theorem ropes_step (c : Collection) (a : Action) : c.ropes ⊆ (c.step a).ropes := by
  unfold step
  split
  split
  · exact List.subset_append_left _ _
  · exact List.Subset.refl _

/-- A client keeps the ropes it holds. -/
theorem ropes_run (c : Collection) (actions : List Action) : c.ropes ⊆ (c.run actions).ropes := by
  induction actions generalizing c with
  | nil => exact List.Subset.refl _
  | cons a rest ih => exact List.Subset.trans (ropes_step c a) (ih (c.step a))

end Collection

end RopeBridge
