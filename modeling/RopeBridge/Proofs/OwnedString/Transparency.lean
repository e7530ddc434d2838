import RopeBridge.Proofs.OwnedString.Run
import RopeBridge.Proofs.OwnedString.Storage

/-! A string that is moved to native memory goes on answering as before. What it answers depends on
its label and its bytes alone, so moves at other times, or none, make no difference to a client that
compares ropes by what they hold. -/

namespace RopeBridge

namespace OwnedString

/-- What a client asks of one string. It may also make ropes, which the string can be given. -/
inductive Request where
  | toNative
  | getByte (index : Nat)
  | bytes | codeRange | characterLength | cLength
  | getRope
  | read (index : Nat)
  | write (index : Nat) (byte : UInt8)
  | setRope (rope : Nat)
  | newRope (e : Encoding) (bytes : { bytes : List UInt8 // bytes.length < lengthLimit })

/-- Reads reach the terminator at most, and writes stay inside the string. -/
def Request.Within (byteLength : Nat) : Request → Prop
  | read index => index ≤ byteLength
  | write index _ => index < byteLength
  | _ => True

/-- All but the moves. -/
def Request.isStill : Request → Bool
  | toNative => false
  | _ => true

/-- What a client can tell of an answer. -/
inductive Answer where
  | failed (fault : Fault)
  | done
  | count (n : Nat)
  | byte (byte : UInt8)
  | codeRange (range : CodeRange)
  | bytes (bytes : List UInt8)
  | rope (e : Encoding) (bytes : List UInt8)
deriving DecidableEq

end OwnedString

namespace Editing

open OwnedString (Call Reply Request Answer)

/-- Makes a call, and takes the rope that it may give. -/
def call (s : Editing) (c : Call) : Except Fault Reply × Editing :=
  let (reply, workspace) := c.run s.workspace
  match reply with
  | .ok (.rope r) => (reply, ⟨workspace, s.ropes ++ [r]⟩)
  | _ => (reply, ⟨workspace, s.ropes⟩)

def serve (s : Editing) : Request → Except Fault Reply × Editing
  | .toNative => s.call .toNative
  | .getByte index => s.call (.getByte index)
  | .bytes => s.call .bytes
  | .codeRange => s.call .codeRange
  | .characterLength => s.call .characterLength
  | .cLength => s.call .cLength
  | .getRope => s.call .getRope
  | .read index => s.call (.read index)
  | .write index byte => s.call (.write index byte)
  | .setRope i =>
    match s.ropes[i]? with
    | some r => s.call (.setRope r)
    | none => (.ok .done, s)
  | .newRope e bytes =>
    let (r, ledger) := (Rope.ofBytes e bytes .unknown).run s.workspace.ledger
    (.ok (.rope r), ⟨{ s.workspace with ledger }, s.ropes ++ [r]⟩)

/-- An answer as the client can tell it: a rope by its label and the bytes it answers with. -/
def tell (s : Editing) : Except Fault Reply → Answer
  | .error fault => .failed fault
  | .ok .done => .done
  | .ok (.count n) => .count n
  | .ok (.byte byte) => .byte byte
  | .ok (.codeRange range) => .codeRange range
  | .ok (.bytes bytes) => .bytes bytes
  | .ok (.rope r) => .rope r.encoding (r.bytes.run s.workspace.ledger).1

/-- The answers to a row of requests, but for those to the moves. -/
def answers (s : Editing) : List Request → List Answer
  | [] => []
  | .toNative :: rest => (s.serve .toNative).2.answers rest
  | q :: rest =>
    let (reply, s) := s.serve q
    s.tell reply :: s.answers rest

/-- All requests are within the string as they find it. -/
def Within (s : Editing) : List Request → Prop
  | [] => True
  | q :: rest => q.Within s.workspace.string.byteLength ∧ (s.serve q).2.Within rest

end Editing

/-- A string and the ropes of its client as labels and bytes. -/
structure Sketch where
  string : Encoding × List UInt8
  ropes : List (Encoding × List UInt8)

namespace Sketch

open OwnedString (Request Answer)

def found (fault : Except Fault UInt8) : Answer :=
  match fault with
  | .ok byte => .byte byte
  | .error fault => .failed fault

/-- What is answered, by label and bytes alone. -/
def serve (p : Sketch) : Request → Answer × Sketch
  | .toNative => (.done, p)
  | .getByte index => (found (byteAt? p.string.2 index), p)
  | .bytes => (.bytes p.string.2, p)
  | .codeRange => (.codeRange (p.string.1.scan p.string.2).codeRange, p)
  | .characterLength => (.count (p.string.1.scan p.string.2).characters, p)
  | .cLength => (.count (p.string.2.findIdx (· = 0)), p)
  | .getRope => (.rope p.string.1 p.string.2, { p with ropes := p.ropes ++ [p.string] })
  | .read index => (.byte (p.string.2.getD index 0), p)
  | .write index byte => (.byte byte, { p with string := (p.string.1, p.string.2.set index byte) })
  | .setRope i =>
    match p.ropes[i]? with
    | some content => (.done, { p with string := content })
    | none => (.done, p)
  | .newRope e bytes => (.rope e bytes, { p with ropes := p.ropes ++ [(e, bytes.1)] })

def answers (p : Sketch) : List Request → List Answer
  | [] => []
  | .toNative :: rest => p.answers rest
  | q :: rest => (p.serve q).1 :: (p.serve q).2.answers rest

def Within (p : Sketch) : List Request → Prop
  | [] => True
  | q :: rest => q.Within p.string.2.length ∧ (p.serve q).2.Within rest

theorem Within.still {p : Sketch} {requests : List Request} (within : p.Within requests) :
    p.Within (requests.filter Request.isStill) := by
  induction requests generalizing p with
  | nil => trivial
  | cons q rest ih =>
    cases q with
    | toNative => exact ih within.2
    | _ => exact ⟨within.1, ih within.2⟩

theorem answers_still (p : Sketch) (requests : List Request) :
    p.answers (requests.filter Request.isStill) = p.answers requests := by
  induction requests generalizing p with
  | nil => rfl
  | cons q rest ih =>
    cases q with
    | toNative => exact ih p
    | _ => exact congrArg (List.cons _) (ih _)

end Sketch

/-- A string and the ropes of its client are right over one ledger and look like this. -/
structure Editing.Looks (nodes : List Rope) (s : Editing) (p : Sketch) : Prop where
  string : s.workspace.Shows nodes p.string.1 p.string.2
  among : s.ropes ⊆ nodes
  ropes : s.ropes.map (fun r => (r.encoding, r.toBytes)) = p.ropes

namespace Editing

open OwnedString (Call Reply Request Answer)

variable {nodes more : List Rope} {s : Editing} {p : Sketch}

theorem looks_self (right : s.workspace.Fits nodes) (among : s.ropes ⊆ nodes)
    (terminated : s.workspace.string.Terminated) :
    s.Looks nodes ⟨(s.workspace.string.encoding, s.workspace.string.content),
      s.ropes.map fun r => (r.encoding, r.toBytes)⟩ :=
  ⟨⟨right, rfl, rfl, terminated⟩, among, rfl⟩

/-- A call that gives no rope leaves the ropes of the client alone. -/
theorem Looks.call {α : Type} {op : StringOp α} {answer : α → Reply} {c : Call} (h : s.Looks nodes p)
    (does : c.op = op >>= fun a => pure (answer a)) (plain : ∀ a r, answer a ≠ .rope r)
    (grown : nodes ⊆ more) {e : Encoding} {bytes : List UInt8}
    (shown : (op.run.run s.workspace).2.Shows more e bytes) :
    (s.call c).1 = (op.run.run s.workspace).1.map answer ∧
      (s.call c).2.Looks more { p with string := (e, bytes) } := by
  have ran : c.run s.workspace =
      ((op.run.run s.workspace).1.map answer, (op.run.run s.workspace).2) := by
    rw [Call.run, does, StringOp.run_answering]
  have called : s.call c = ((op.run.run s.workspace).1.map answer,
      ⟨(op.run.run s.workspace).2, s.ropes⟩) := by
    simp only [Editing.call, ran]
    cases answered : (op.run.run s.workspace).1 with
    | error fault => rfl
    | ok a =>
      simp only [Except.map]
      split
      next r given => exact absurd (Except.ok.inj given) (plain a r)
      next => rfl
  rw [called]
  exact ⟨rfl, shown, List.Subset.trans h.among grown, h.ropes⟩

/-- A rope that the client gets looks to it like what it denotes. -/
theorem Looks.give {w : Workspace} {r : Rope} {e : Encoding} {bytes : List UInt8}
    (h : s.Looks nodes p) (grown : nodes ⊆ more) (shown : w.Shows more p.string.1 p.string.2)
    (denotes : r.Denotes more e bytes) :
    Looks more ⟨w, s.ropes ++ [r]⟩ { p with ropes := p.ropes ++ [(e, bytes)] } ∧
      tell ⟨w, s.ropes ++ [r]⟩ (.ok (.rope r)) = .rope e bytes := by
  constructor
  · refine ⟨shown, List.append_subset.2 ⟨List.Subset.trans h.among grown, ?_⟩, ?_⟩
    · exact List.cons_subset.2 ⟨denotes.known, List.nil_subset _⟩
    · simp [← h.ropes, denotes.encoding, denotes.toBytes]
  · simp only [tell, denotes.encoding, (Rope.bytes_answers denotes.known _ shown.fits.ledger).2,
      denotes.toBytes]

/-- A question leaves the look of things as it is, and its answer is the one expected. -/
theorem Looks.ask {α : Type} {op : StringOp α} {answer : α → Reply} {c : Call} {expected : Except Fault α}
    (h : s.Looks nodes p) (does : c.op = op >>= fun a => pure (answer a))
    (plain : ∀ a r, answer a ≠ .rope r)
    (answered : (op.run.run s.workspace).1 = expected ∧
      (op.run.run s.workspace).2.Shows nodes p.string.1 p.string.2) :
    (∃ more, nodes ⊆ more ∧ (s.call c).2.Looks more p) ∧ (s.call c).1 = expected.map answer := by
  obtain ⟨called, looks⟩ := h.call does plain (List.Subset.refl _) answered.2
  exact ⟨⟨nodes, List.Subset.refl _, looks⟩, answered.1 ▸ called⟩

theorem Looks.serve (h : s.Looks nodes p) {q : Request}
    (within : q.Within s.workspace.string.byteLength) :
    (∃ more, nodes ⊆ more ∧ (s.serve q).2.Looks more (p.serve q).2) ∧
      (q ≠ .toNative → (s.serve q).2.tell (s.serve q).1 = (p.serve q).1) := by
  have size : s.workspace.string.byteLength = p.string.2.length := h.string.byteLength
  cases q with
  | toNative =>
    have shown := StringOp.toNative_shows h.string
    obtain ⟨looks, _⟩ := h.ask (c := .toNative) rfl nofun ⟨rfl, shown⟩
    exact ⟨looks, fun moves => absurd rfl moves⟩
  | getByte index =>
    obtain ⟨looks, called⟩ := h.ask (c := .getByte index) rfl nofun
      (StringOp.getByte_shows h.string index)
    refine ⟨looks, fun _ => ?_⟩
    rw [Editing.serve, called, Sketch.serve]
    cases byteAt? p.string.2 index <;> rfl
  | bytes =>
    obtain ⟨looks, called⟩ := h.ask (c := .bytes) rfl nofun (StringOp.bytes_shows h.string)
    exact ⟨looks, fun _ => congrArg (tell _) called⟩
  | codeRange =>
    obtain ⟨looks, called⟩ := h.ask (c := .codeRange) rfl nofun (StringOp.codeRange_shows h.string)
    exact ⟨looks, fun _ => congrArg (tell _) called⟩
  | characterLength =>
    obtain ⟨looks, called⟩ := h.ask (c := .characterLength) rfl nofun
      (StringOp.characterLength_shows h.string)
    exact ⟨looks, fun _ => congrArg (tell _) called⟩
  | cLength =>
    obtain ⟨looks, called⟩ := h.ask (c := .cLength) rfl nofun (StringOp.cLength_shows h.string)
    exact ⟨looks, fun _ => congrArg (tell _) called⟩
  | getRope =>
    obtain ⟨more, r, grown, given, denotes, shown⟩ := StringOp.getRope_shows h.string
    obtain ⟨looks, told⟩ := h.give grown shown denotes
    have called : s.call .getRope =
        (.ok (.rope r), ⟨(StringOp.getRope.run.run s.workspace).2, s.ropes ++ [r]⟩) := by
      have ran : Call.run .getRope s.workspace =
          (.ok (.rope r), (StringOp.getRope.run.run s.workspace).2) := by
        rw [Call.run, Call.op, StringOp.run_answering, given]
        rfl
      rw [Editing.call, ran]
    simp only [Editing.serve, called]
    exact ⟨⟨more, grown, looks⟩, fun _ => told⟩
  | read index =>
    have reached : index ≤ p.string.2.length := size ▸ within
    obtain ⟨looks, called⟩ := h.ask (c := .read index) rfl nofun
      (StringOp.read_shows h.string reached)
    exact ⟨looks, fun _ => congrArg (tell _) called⟩
  | write index byte =>
    have inside : index < p.string.2.length := size ▸ within
    obtain ⟨answer, more, grown, shown⟩ := StringOp.write_shows h.string inside byte
    obtain ⟨called, looks⟩ := h.call (c := .write index byte) rfl nofun grown
      shown
    rw [answer] at called
    exact ⟨⟨more, grown, looks⟩, fun _ => congrArg (tell _) called⟩
  | setRope i =>
    have same : p.ropes[i]? = s.ropes[i]?.map fun r => (r.encoding, r.toBytes) := by
      rw [← h.ropes, List.getElem?_map]
    simp only [Editing.serve, Sketch.serve, same]
    cases held : s.ropes[i]? with
    | none => exact ⟨⟨nodes, List.Subset.refl _, h⟩, fun _ => rfl⟩
    | some r =>
      have denotes := Rope.denotes_self (h.among (List.mem_of_getElem? held))
      have shown := StringOp.setRope_shows h.string denotes
      obtain ⟨called, looks⟩ := h.call (c := .setRope r) rfl nofun (List.Subset.refl _) shown
      exact ⟨⟨nodes, List.Subset.refl _, looks⟩, fun _ => congrArg (tell _) called⟩
  | newRope e bytes =>
    obtain ⟨more, grown, fits, denotes⟩ := Rope.ofBytes_makes (e := e) (x := .unknown)
      Reading.exact_lawful bytes.2 (by simp) _ h.string.fits.ledger
    have shown := h.string.later grown fits
    obtain ⟨looks, told⟩ := h.give grown shown denotes
    exact ⟨⟨more, grown, looks⟩, fun _ => told⟩

/-- The answers are those that labels and bytes give, wherever the string is moved. -/
theorem Looks.answers {requests : List Request} (h : s.Looks nodes p) (within : s.Within requests) :
    s.answers requests = p.answers requests := by
  induction requests generalizing nodes s p with
  | nil => rfl
  | cons q rest ih =>
    obtain ⟨⟨more, _, looks⟩, told⟩ := h.serve within.1
    have later := ih looks within.2
    cases q with
    | toNative => exact later
    | _ => exact (congrArg (List.cons · _) (told nofun)).trans (congrArg (List.cons _) later)

theorem Looks.within_iff {requests : List Request} (h : s.Looks nodes p) :
    s.Within requests ↔ p.Within requests := by
  induction requests generalizing nodes s p with
  | nil => rfl
  | cons q rest ih =>
    simp only [Editing.Within, Sketch.Within, h.string.byteLength]
    refine and_congr_right fun within => ?_
    obtain ⟨⟨more, _, looks⟩, _⟩ := h.serve (q := q) (h.string.byteLength ▸ within)
    exact ih looks

/-- Moves to native memory, at whatever places and with whatever success, change no answer. -/
theorem toNative_transparent {s : Editing} (fits : s.Fits)
    (managed : s.workspace.string.isNative = false) {requests : List Request}
    (within : s.Within requests) :
    s.answers requests = s.answers (requests.filter Request.isStill) := by
  obtain ⟨nodes, right, among⟩ := fits
  have looks := looks_self right among (OwnedString.terminated_of_managed managed)
  have still := looks.within_iff.2 (looks.within_iff.1 within).still
  rw [looks.answers within, looks.answers still, Sketch.answers_still]

/-- Two characters, moved twice, once after a write and once after a rope has replaced them. -/
def moved : List Request :=
  [.getRope, .write 1 0x62, .toNative, .codeRange, .read 3, .setRope 1, .toNative, .cLength]

theorem moved_within (ropes : List (Encoding × List UInt8)) :
    Sketch.Within ⟨(.utf8, [0x61, 0xC3, 0xA9]), ropes⟩ moved :=
  ⟨trivial, show 1 < 3 by decide, trivial, trivial, show 3 ≤ 3 by decide, trivial, trivial, trivial,
    trivial⟩

end Editing

open Editing in
theorem Editing.toNative_transparent_moved :
    ∃ s, Begins s ∧ s.workspace.string.content = [0x61, 0xC3, 0xA9] ∧
      s.Within moved ∧ s.answers moved = s.answers (moved.filter OwnedString.Request.isStill) := by
  have honest : ∀ call ∈ [Rope.Action.ofBytes .utf8 ⟨[0x61, 0xC3, 0xA9], by decide⟩ .unknown],
      call.Honest := by
    simp [Rope.Action.Honest]
  have begins := Begins.managed honest (List.mem_of_getElem? (i := 0) rfl) {}
  refine ⟨_, begins, rfl, ?_⟩
  obtain ⟨nodes, right, among⟩ := begins.fits
  have within := (looks_self right among trivial).within_iff.2 (moved_within _)
  exact ⟨within, toNative_transparent begins.fits rfl within⟩

end RopeBridge
