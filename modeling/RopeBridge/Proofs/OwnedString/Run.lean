import RopeBridge.Proofs.OwnedString.Primitives
import RopeBridge.Proofs.Rope.Client

/-! Runs of primitives on one string. The string tells the truth about its content as long as no
length is set that exposes a byte behind it; from there on it claims plain ASCII of a content that
is not. -/
namespace RopeBridge

/-- A string, the ropes a client holds beside it and the ledger they share. -/
structure Editing where
  workspace : Workspace
  ropes : List Rope

namespace OwnedString

/-- A call that concerns a string, or one to ropes in between. -/
inductive Action where
  | toNative | capacity
  | setLength (n : Nat)
  | resize (n : Nat)
  | clearCodeRange
  | read (index : Nat)
  | write (index : Nat) (byte : UInt8)
  /-- Makes one of the ropes of the client the content. -/
  | setRope (rope : Nat)
  /-- Gives the client the content as a rope. -/
  | getRope
  | codeRange | characterLength | bytes
  | ropes (call : Rope.Action)

end OwnedString

namespace Editing

open OwnedString (Action)

/-- Runs an operation on the string; what it did before a failure is kept. -/
def after {α : Type} (s : Editing) (op : StringOp α) : Editing :=
  { s with workspace := (op.run.run s.workspace).2 }

def step (s : Editing) : Action → Editing
  | .toNative => s.after StringOp.toNative
  | .capacity => s.after StringOp.capacity
  | .setLength n => s.after (StringOp.setLength n)
  | .resize n => s.after (StringOp.resize n)
  | .clearCodeRange => s.after StringOp.clearCodeRange
  | .read index => s.after (StringOp.read index)
  | .write index byte => s.after (StringOp.write index byte)
  | .setRope i =>
    match s.ropes[i]? with
    | some r => s.after (StringOp.setRope r)
    | none => s
  | .getRope =>
    let (result, workspace) := StringOp.getRope.run.run s.workspace
    ⟨workspace, s.ropes ++ result.toOption.toList⟩
  | .codeRange => s.after StringOp.codeRange
  | .characterLength => s.after StringOp.characterLength
  | .bytes => s.after StringOp.bytes
  | .ropes call =>
    let c := Collection.step ⟨s.workspace.ledger, s.ropes⟩ call
    ⟨{ s.workspace with ledger := c.ledger }, c.ropes⟩

def run (s : Editing) (actions : List Action) : Editing := actions.foldl step s

/-- How a string begins: over a rope of an honest client, or as zeros in native memory. -/
inductive Begins : Editing → Prop where
  | managed {calls : List Rope.Action} {r : Rope} (honest : ∀ call ∈ calls, call.Honest)
      (held : r ∈ (Collection.start.run calls).ropes) (finalization : Finalization) :
      Begins ⟨⟨.managed r, (Collection.start.run calls).ledger, finalization⟩,
        (Collection.start.run calls).ropes⟩
  | zeros {calls : List Rope.Action} {f f' : Finalization} {n : Nat} {t : NativeText}
      (honest : ∀ call ∈ calls, call.Honest) (made : NativeText.zeros f n n .binary = .ok (t, f')) :
      Begins ⟨⟨.native t, (Collection.start.run calls).ledger, f'⟩,
        (Collection.start.run calls).ropes⟩

end Editing

/-- Calls to ropes are those of an honest client. -/
def OwnedString.Action.Honest : Action → Prop
  | ropes call => call.Honest
  | _ => True

/-- What a string and its content as a rope answer is what a scan of its bytes finds. -/
structure Workspace.Truthful (w : Workspace) : Prop where
  bytes : (StringOp.bytes.run.run w).1 = .ok w.string.content
  codeRange : (StringOp.codeRange.run.run w).1 =
    .ok (w.string.encoding.scan w.string.content).codeRange
  characterLength : (StringOp.characterLength.run.run w).1 =
    .ok (w.string.encoding.scan w.string.content).characters
  rope : ∃ r w', StringOp.getRope.run.run w = (.ok r, w') ∧ r.encoding = w.string.encoding ∧
    (r.bytes.run w'.ledger).1 = w.string.content ∧ r.Truthful w'.ledger

theorem Workspace.Fits.truthful {nodes : List Rope} {w : Workspace} (h : w.Fits nodes) :
    w.Truthful where
  bytes := (StringOp.bytes_fits h).1
  codeRange := (StringOp.codeRange_fits h).1
  characterLength := (StringOp.characterLength_fits h).1
  rope := by
    obtain ⟨more, r, _, given, fits, denotes⟩ := StringOp.getRope_fits h
    refine ⟨r, _, Prod.ext given rfl, denotes.encoding, ?_, ?_⟩
    · rw [(Rope.bytes_answers denotes.known _ fits.ledger).2, denotes.toBytes]
    · exact Rope.truthful_of_fits fits.ledger denotes.known

namespace Editing

open OwnedString (Action)

/-- The string and the ropes of the client are right over one ledger. -/
def Fits (s : Editing) : Prop := ∃ nodes, s.workspace.Fits nodes ∧ s.ropes ⊆ nodes

theorem Begins.fits {s : Editing} (begins : Begins s) : s.Fits := by
  have collection : ∀ {calls : List Rope.Action}, (∀ call ∈ calls, call.Honest) →
      (Collection.start.run calls).Fits .exact := by
    intro calls honest
    exact Collection.run_fits Reading.exact_lawful (Collection.start_fits Reading.exact_lawful)
      fun call member => (honest call member).trusted
  cases begins with
  | managed honest held f =>
    obtain ⟨nodes, right, among⟩ := collection honest
    exact ⟨nodes, ⟨right, among held⟩, among⟩
  | zeros honest made =>
    obtain ⟨nodes, right, among⟩ := collection honest
    exact ⟨nodes, ⟨right, NativeText.zeros_fits made⟩, among⟩

/-- The call sets a length that exposes a byte. -/
def Exposed (s : Editing) : Action → Prop
  | .setLength n => s.workspace.string.Exposes n
  | _ => False

theorem step_fits {s : Editing} (h : s.Fits) {a : Action} (honest : a.Honest)
    (hidden : ¬ s.Exposed a) : (s.step a).Fits := by
  obtain ⟨nodes, fits, among⟩ := h
  cases a with
  | toNative => exact ⟨nodes, (StringOp.toNative_fits fits).1, among⟩
  | capacity => exact ⟨nodes, StringOp.capacity_fits fits, among⟩
  | setLength n => exact ⟨nodes, StringOp.setLength_fits fits hidden, among⟩
  | resize n => exact ⟨nodes, StringOp.resize_fits fits n, among⟩
  | clearCodeRange => exact ⟨nodes, StringOp.clearCodeRange_fits fits, among⟩
  | read index => exact ⟨nodes, StringOp.read_fits fits index, among⟩
  | write index byte =>
    obtain ⟨more, grown, fits'⟩ := StringOp.write_fits fits index byte
    exact ⟨more, fits', List.Subset.trans among grown⟩
  | setRope i =>
    simp only [step]
    split
    next r found =>
      exact ⟨nodes, ⟨fits.ledger, among (List.mem_of_getElem? found)⟩, among⟩
    next => exact ⟨nodes, fits, among⟩
  | getRope =>
    obtain ⟨more, r, grown, given, fits', denotes⟩ := StringOp.getRope_fits fits
    have new : (StringOp.getRope.run.run s.workspace).1.toOption.toList ⊆ more := by
      rw [given]
      exact List.cons_subset.2 ⟨denotes.known, List.nil_subset _⟩
    exact ⟨more, fits', List.append_subset.2 ⟨List.Subset.trans among grown, new⟩⟩
  | codeRange => exact ⟨nodes, (StringOp.codeRange_fits fits).2, among⟩
  | characterLength => exact ⟨nodes, (StringOp.characterLength_fits fits).2, among⟩
  | bytes => exact ⟨nodes, (StringOp.bytes_fits fits).2, among⟩
  | ropes call =>
    obtain ⟨more, grown, right, among'⟩ := Collection.step_grows Reading.exact_lawful
      (c := ⟨s.workspace.ledger, s.ropes⟩) fits.ledger among honest.trusted
    exact ⟨more, ⟨right, fits.string.mono grown⟩, among'⟩

/-- As long as nothing is exposed, all is right after every run. -/
theorem run_fits {s : Editing} (h : s.Fits) {actions : List Action}
    (honest : ∀ a ∈ actions, a.Honest)
    (hidden : ∀ front a back, actions = front ++ a :: back → ¬ (s.run front).Exposed a) :
    (s.run actions).Fits := by
  induction actions generalizing s with
  | nil => exact h
  | cons a rest ih =>
    have first := step_fits h (honest a List.mem_cons_self) (hidden [] a rest rfl)
    refine ih first (fun b later => honest b (List.mem_cons_of_mem _ later)) ?_
    intro front b back split
    exact hidden (a :: front) b back (by rw [split]; rfl)

/-- A string tells the truth all through a run exactly if the run exposes nothing. -/
theorem truthful_iff_hidden {s : Editing} (begins : Begins s) {actions : List Action}
    (honest : ∀ a ∈ actions, a.Honest) :
    (∀ front back, actions = front ++ back → (s.run front).workspace.Truthful) ↔
      ∀ front n back, actions = front ++ .setLength n :: back →
        ¬ (s.run front).workspace.string.Exposes n := by
  constructor
  · intro truthful front n back split exposes
    have after := truthful (front ++ [.setLength n]) back (by simp [split])
    have said := after.codeRange
    have last : s.run (front ++ [.setLength n]) = (s.run front).step (.setLength n) := by
      simp [run]
    rw [last] at said
    exact StringOp.setLength_false exposes said
  · intro hidden front back split
    have honest' : ∀ a ∈ front, a.Honest := fun a member => honest a (by simp [split, member])
    have fits : (s.run front).Fits := by
      refine run_fits begins.fits honest' fun front' a back' split' => ?_
      cases a with
      | setLength n => exact hidden front' n (back' ++ back) (by simp [split, split'])
      | _ => exact id
    obtain ⟨nodes, right, _⟩ := fits
    exact right.truthful

/-- A character is cut off, and put back behind what is then found to be plain ASCII. -/
def regained : List Action := [.resize 1, .codeRange, .write 1 0xC3, .setLength 3]

end Editing

open Editing in
theorem Editing.truthful_iff_hidden_regained :
    ∃ s, Begins s ∧ s.workspace.string.content = [0x61, 0xC3, 0xA9] ∧
      (s.run regained).workspace.string.content = [0x61, 0xC3, 0xA9] ∧
      ¬ ∀ front back, regained = front ++ back → (s.run front).workspace.Truthful := by
  have honest : ∀ call ∈ [Rope.Action.ofBytes .utf8 ⟨[0x61, 0xC3, 0xA9], by decide⟩ .unknown],
      call.Honest := by
    simp [Rope.Action.Honest]
  have begins := Begins.managed honest (List.mem_of_getElem? (i := 0) rfl) {}
  refine ⟨_, begins, rfl, rfl, ?_⟩
  rw [truthful_iff_hidden begins (by simp [regained, OwnedString.Action.Honest])]
  intro hidden
  exact hidden [.resize 1, .codeRange, .write 1 0xC3] 3 [] rfl
    ⟨_, rfl, rfl, by decide, 2, by decide, by decide, rfl⟩

end RopeBridge
