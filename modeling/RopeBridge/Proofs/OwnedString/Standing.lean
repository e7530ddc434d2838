import RopeBridge.Proofs.OwnedString.Buffers
import RopeBridge.Proofs.OwnedString.Transparency

/-! Strings in any hands. Neither honest clients nor right metadata are needed for a string to be
where it should be: a rope of the ledger, or a text within its buffer. Every call leaves it so, and
gives native code a text that shows what the string held. -/

namespace RopeBridge

/-- A string that is where it should be, whatever is known of it. -/
def OwnedString.Stands (nodes : List Rope) : OwnedString → Prop
  | managed r => r ∈ nodes
  | native t => t.Contained

theorem OwnedString.Stands.mono {nodes more : List Rope} {s : OwnedString} (h : s.Stands nodes)
    (grown : nodes ⊆ more) : s.Stands more := by
  cases s with
  | managed r => exact grown h
  | native t => exact h

structure Workspace.Stands (nodes : List Rope) (w : Workspace) : Prop where
  ledger : w.ledger.Fits .any nodes
  string : w.string.Stands nodes

/-- A question to ropes does not concern the string. -/
theorem Workspace.Stands.asked {nodes : List Rope} {w : Workspace} {α : Type} {q : Query α}
    {P : α → Prop} (h : w.Stands nodes) (answers : q.Answers .any nodes P) :
    ({ w with ledger := (q.run w.ledger).2 } : Workspace).Stands nodes :=
  ⟨(answers w.ledger h.ledger).1, h.string⟩

/-- A call uses ropes that are known. -/
def OwnedString.Call.Knows (nodes : List Rope) : Call → Prop
  | setRope r => r ∈ nodes
  | _ => True

namespace StringOp

variable {nodes : List Rope} {w : Workspace}

theorem codeRange_stands (h : w.Stands nodes) : (codeRange.run.run w).2.Stands nodes := by
  obtain ⟨string, ledger, finalization⟩ := w
  cases string with
  | managed r => exact h.asked (Rope.codeRange_answers Reading.any_lawful h.string)
  | native t => exact ⟨h.ledger, h.string.only t.codeRange_only⟩

theorem characterLength_stands (h : w.Stands nodes) :
    (characterLength.run.run w).2.Stands nodes := by
  obtain ⟨string, ledger, finalization⟩ := w
  cases string with
  | managed r => exact h.asked (Rope.characterLength_answers Reading.any_lawful h.string)
  | native t => exact ⟨h.ledger, h.string.only t.characterLength_only⟩

theorem bytes_stands (h : w.Stands nodes) :
    (bytes.run.run w).1 = .ok w.string.content ∧ (bytes.run.run w).2.Stands nodes := by
  obtain ⟨string, ledger, finalization⟩ := w
  cases string with
  | managed r =>
    have answers := Rope.bytes_answers (R := .any) h.string
    exact ⟨congrArg Except.ok (answers ledger h.ledger).2, h.asked answers⟩
  | native t => exact ⟨rfl, h⟩

theorem build_getByte_stands {r : Rope} (h : w.Stands nodes) (known : r ∈ nodes) (index : Nat) :
    ((build (r.getByte index)).run.run w).2.Stands nodes := by
  rw [run_build]
  exact h.asked (Rope.getByte_answers known index)

theorem getByte_stands (h : w.Stands nodes) (index : Nat) :
    ((getByte index).run.run w).2.Stands nodes := by
  obtain ⟨string, ledger, finalization⟩ := w
  cases string with
  | managed r => exact build_getByte_stands h h.string index
  | native t => exact h

theorem cLength_stands (h : w.Stands nodes) : (cLength.run.run w).2.Stands nodes := by
  obtain ⟨string, ledger, finalization⟩ := w
  cases string with
  | managed r => exact h.asked (Rope.bytes_answers h.string)
  | native t => exact h

theorem clearCodeRange_stands (h : w.Stands nodes) :
    (clearCodeRange.run.run w).2.Stands nodes := by
  obtain ⟨string, ledger, finalization⟩ := w
  cases string with
  | managed r => exact h
  | native t => exact ⟨h.ledger, h.string.other {}⟩

theorem read_stands (h : w.Stands nodes) (index : Nat) :
    ((read index).run.run w).2.Stands nodes := by
  obtain ⟨string, ledger, finalization⟩ := w
  cases string with
  | managed r =>
    simp only [read, run_bind, run_current]
    split
    · exact build_getByte_stands h h.string index
    · exact h
  | native t => exact h

theorem write_stands (h : w.Stands nodes) (index : Nat) (byte : UInt8) :
    ∃ more, nodes ⊆ more ∧ ((write index byte).run.run w).2.Stands more := by
  obtain ⟨string, ledger, finalization⟩ := w
  cases string with
  | managed r =>
    obtain ⟨more, copy, l', grown, fits, known, ran⟩ :=
      write_managed Reading.any_lawful h.string h.ledger finalization index byte
    rw [ran]
    exact ⟨more, grown, fits, known⟩
  | native t =>
    obtain ⟨t', ran, rfl | written⟩ := write_native t ledger finalization index byte
    · rw [ran]
      exact ⟨nodes, List.Subset.refl _, h⟩
    · rw [ran]
      exact ⟨nodes, List.Subset.refl _, h.ledger, NativeText.setByte_contained h.string written⟩

theorem getRope_stands (h : w.Stands nodes) :
    ∃ more r, nodes ⊆ more ∧ (getRope.run.run w).1 = .ok r ∧
      (getRope.run.run w).2.Stands more ∧ r ∈ more := by
  obtain ⟨string, ledger, finalization⟩ := w
  cases string with
  | managed r => exact ⟨nodes, r, List.Subset.refl _, rfl, h, h.string⟩
  | native t =>
    obtain ⟨more, grown, fits, denotes⟩ := NativeText.toRope_makes Reading.any_lawful h.string
      ⟨fun _ => trivial, fun _ _ => trivial⟩ ledger h.ledger
    exact ⟨more, _, grown, rfl, ⟨fits, h.string⟩, denotes.known⟩

/-- The text that native code gets shows what the string held, also behind its end. -/
structure Hands (w : Workspace) (t : NativeText) : Prop where
  contained : t.Contained
  content : t.bytes = w.string.content
  byteLength : t.byteLength = w.string.byteLength
  terminated : t.buffer.byte t.byteLength = 0 ↔ w.string.Terminated

theorem toNative_stands (h : w.Stands nodes) :
    (toNative.run.run w).2.Stands nodes ∧
      ∀ t, (toNative.run.run w).1 = .ok t → Hands w t := by
  obtain ⟨string, ledger, finalization⟩ := w
  cases string with
  | managed r =>
    obtain ⟨l', fits, ⟨fault, ran⟩ | ⟨t, f', ran, copy⟩⟩ :=
      toNative_managed h.string h.ledger finalization
    · rw [ran]
      exact ⟨⟨fits, h.string⟩, by simp⟩
    · rw [ran]
      refine ⟨⟨fits, copy.contained⟩, ?_⟩
      rintro _ ⟨⟩
      refine ⟨copy.contained, copy.bytes, ?_, fun _ => trivial,
        fun _ => copy.behind _ (Nat.le_refl _)⟩
      rw [← t.length_bytes, copy.bytes]
      exact (h.ledger.sound r h.string).length_toBytes
  | native t =>
    refine ⟨h, ?_⟩
    rintro _ ⟨⟩
    exact ⟨h.string, rfl, rfl, Iff.rfl⟩

/-- A change that keeps texts within their buffers keeps the string where it should be. -/
theorem adjust_stands (h : w.Stands nodes)
    {change : NativeText → Finalization → Except Fault (NativeText × Finalization)}
    (kept : ∀ t f t' f', t.Contained → change t f = .ok (t', f') → t'.Contained) :
    ((adjust change).run.run w).2.Stands nodes := by
  obtain ⟨stands, hands⟩ := toNative_stands h
  rw [adjust_run]
  generalize toNative.run.run w = moved at stands hands
  obtain ⟨fault | t, w'⟩ := moved
  · exact stands
  · cases changed : change t w'.finalization with
    | error fault => simpa [changed] using stands
    | ok result =>
      obtain ⟨t', f'⟩ := result
      simp only [changed]
      exact ⟨stands.ledger, kept t _ t' f' (hands t rfl).contained changed⟩

/-- The text that a change has found, and what it has made of it. -/
theorem adjust_done (h : w.Stands nodes) {w' : Workspace}
    {change : NativeText → Finalization → Except Fault (NativeText × Finalization)}
    (done : (adjust change).run.run w = (.ok (), w')) :
    ∃ t f t' f', Hands w t ∧ change t f = .ok (t', f') ∧ w'.string = .native t' := by
  obtain ⟨_, hands⟩ := toNative_stands h
  rw [adjust_run] at done
  generalize toNative.run.run w = moved at hands done
  obtain ⟨fault | t, v⟩ := moved
  · cases done
  · cases changed : change t v.finalization with
    | error fault =>
      simp only [changed] at done
      cases done
    | ok result =>
      simp only [changed] at done
      cases done
      exact ⟨t, _, _, _, hands t rfl, changed, rfl⟩

theorem setLength_stands (h : w.Stands nodes) (n : Nat) :
    ((setLength n).run.run w).2.Stands nodes := by
  refine adjust_stands h fun t f t' f' contained set => ?_
  split at set <;> exact (NativeText.setByteLength_cut contained set).1.contained

theorem resize_stands (h : w.Stands nodes) (n : Nat) :
    ((resize n).run.run w).2.Stands nodes := by
  refine adjust_stands h fun t f t' f' contained resized => ?_
  split at resized
  · cases resized
    exact contained.other {}
  · exact (NativeText.resize_cut contained resized).1.contained

end StringOp

namespace OwnedString.Call

variable {nodes : List Rope} {w : Workspace}

/-- A call that answers with no rope has to keep the string standing. -/
theorem stands_of {α : Type} {op : StringOp α} {answer : α → Reply} {call : Call}
    (does : call.op = op >>= fun a => pure (answer a)) (plain : ∀ a r, answer a ≠ .rope r)
    (stands : ∃ more, nodes ⊆ more ∧ (op.run.run w).2.Stands more) :
    ∃ more, nodes ⊆ more ∧ (call.run w).2.Stands more ∧
      ∀ r, (call.run w).1 = .ok (.rope r) → r ∈ more := by
  obtain ⟨more, grown, stands⟩ := stands
  rw [run, does, StringOp.run_answering]
  refine ⟨more, grown, stands, fun r given => ?_⟩
  cases answered : (op.run.run w).1 with
  | error fault => simp [answered, Except.map] at given
  | ok a =>
    rw [answered] at given
    exact absurd (Except.ok.inj given) (plain a r)

theorem stands (h : w.Stands nodes) {call : Call} (knows : call.Knows nodes) :
    ∃ more, nodes ⊆ more ∧ (call.run w).2.Stands more ∧
      ∀ r, (call.run w).1 = .ok (.rope r) → r ∈ more := by
  have same {w' : Workspace} (stands : w'.Stands nodes) :
      ∃ more, nodes ⊆ more ∧ w'.Stands more := ⟨nodes, List.Subset.refl _, stands⟩
  have native := (StringOp.toNative_stands h).1
  cases call with
  | toNative => exact stands_of rfl (by simp) (same native)
  | capacity =>
    have asked : (StringOp.capacity.run.run w).2.Stands nodes := by
      rwa [StringOp.capacity, StringOp.run_answering]
    exact stands_of rfl (by simp) (same asked)
  | setLength n => exact stands_of rfl (by simp) (same (StringOp.setLength_stands h n))
  | resize n => exact stands_of rfl (by simp) (same (StringOp.resize_stands h n))
  | clearCodeRange => exact stands_of rfl (by simp) (same (StringOp.clearCodeRange_stands h))
  | read index => exact stands_of rfl (by simp) (same (StringOp.read_stands h index))
  | write index byte => exact stands_of rfl (by simp) (StringOp.write_stands h index byte)
  | cLength => exact stands_of rfl (by simp) (same (StringOp.cLength_stands h))
  | setRope r =>
    have replaced : ((StringOp.setRope r).run.run w).2.Stands nodes := ⟨h.ledger, knows⟩
    exact stands_of rfl (by simp) (same replaced)
  | getRope =>
    obtain ⟨more, r, grown, given, stands, known⟩ := StringOp.getRope_stands h
    rw [run, op, StringOp.run_answering, given]
    refine ⟨more, grown, stands, ?_⟩
    rintro _ ⟨⟩
    exact known
  | codeRange => exact stands_of rfl (by simp) (same (StringOp.codeRange_stands h))
  | characterLength => exact stands_of rfl (by simp) (same (StringOp.characterLength_stands h))
  | bytes => exact stands_of rfl (by simp) (same (StringOp.bytes_stands h).2)
  | getByte index => exact stands_of rfl (by simp) (same (StringOp.getByte_stands h index))

end OwnedString.Call

/-- A call keeps the string standing, and the rope that it may give is known. -/
theorem Editing.call_stands {s : Editing} {nodes : List Rope} (right : s.workspace.Stands nodes)
    (among : s.ropes ⊆ nodes) {c : OwnedString.Call} (held : c.Knows s.ropes) :
    ∃ more, nodes ⊆ more ∧ (s.call c).2.workspace.Stands more ∧ (s.call c).2.ropes ⊆ more := by
  have knows : c.Knows nodes := by
    cases c with
    | setRope r => exact among held
    | _ => trivial
  obtain ⟨more, grown, stands, given⟩ := OwnedString.Call.stands right knows
  have among' := List.Subset.trans among grown
  simp only [Editing.call]
  generalize c.run s.workspace = ran at stands given
  obtain ⟨reply, w'⟩ := ran
  dsimp only at stands given ⊢
  split
  next r =>
    exact ⟨more, grown, stands, List.append_subset.2 ⟨among', by simpa using given r rfl⟩⟩
  next => exact ⟨more, grown, stands, among'⟩

/-- Strings beside the ropes of a client, all over one ledger. -/
structure Strings where
  strings : List OwnedString
  ropes : Collection

namespace Strings

open OwnedString (Call)

/-- One of the strings as it is worked on, with the finalizers there are. -/
def edit (s : Strings) (x : OwnedString) (f : Finalization) : Editing :=
  ⟨⟨x, s.ropes.ledger, f⟩, s.ropes.ropes⟩

/-- What is left when a string has been worked on. -/
def put (s : Strings) (i : Nat) (e : Editing) : Strings :=
  ⟨s.strings.set i e.workspace.string, ⟨e.workspace.ledger, e.ropes⟩⟩

/-- Where any history leads. Strings are made over ropes, which are made and described as the client
likes, or in native memory. Calls to them and to ropes come in any order, and each finds the
finalizers as others have left them. -/
inductive Reached : Strings → Prop where
  | start : Reached ⟨[], .start⟩
  | ropes {s : Strings} (before : Reached s) (call : Rope.Action) :
      Reached { s with ropes := s.ropes.step call }
  | managed {s : Strings} (before : Reached s) {r : Rope} (held : r ∈ s.ropes.ropes) :
      Reached { s with strings := .managed r :: s.strings }
  | zeros {s : Strings} (before : Reached s) {f f' : Finalization} {n capacity : Nat} {e : Encoding}
      {t : NativeText} (made : NativeText.zeros f n capacity e = .ok (t, f')) :
      Reached { s with strings := .native t :: s.strings }
  | call {s : Strings} (before : Reached s) {i : Nat} {x : OwnedString}
      (present : s.strings[i]? = some x) (f : Finalization) {c : Call}
      (held : c.Knows s.ropes.ropes) : Reached (s.put i ((s.edit x f).call c).2)

/-- All strings and all ropes of the client stand over the ledger. -/
structure Stand (nodes : List Rope) (s : Strings) : Prop where
  ledger : s.ropes.ledger.Fits .any nodes
  ropes : s.ropes.ropes ⊆ nodes
  strings : ∀ x ∈ s.strings, x.Stands nodes

variable {s : Strings} {nodes : List Rope}

theorem Stand.workspace (h : s.Stand nodes) {x : OwnedString} (present : x ∈ s.strings)
    (f : Finalization) : (s.edit x f).workspace.Stands nodes :=
  ⟨h.ledger, h.strings x present⟩

theorem Stand.make (h : s.Stand nodes) {x : OwnedString} (stands : x.Stands nodes) :
    Stand nodes { s with strings := x :: s.strings } :=
  ⟨h.ledger, h.ropes, List.forall_mem_cons.2 ⟨stands, h.strings⟩⟩

theorem Stand.step (h : s.Stand nodes) (call : Rope.Action) :
    ∃ more, Stand more { s with ropes := s.ropes.step call } := by
  obtain ⟨more, grown, fits, among⟩ :=
    Collection.step_grows Reading.any_lawful h.ledger h.ropes call.trusted_any
  exact ⟨more, fits, among, fun x present => (h.strings x present).mono grown⟩

theorem Stand.call (h : s.Stand nodes) {i : Nat} {x : OwnedString}
    (present : s.strings[i]? = some x) (f : Finalization) {c : Call}
    (held : c.Knows s.ropes.ropes) : ∃ more, Stand more (s.put i ((s.edit x f).call c).2) := by
  have right := h.workspace (List.mem_of_getElem? present) f
  obtain ⟨more, grown, stands, among⟩ := Editing.call_stands right h.ropes held
  refine ⟨more, stands.ledger, among, fun y member => ?_⟩
  -- Nodes are added and never lost, which is all that the other strings need.
  obtain old | rfl := List.mem_or_eq_of_mem_set member
  · exact (h.strings y old).mono grown
  · exact stands.string

theorem Reached.stand (reached : Reached s) : ∃ nodes, s.Stand nodes := by
  induction reached with
  | start =>
    obtain ⟨nodes, fits, among⟩ := Collection.start_fits Reading.any_lawful
    exact ⟨nodes, fits, among, by simp⟩
  | ropes _ call ih =>
    obtain ⟨nodes, h⟩ := ih
    exact h.step call
  | managed _ held ih =>
    obtain ⟨nodes, h⟩ := ih
    exact ⟨nodes, h.make (h.ropes held)⟩
  | zeros _ made ih =>
    obtain ⟨nodes, h⟩ := ih
    exact ⟨nodes, h.make (NativeText.zeros_ok made).1⟩
  | call _ present f held ih =>
    obtain ⟨nodes, h⟩ := ih
    exact h.call present f held

end Strings

end RopeBridge
