import RopeBridge.Proofs.OwnedString.Knowledge

/-! What a call that fails leaves behind. A call to a string has up to two parts, a move to native
memory and a change there, and each of them fails before it has changed anything. So a failed call
has moved the string at most, and that cannot be seen from outside. -/

namespace RopeBridge

/-- Nothing that can be asked about a string tells two workspaces apart. -/
structure Workspace.Alike (w w' : Workspace) : Prop where
  encoding : w'.string.encoding = w.string.encoding
  byteLength : w'.string.byteLength = w.string.byteLength
  bytes : (StringOp.bytes.run.run w').1 = (StringOp.bytes.run.run w).1
  codeRange : (StringOp.codeRange.run.run w').1 = (StringOp.codeRange.run.run w).1
  characterLength : (StringOp.characterLength.run.run w').1 =
    (StringOp.characterLength.run.run w).1
  read : ∀ i ≤ w.string.byteLength,
    ((StringOp.read i).run.run w').1 = ((StringOp.read i).run.run w).1

/-- A string is spared by a call: it looks as before, a text in native memory is the same one with
the same buffer, and a rope is still there unless its move to native memory has gone well. -/
structure Workspace.Spared (w w' : Workspace) : Prop extends w.Alike w' where
  native : ∀ t, w.string = .native t → w' = w
  managed : ∀ r, w.string = .managed r →
    w'.string = .managed r ∧ w'.finalization = w.finalization ∨
      ∃ t, StringOp.toNative.run.run w = (.ok t, w') ∧ w'.string = .native t

namespace StringOp

variable {nodes : List Rope} {w : Workspace} {fault : Fault} {α : Type}

/-- An operation that fails has done nothing, or has moved the string to native memory. -/
def Halts (op : StringOp α) (w : Workspace) : Prop :=
  ∀ fault, (op.run.run w).1 = .error fault →
    (op.run.run w).2 = w ∨ (op.run.run w).2 = (toNative.run.run w).2

theorem toNative_halts : Halts toNative w := fun _ _ => .inr rfl

theorem adjust_halts
    (change : NativeText → Finalization → Except Fault (NativeText × Finalization)) :
    Halts (adjust change) w := by
  intro fault failed
  rw [adjust_run] at failed ⊢
  generalize toNative.run.run w = moved at failed ⊢
  obtain ⟨fault' | t, w'⟩ := moved
  · exact .inr rfl
  · cases changed : change t w'.finalization with
    | error fault' => exact .inr (by simp only [changed])
    | ok result =>
      simp only [changed] at failed
      cases failed

theorem halts_of_ok {op : StringOp α} {a : α} (done : (op.run.run w).1 = .ok a) : Halts op w := by
  intro fault failed
  rw [done] at failed
  cases failed

theorem Halts.answering {β : Type} {op : StringOp α} (h : Halts op w) (answer : α → β) :
    Halts (op >>= fun a => pure (answer a)) w := by
  intro fault failed
  rw [run_answering] at failed ⊢
  cases answered : (op.run.run w).1 with
  | error fault' => exact h fault' answered
  | ok a =>
    rw [answered] at failed
    cases failed

theorem build_getByte_halts (r : Rope) (index : Nat) : Halts (build (r.getByte index)) w := by
  intro _ _
  rw [run_build]
  exact .inl (by rw [Rope.getByte_run])

theorem getByte_halts (index : Nat) : Halts (getByte index) w := by
  obtain ⟨string, ledger, finalization⟩ := w
  cases string with
  | managed r => exact build_getByte_halts r index
  | native t => exact fun _ _ => .inl rfl

theorem read_halts (index : Nat) : Halts (read index) w := by
  obtain ⟨string, ledger, finalization⟩ := w
  cases string with
  | managed r =>
    unfold Halts
    simp only [read, run_bind, run_current]
    split
    next => exact build_getByte_halts r index
    next => exact fun _ _ => .inl rfl
  | native t => exact fun _ _ => .inl rfl

theorem write_halts (index : Nat) (byte : UInt8) : Halts (write index byte) w := by
  obtain ⟨string, ledger, finalization⟩ := w
  unfold Halts
  cases string with
  | managed r =>
    simp only [write, run_bind, run_current]
    split
    next => exact fun _ _ => .inl rfl
    next =>
      intro _ failed
      cases failed
  | native t =>
    simp only [write, run_bind, run_current]
    cases t.setByte index byte with
    | error fault => exact fun _ _ => .inl rfl
    | ok t' =>
      intro _ failed
      cases failed

end StringOp

theorem OwnedString.Call.halts (call : Call) (w : Workspace) : StringOp.Halts call.op w := by
  obtain ⟨string, ledger, finalization⟩ := w
  have native : StringOp.Halts StringOp.toNative ⟨string, ledger, finalization⟩ :=
    StringOp.toNative_halts
  cases call with
  | toNative => exact native.answering _
  | capacity =>
    have capacity : StringOp.Halts StringOp.capacity _ := native.answering _
    exact capacity.answering _
  | setLength n => exact (StringOp.adjust_halts _).answering _
  | resize n => exact (StringOp.adjust_halts _).answering _
  | clearCodeRange => cases string <;> exact (StringOp.halts_of_ok rfl).answering _
  | read index => exact (StringOp.read_halts index).answering _
  | write index byte => exact (StringOp.write_halts index byte).answering _
  | cLength => cases string <;> exact (StringOp.halts_of_ok rfl).answering _
  | setRope rope => exact (StringOp.halts_of_ok rfl).answering _
  | getRope => cases string <;> exact (StringOp.halts_of_ok rfl).answering _
  | codeRange => cases string <;> exact (StringOp.halts_of_ok rfl).answering _
  | characterLength => cases string <;> exact (StringOp.halts_of_ok rfl).answering _
  | bytes => cases string <;> exact (StringOp.halts_of_ok rfl).answering _
  | getByte index => exact (StringOp.getByte_halts index).answering _

namespace Workspace

variable {nodes : List Rope} {w w' : Workspace} {e : Encoding} {bs : List UInt8}

theorem Shows.alike (h : w.Shows nodes e bs) (h' : w'.Shows nodes e bs) : w.Alike w' where
  encoding := h'.encoding.trans h.encoding.symm
  byteLength := h'.byteLength.trans h.byteLength.symm
  bytes := (StringOp.bytes_shows h').1.trans (StringOp.bytes_shows h).1.symm
  codeRange := (StringOp.codeRange_shows h').1.trans (StringOp.codeRange_shows h).1.symm
  characterLength :=
    (StringOp.characterLength_shows h').1.trans (StringOp.characterLength_shows h).1.symm
  read i inside := by
    rw [h.byteLength] at inside
    rw [(StringOp.read_shows h' inside).1, (StringOp.read_shows h inside).1]

theorem spared_self (w : Workspace) : w.Spared w where
  toAlike := ⟨rfl, rfl, rfl, rfl, rfl, fun _ _ => rfl⟩
  native _ _ := rfl
  managed _ rope := .inl ⟨rope, rfl⟩

/-- A string whose metadata is right is spared by a move to native memory, also by one that
fails. -/
theorem Fits.spared (h : w.Fits nodes) : w.Spared (StringOp.toNative.run.run w).2 := by
  obtain ⟨string, ledger, finalization⟩ := w
  cases string with
  | native t => exact spared_self _
  | managed r =>
    have shows : Shows nodes ⟨.managed r, ledger, finalization⟩ r.encoding r.toBytes :=
      ⟨h, rfl, rfl, trivial⟩
    refine { toAlike := shows.alike (StringOp.toNative_shows shows), native := ?_, managed := ?_ }
    · exact fun _ native => nomatch native
    rintro _ ⟨⟩
    obtain ⟨l', _, ⟨fault, ran⟩ | ⟨t, f', ran, _⟩⟩ :=
      StringOp.toNative_managed h.string h.ledger finalization
    · rw [ran]
      exact .inl ⟨rfl, rfl⟩
    · rw [ran]
      exact .inr ⟨t, rfl, rfl⟩

theorem Fits.failed (h : w.Fits nodes) {call : OwnedString.Call} {fault : Fault}
    (failed : (call.run w).1 = .error fault) : w.Spared (call.run w).2 := by
  rcases call.halts w fault failed with same | moved
  · rw [show (call.run w).2 = w from same]
    exact spared_self w
  · rw [show (call.run w).2 = _ from moved]
    exact h.spared

end Workspace

namespace Strings

open OwnedString (Call)

/-- Whatever has been done to other strings and to ropes, a call that fails spares the string it is
for, if what is remembered about that one is right. -/
theorem failed_spares {s : Strings} (reached : s.Reached) {x : OwnedString} (present : x ∈ s.strings)
    (described : x.Described s.ropes.ledger) (f : Finalization) {call : Call} {fault : Fault}
    (failed : (call.run (s.edit x f).workspace).1 = .error fault) :
    (s.edit x f).workspace.Spared (call.run (s.edit x f).workspace).2 := by
  obtain ⟨nodes, fits⟩ := reached.fits present described f
  exact fits.failed failed

/-- A string over two letters that is to get a length for which there is no memory: it moves, and
is the same from outside. -/
theorem failed_spares_moved : ∃ s r f, Reached s ∧ s.strings = [.managed r] ∧
    r.toBytes = [0x61, 0x62] ∧ (OwnedString.managed r).Described s.ropes.ledger ∧
    ((Call.resize 8).run (s.edit (.managed r) f).workspace).1 =
      .error (.allocationFailed 8) ∧
    ((Call.resize 8).run (s.edit (.managed r) f).workspace).2.string.isNative = true ∧
    (s.edit (.managed r) f).workspace.Spared
      ((Call.resize 8).run (s.edit (.managed r) f).workspace).2 := by
  let letters : Rope.Action := .ofBytes .utf8 ⟨[0x61, 0x62], by decide⟩ .unknown
  have held := List.mem_of_getElem? (l := (Collection.start.step letters).ropes) (i := 0) rfl
  have reached := (Reached.start.ropes letters).managed held
  refine ⟨_, _, { memory := 8 }, reached, rfl, rfl, ?described, rfl, rfl,
    failed_spares reached List.mem_cons_self ?described { memory := 8 } rfl⟩
  obtain ⟨nodes, fits, among⟩ := Collection.step_fits Reading.exact_lawful
    (Collection.start_fits Reading.exact_lawful) (a := letters) (fun known => nomatch known)
  intro p within
  cases within with
  | self => exact (fits.entry _ (among held)).toFits
  | part member _ => cases member

end Strings

end RopeBridge
