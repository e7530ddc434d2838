import RopeBridge.Proofs.OwnedString.Standing

/-! What native code can rely on once it has set the length of a string, whatever has been done to
the string before. There is one gap. A resize to the length that the text has already leaves behind
it what has been written there. -/

namespace RopeBridge

namespace NativeText

variable {t t' : NativeText}

/-- The bytes that a text keeps when its length is set. -/
theorem Resized.front {n : Nat} (h : Resized t t' n) :
    t'.bytes.take (min t.byteLength n) = t.bytes.take (min t.byteLength n) := by
  apply List.ext_getElem?
  intro i
  rw [List.getElem?_take, List.getElem?_take]
  by_cases kept : i < min t.byteLength n
  · have old : i < t.byteLength := by omega
    have new : i < n := by omega
    rw [if_pos kept, if_pos kept, getElem?_bytes, getElem?_bytes, h.length, if_pos old, if_pos new,
      h.byte i (Nat.ne_of_lt new), if_pos (.inr old)]
  · rw [if_neg kept, if_neg kept]

theorem Contained.clear_resized (h : t.Contained) : Resized t t.clear t.byteLength :=
  ⟨rfl, rfl, (Nat.max_eq_left h.room).symm, h.allocated, fun i _ => by
    rw [if_pos (.inl h.room)]
    rfl⟩

end NativeText

/-- A string has been given a length, and keeps what it has of the bytes before. -/
structure Workspace.Cut (w w' : Workspace) (n : Nat) : Prop where
  byteLength : w'.string.byteLength = n
  capacity : ∃ c, (StringOp.capacity.run.run w').1 = .ok c ∧ n ≤ c
  front : ∃ before after, (StringOp.bytes.run.run w).1 = .ok before ∧
    (StringOp.bytes.run.run w').1 = .ok after ∧ before.length = w.string.byteLength ∧
    after.length = n ∧
    after.take (min w.string.byteLength n) = before.take (min w.string.byteLength n)

namespace StringOp

variable {nodes : List Rope} {w w' : Workspace} {t t' : NativeText} {n : Nat}

theorem Hands.cut (h : w.Stands nodes) (hands : Hands w t) (resized : NativeText.Resized t t' n)
    (native : w'.string = .native t') : w.Cut w' n := by
  have room := resized.contained.room
  have front := resized.front
  rw [resized.length] at room
  rw [hands.byteLength, hands.content] at front
  obtain ⟨string', ledger', f'⟩ := w'
  cases native
  refine ⟨resized.length, ⟨t'.capacity, rfl, room⟩, w.string.content, t'.bytes,
    (bytes_stands h).1, rfl, ?_, ?_, front⟩
  · rw [← hands.content, t.length_bytes, hands.byteLength]
  · rw [t'.length_bytes, resized.length]

/-- Behind a string there is a zero exactly if it has a terminator. -/
theorem read_end (h : w.Stands nodes) :
    ((read w.string.byteLength).run.run w).1 = .ok 0 ↔ w.string.Terminated := by
  obtain ⟨string, ledger, finalization⟩ := w
  cases string with
  | managed r =>
    simp only [read, run_bind, run_current, OwnedString.byteLength, Nat.lt_irrefl, if_false,
      OwnedString.Terminated, iff_true]
    rfl
  | native t =>
    show t.readRaw t.byteLength = .ok 0 ↔ t.buffer.byte t.byteLength = 0
    rw [NativeText.readRaw_inside h.string.room, Except.ok.injEq]

/-- Setting the length goes by one of two calls, which differ in what they claim of the result. -/
theorem setLength_done (h : w.Stands nodes) (done : (setLength n).run.run w = (.ok (), w')) :
    ∃ t t', Hands w t ∧ NativeText.Cut t t' n ∧ w'.string = .native t' := by
  obtain ⟨t, f, t', f', hands, set, native⟩ := adjust_done h done
  refine ⟨t, t', hands, ?_, native⟩
  split at set <;> exact (NativeText.setByteLength_cut hands.contained set).1

/-- A resize to another length terminates the text, one to the same length leaves it alone. -/
theorem resize_done (h : w.Stands nodes) (done : (resize n).run.run w = (.ok (), w')) :
    ∃ t t', Hands w t ∧ NativeText.Resized t t' n ∧ w'.string = .native t' ∧
      (t'.buffer.byte n = 0 ↔ (w.string.byteLength = n → w.string.Terminated)) := by
  obtain ⟨t, f, t', f', hands, resized, native⟩ := adjust_done h done
  refine ⟨t, t', hands, ?_⟩
  rw [← hands.terminated, ← hands.byteLength]
  by_cases same : t.byteLength = n
  · -- Nothing is written here, so what was behind the text is there still.
    subst same
    simp only [if_true] at resized
    cases resized
    exact ⟨hands.contained.clear_resized, native, by simp [NativeText.clear]⟩
  · simp only [same, if_false] at resized
    have cut := (NativeText.resize_cut hands.contained resized).1
    exact ⟨cut.toResized, native, by simp [same, cut.terminated]⟩

theorem read_cut (resized : NativeText.Resized t t' n) (native : w'.string = .native t') :
    ((read n).run.run w').1 = .ok 0 ↔ t'.buffer.byte n = 0 := by
  have room := resized.contained.room
  rw [resized.length] at room
  obtain ⟨string', ledger', f'⟩ := w'
  cases native
  show t'.readRaw n = .ok 0 ↔ _
  rw [NativeText.readRaw_inside room, Except.ok.injEq]

end StringOp

namespace Strings

/-- Whatever has happened to a string, a length that is set is the length it gets, with its bytes in
front and room for them. After the one call it is always terminated. After the other it is, unless
it had the length before and was not. -/
theorem lengths_set {s : Strings} (reached : Reached s) {x : OwnedString} (present : x ∈ s.strings)
    (f : Finalization) (n : Nat) (w : Workspace) :
    ((StringOp.setLength n).run.run (s.edit x f).workspace = (.ok (), w) →
      (s.edit x f).workspace.Cut w n ∧ ((StringOp.read n).run.run w).1 = .ok 0) ∧
    ((StringOp.resize n).run.run (s.edit x f).workspace = (.ok (), w) →
      (s.edit x f).workspace.Cut w n ∧ (((StringOp.read n).run.run w).1 = .ok 0 ↔
        (x.byteLength = n →
          ((StringOp.read n).run.run (s.edit x f).workspace).1 = .ok 0))) := by
  obtain ⟨nodes, stand⟩ := reached.stand
  have stands := stand.workspace present f
  constructor
  · intro done
    obtain ⟨t, t', hands, cut, native⟩ := StringOp.setLength_done stands done
    exact ⟨hands.cut stands cut.toResized native,
      (StringOp.read_cut cut.toResized native).2 cut.terminated⟩
  · intro done
    obtain ⟨t, t', hands, resized, native, terminated⟩ := StringOp.resize_done stands done
    refine ⟨hands.cut stands resized native, ?_⟩
    rw [StringOp.read_cut resized native, terminated]
    refine forall_congr' fun same => ?_
    rw [← same]
    exact (StringOp.read_end stands).symm

/-- Two zeros in a buffer of their size, with a letter written over the terminator. -/
def overwritten : NativeText where
  buffer := Buffer.set { id := 0, capacity := 2 } 2 0x41
  byteLength := 2
  encoding := .binary
  metadata := {}

theorem lengths_set_overwritten :
    ∃ s v w, Reached s ∧ s.strings = [.native overwritten] ∧
      (StringOp.setLength 2).run.run (s.edit (.native overwritten) {}).workspace = (.ok (), v) ∧
      (s.edit (.native overwritten) {}).workspace.Cut v 2 ∧
      ((StringOp.read 2).run.run v).1 = .ok 0 ∧
      (StringOp.resize 2).run.run (s.edit (.native overwritten) {}).workspace = (.ok (), w) ∧
      (s.edit (.native overwritten) {}).workspace.Cut w 2 ∧
      ((StringOp.read 2).run.run w).1 ≠ .ok 0 := by
  have made : NativeText.zeros {} 2 2 .binary = .ok (_, _) := rfl
  obtain ⟨⟨strings, ropes⟩, reached, rfl⟩ : ∃ s, Reached s ∧ s.strings = [.native overwritten] :=
    ⟨_, (Reached.start.zeros made).call (i := 0) rfl {} (c := .write 2 0x41) trivial, rfl⟩
  have present : .native overwritten ∈ [OwnedString.native overwritten] := List.mem_cons_self
  obtain ⟨set, terminated⟩ := (lengths_set reached present {} 2 _).1 rfl
  obtain ⟨resized, terminated_iff⟩ := (lengths_set reached present {} 2 _).2 rfl
  refine ⟨_, _, _, reached, rfl, rfl, set, terminated, rfl, resized, ?_⟩
  rw [Ne, terminated_iff]
  intro before
  cases before rfl

end Strings

end RopeBridge
