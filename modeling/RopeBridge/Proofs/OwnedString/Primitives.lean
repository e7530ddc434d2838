import RopeBridge.OwnedString.Primitives
import RopeBridge.Proofs.Native.Text

/-! The string primitives over a right ledger. Each leaves the ledger right, and the string a rope
that is a node or a text whose metadata is right; setting the length does so if it exposes
nothing. -/
namespace RopeBridge

namespace OwnedString

/-- The bytes of a string. -/
def content : OwnedString → List UInt8
  | managed r => r.toBytes
  | native t => t.bytes

def Fits (nodes : List Rope) : OwnedString → Prop
  | managed r => r ∈ nodes
  | native t => t.Fits

end OwnedString

structure Workspace.Fits (nodes : List Rope) (w : Workspace) : Prop where
  ledger : w.ledger.Fits .exact nodes
  string : w.string.Fits nodes

theorem OwnedString.Fits.mono {nodes more : List Rope} {s : OwnedString} (h : s.Fits nodes)
    (grown : nodes ⊆ more) : s.Fits more := by
  cases s with
  | managed r => exact grown h
  | native t => exact h

namespace StringOp

section

variable {α β : Type} (w : Workspace)

/-- Programs on strings are run step by step; a failure ends them where they are. -/
theorem run_bind (op : StringOp α) (f : α → StringOp β) :
    (op >>= f).run.run w = match op.run.run w with
      | (.ok a, w') => (f a).run.run w'
      | (.error fault, w') => (.error fault, w') := by
  rw [ExceptT.run_bind, StateT.run_bind]
  rcases op.run.run w with ⟨_ | a, w'⟩ <;> rfl

theorem run_pure (a : α) : (pure a : StringOp α).run.run w = (.ok a, w) := rfl

theorem run_get : (get : StringOp Workspace).run.run w = (.ok w, w) := rfl

theorem run_current : current.run.run w = (.ok w.string, w) := rfl

theorem run_query (q : Query α) : (query q).run.run w =
    (.ok (q.run w.ledger).1, { w with ledger := (q.run w.ledger).2 }) := rfl

theorem run_build (b : Build α) : (build b).run.run w =
    ((b.run.run w.ledger).1, { w with ledger := (b.run.run w.ledger).2 }) := by
  rw [build, run_bind, run_query]
  rcases b.run.run w.ledger with ⟨_ | _, _⟩ <;> rfl

end

variable {nodes : List Rope} {w : Workspace}

theorem codeRange_fits (h : w.Fits nodes) :
    (codeRange.run.run w).1 = .ok (w.string.encoding.scan w.string.content).codeRange ∧
      (codeRange.run.run w).2.Fits nodes := by
  obtain ⟨string, ledger, finalization⟩ := w
  cases string with
  | managed r =>
    obtain ⟨fits, answer⟩ := Rope.codeRange_answers Reading.exact_lawful h.string ledger h.ledger
    exact ⟨congrArg Except.ok answer, fits, h.string⟩
  | native t =>
    obtain ⟨answer, fits, _⟩ := NativeText.codeRange_fits h.string
    exact ⟨congrArg Except.ok answer, h.ledger, fits⟩

theorem characterLength_fits (h : w.Fits nodes) :
    (characterLength.run.run w).1 = .ok (w.string.encoding.scan w.string.content).characters ∧
      (characterLength.run.run w).2.Fits nodes := by
  obtain ⟨string, ledger, finalization⟩ := w
  cases string with
  | managed r =>
    obtain ⟨fits, answer⟩ :=
      Rope.characterLength_answers Reading.exact_lawful h.string ledger h.ledger
    exact ⟨congrArg Except.ok answer, fits, h.string⟩
  | native t =>
    obtain ⟨answer, fits, _⟩ := NativeText.characterLength_fits h.string
    exact ⟨congrArg Except.ok answer, h.ledger, fits⟩

theorem bytes_fits (h : w.Fits nodes) :
    (bytes.run.run w).1 = .ok w.string.content ∧ (bytes.run.run w).2.Fits nodes := by
  obtain ⟨string, ledger, finalization⟩ := w
  cases string with
  | managed r =>
    obtain ⟨fits, answer⟩ := Rope.bytes_answers h.string ledger h.ledger
    exact ⟨congrArg Except.ok answer, fits, h.string⟩
  | native t => exact ⟨rfl, h⟩

theorem getRope_fits (h : w.Fits nodes) :
    ∃ more r, nodes ⊆ more ∧ (getRope.run.run w).1 = .ok r ∧ (getRope.run.run w).2.Fits more ∧
      r.Denotes more w.string.encoding w.string.content := by
  obtain ⟨string, ledger, finalization⟩ := w
  cases string with
  | managed r =>
    exact ⟨nodes, r, List.Subset.refl _, rfl, h, Rope.denotes_self h.string⟩
  | native t =>
    obtain ⟨more, grown, fits, denotes⟩ := NativeText.toRope_makes Reading.exact_lawful
      h.string.contained h.string.metadata ledger h.ledger
    exact ⟨more, _, grown, rfl, ⟨fits, h.string⟩, denotes⟩

/-- A rope is moved to native memory as a copy, or stays where it is. -/
theorem toNative_managed {R : Reading} {r : Rope} (known : r ∈ nodes) {l : Ledger}
    (fits : l.Fits R nodes) (f : Finalization) :
    ∃ l', l'.Fits R nodes ∧
      ((∃ fault, toNative.run.run ⟨.managed r, l, f⟩ = (.error fault, ⟨.managed r, l', f⟩)) ∨
        ∃ t f', toNative.run.run ⟨.managed r, l, f⟩ = (.ok t, ⟨.native t, l', f'⟩) ∧
          t.Copies R r) := by
  obtain ⟨fits', copied⟩ := NativeText.ofRope_copies (f := f) known l fits
  refine ⟨_, fits', ?_⟩
  simp only [toNative, run_bind, run_current, run_get, run_query]
  cases made : ((NativeText.ofRope f r).run l).1 with
  | error fault => exact .inl ⟨fault, rfl⟩
  | ok result =>
    obtain ⟨t, f'⟩ := result
    exact .inr ⟨t, f', rfl, copied t f' made⟩

/-- The text in native memory is the string itself, or a copy that fills its buffer. -/
theorem toNative_fits (h : w.Fits nodes) :
    (toNative.run.run w).2.Fits nodes ∧
      ∀ t, (toNative.run.run w).1 = .ok t → t.Fits ∧
        (w.string = .native t ∨ t.capacity = t.byteLength) := by
  obtain ⟨string, ledger, finalization⟩ := w
  cases string with
  | managed r =>
    obtain ⟨l', fits, ⟨fault, ran⟩ | ⟨t, f', ran, copy⟩⟩ :=
      toNative_managed h.string h.ledger finalization
    · rw [ran]
      exact ⟨⟨fits, h.string⟩, by simp⟩
    · rw [ran]
      refine ⟨⟨fits, copy.fits⟩, ?_⟩
      rintro _ ⟨⟩
      exact ⟨copy.fits, .inr copy.full⟩
  | native t =>
    refine ⟨h, ?_⟩
    rintro _ ⟨⟩
    exact ⟨h.string, .inl rfl⟩

/-- A change of the text in native memory has to be right for the string itself and for copies that
fill their buffers. -/
theorem adjust_fits (h : w.Fits nodes)
    {change : NativeText → Finalization → Except Fault (NativeText × Finalization)}
    (right : ∀ t f t' f', t.Fits → (w.string = .native t ∨ t.capacity = t.byteLength) →
      change t f = .ok (t', f') → t'.Fits) :
    ((adjust change).run.run w).2.Fits nodes := by
  obtain ⟨fits, moved⟩ := toNative_fits h
  rw [adjust, run_bind]
  split
  next t w' native =>
    rw [native] at fits moved
    obtain ⟨fitst, same⟩ := moved t rfl
    simp only [run_bind, run_get]
    cases changed : change t w'.finalization with
    | error fault => exact fits
    | ok result =>
      obtain ⟨t', f'⟩ := result
      exact ⟨fits.ledger, right t w'.finalization t' f' fitst same changed⟩
  next fault w' native =>
    rw [native] at fits
    exact fits

theorem capacity_fits (h : w.Fits nodes) : (capacity.run.run w).2.Fits nodes := by
  have fits := (toNative_fits h).1
  rw [capacity, run_bind]
  split
  next t w' native =>
    rw [native] at fits
    exact fits
  next fault w' native =>
    rw [native] at fits
    exact fits

theorem resize_fits (h : w.Fits nodes) (n : Nat) : ((resize n).run.run w).2.Fits nodes := by
  refine adjust_fits h fun t f t' f' fits _ changed => ?_
  split at changed
  next =>
    cases changed
    exact NativeText.clear_fits fits
  next => exact NativeText.resize_fits fits changed

end StringOp

/-- Setting the length of the string exposes a byte behind it. -/
def OwnedString.Exposes (s : OwnedString) (n : Nat) : Prop := ∃ t, s = .native t ∧ t.Exposes n

namespace StringOp

variable {nodes : List Rope} {w : Workspace}

theorem setLength_fits (h : w.Fits nodes) {n : Nat} (hidden : ¬ w.string.Exposes n) :
    ((setLength n).run.run w).2.Fits nodes := by
  refine adjust_fits h fun t f t' f' fits same changed => ?_
  have hiddent : ¬ t.Exposes n := by
    rcases same with itself | full
    · exact fun exposes => hidden ⟨t, itself, exposes⟩
    · exact NativeText.not_exposes_of_full full n
  exact NativeText.setLength_fits fits hiddent changed

theorem clearCodeRange_fits (h : w.Fits nodes) : (clearCodeRange.run.run w).2.Fits nodes := by
  obtain ⟨string, ledger, finalization⟩ := w
  cases string with
  | managed r => exact h
  | native t => exact ⟨h.ledger, NativeText.clear_fits h.string⟩

theorem build_fits {α : Type} (h : w.Fits nodes) {b : Build α} {P : Except Fault α → Prop}
    (answers : Query.Answers .exact nodes b.run P) :
    ((build b).run.run w).2.Fits nodes ∧ ((build b).run.run w).2.string = w.string := by
  rw [run_build]
  exact ⟨⟨(answers w.ledger h.ledger).1, h.string⟩, rfl⟩

theorem read_fits (h : w.Fits nodes) (index : Nat) : ((read index).run.run w).2.Fits nodes := by
  obtain ⟨string, ledger, finalization⟩ := w
  rw [read, run_bind, run_current]
  cases string with
  | managed r =>
    dsimp only
    split
    next => exact (build_fits h (Rope.getByte_answers h.string index)).1
    next => exact h
  | native t => exact h

/-- A write into a rope makes a changed copy of it, which adds a node. -/
theorem write_managed {R : Reading} (lawful : R.Lawful) {r : Rope} (known : r ∈ nodes) {l : Ledger}
    (fits : l.Fits R nodes) (f : Finalization) (index : Nat) (byte : UInt8) :
    ∃ more copy l', nodes ⊆ more ∧ l'.Fits R more ∧ copy ∈ more ∧
      ((write index byte).run.run ⟨.managed r, l, f⟩).2 = ⟨.managed copy, l', f⟩ := by
  simp only [write, run_bind, run_current]
  by_cases behind : r.byteLength ≤ index
  · simp only [behind, if_true]
    exact ⟨nodes, r, l, List.Subset.refl _, fits, known, rfl⟩
  · simp only [behind, if_false, run_bind, run_query]
    obtain ⟨fits', same⟩ := Rope.bytes_answers known l fits
    have sound := fits.sound r known
    have small : (((r.bytes.run l).1).set index byte).length < lengthLimit := by
      rw [List.length_set, same, sound.length_toBytes]
      exact sound.byteLength_lt
    obtain ⟨more, grown, right, denotes⟩ := Rope.ofBytes_makes (e := r.encoding) (x := .unknown)
      lawful small (by simp) _ fits'
    exact ⟨more, _, _, grown, right, denotes.known, rfl⟩

/-- A write into native memory changes the text in place, if it is inside the buffer. -/
theorem write_native (t : NativeText) (l : Ledger) (f : Finalization) (index : Nat) (byte : UInt8) :
    ∃ t', ((write index byte).run.run ⟨.native t, l, f⟩).2 = ⟨.native t', l, f⟩ ∧
      (t' = t ∨ t.setByte index byte = .ok t') := by
  simp only [write, run_bind, run_current]
  cases t.setByte index byte with
  | error fault => exact ⟨t, rfl, .inl rfl⟩
  | ok t' => exact ⟨t', rfl, .inr rfl⟩

theorem write_fits (h : w.Fits nodes) (index : Nat) (byte : UInt8) :
    ∃ more, nodes ⊆ more ∧ ((write index byte).run.run w).2.Fits more := by
  obtain ⟨string, ledger, finalization⟩ := w
  cases string with
  | managed r =>
    obtain ⟨more, copy, l', grown, fits, known, ran⟩ :=
      write_managed Reading.exact_lawful h.string h.ledger finalization index byte
    rw [ran]
    exact ⟨more, grown, fits, known⟩
  | native t =>
    obtain ⟨t', ran, rfl | written⟩ := write_native t ledger finalization index byte
    · rw [ran]
      exact ⟨nodes, List.Subset.refl _, h⟩
    · rw [ran]
      exact ⟨nodes, List.Subset.refl _, h.ledger, NativeText.setByte_fits h.string written⟩

/-- What is exposed leaves a string that is said to be plain ASCII and is not. -/
theorem setLength_false {n : Nat} (exposes : w.string.Exposes n) :
    (codeRange.run.run ((setLength n).run.run w).2).1 ≠
      .ok (((setLength n).run.run w).2.string.encoding.scan
        ((setLength n).run.run w).2.string.content).codeRange := by
  obtain ⟨string, ledger, finalization⟩ := w
  obtain ⟨t, rfl, exposes⟩ := exposes
  obtain ⟨t', set, claimed, wide⟩ := NativeText.exposes_false (f := finalization) exposes
  have after : ((setLength n).run.run ⟨.native t, ledger, finalization⟩).2 =
      ⟨.native t', ledger, finalization⟩ := by
    simp only [setLength, adjust, toNative, run_bind, run_current, run_get, exposes.1, run_pure, if_true, set]
    rfl
  rw [after]
  intro same
  exact wide ((Except.ok.inj same).symm.trans claimed)

end StringOp

end RopeBridge
