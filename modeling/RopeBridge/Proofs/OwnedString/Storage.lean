import RopeBridge.Proofs.OwnedString.Calls

/-! What a string answers, whether a rope or native memory holds it. Both are described by a label
and bytes, and every call answers and changes the description in one way, provided that native
memory has a zero behind the text. -/

namespace RopeBridge

/-- Behind a text in native memory there is a zero, as there seems to be behind a rope. -/
def OwnedString.Terminated : OwnedString → Prop
  | managed _ => True
  | native t => t.buffer.byte t.byteLength = 0

theorem OwnedString.terminated_of_managed {s : OwnedString} (managed : s.isNative = false) :
    s.Terminated := by
  cases s with
  | managed r => trivial
  | native t => cases managed

namespace NativeText

variable {t t' : NativeText} {f f' : Finalization}

/-- A write into the text changes a byte of it and leaves what is behind it. -/
theorem setByte_inside {index : Nat} {byte : UInt8} (inside : index < t.byteLength)
    (written : t.setByte index byte = .ok t') :
    t'.encoding = t.encoding ∧ t'.bytes = t.bytes.set index byte ∧
      t'.buffer.byte t'.byteLength = t.buffer.byte t.byteLength := by
  obtain ⟨reached, rfl⟩ := setByte_ok written
  refine ⟨rfl, t.buffer.front_set t.byteLength reached byte, ?_⟩
  simp only [Buffer.byte_set]
  rw [if_neg (by omega)]

end NativeText

/-- The string of a workspace is right, and its label and bytes are these. -/
structure Workspace.Shows (nodes : List Rope) (w : Workspace) (e : Encoding) (bytes : List UInt8) :
    Prop where
  fits : w.Fits nodes
  encoding : w.string.encoding = e
  content : w.string.content = bytes
  terminated : w.string.Terminated

/-- Asking a text in native memory changes nothing but what is known about it. -/
theorem Workspace.Shows.asked {nodes : List Rope} {t t' : NativeText} {l l' : Ledger}
    {f f' : Finalization} {e : Encoding} {bytes : List UInt8}
    (h : Workspace.Shows nodes ⟨.native t, l, f⟩ e bytes)
    (only : ∃ metadata, t' = { t with metadata })
    (fits : Workspace.Fits nodes ⟨.native t', l', f'⟩) :
    Workspace.Shows nodes ⟨.native t', l', f'⟩ e bytes := by
  obtain ⟨metadata, rfl⟩ := only
  exact ⟨fits, h.encoding, h.content, h.terminated⟩

theorem Workspace.Shows.rope_byteLength {nodes : List Rope} {r : Rope} {l : Ledger} {f : Finalization}
    {e : Encoding} {bytes : List UInt8} (h : Workspace.Shows nodes ⟨.managed r, l, f⟩ e bytes) :
    r.byteLength = bytes.length := by
  rw [← h.content]
  exact (h.fits.ledger.sound r h.fits.string).length_toBytes.symm

/-- New nodes do not matter to the string. -/
theorem Workspace.Shows.later {nodes more : List Rope} {w : Workspace} {e : Encoding}
    {bytes : List UInt8} (h : w.Shows nodes e bytes) (grown : nodes ⊆ more) {l : Ledger}
    (fits : l.Fits .exact more) : ({ w with ledger := l } : Workspace).Shows more e bytes :=
  ⟨⟨fits, h.fits.string.mono grown⟩, h.encoding, h.content, h.terminated⟩

theorem Workspace.Shows.byteLength {nodes : List Rope} {w : Workspace} {e : Encoding}
    {bytes : List UInt8} (h : w.Shows nodes e bytes) : w.string.byteLength = bytes.length := by
  obtain ⟨string, ledger, finalization⟩ := w
  cases string with
  | managed r => exact h.rope_byteLength
  | native t =>
    rw [← h.content]
    exact t.length_bytes.symm

/-- The byte at a place, or that there is none. -/
def byteAt? (bytes : List UInt8) (index : Nat) : Except Fault UInt8 :=
  match bytes[index]? with
  | some byte => .ok byte
  | none => .error (.outOfBounds index bytes.length)

namespace StringOp

variable {nodes : List Rope} {w : Workspace} {e : Encoding} {bs : List UInt8}

theorem codeRange_shows (h : w.Shows nodes e bs) :
    (codeRange.run.run w).1 = .ok (e.scan bs).codeRange ∧
      (codeRange.run.run w).2.Shows nodes e bs := by
  obtain ⟨answer, fits⟩ := codeRange_fits h.fits
  refine ⟨by rw [answer, h.encoding, h.content], ?_⟩
  obtain ⟨string, ledger, finalization⟩ := w
  cases string with
  | managed r => exact ⟨fits, h.encoding, h.content, trivial⟩
  | native t => exact h.asked t.codeRange_only fits

theorem characterLength_shows (h : w.Shows nodes e bs) :
    (characterLength.run.run w).1 = .ok (e.scan bs).characters ∧
      (characterLength.run.run w).2.Shows nodes e bs := by
  obtain ⟨answer, fits⟩ := characterLength_fits h.fits
  refine ⟨by rw [answer, h.encoding, h.content], ?_⟩
  obtain ⟨string, ledger, finalization⟩ := w
  cases string with
  | managed r => exact ⟨fits, h.encoding, h.content, trivial⟩
  | native t => exact h.asked t.characterLength_only fits

theorem bytes_shows (h : w.Shows nodes e bs) :
    (bytes.run.run w).1 = .ok bs ∧ (bytes.run.run w).2.Shows nodes e bs := by
  obtain ⟨answer, fits⟩ := bytes_fits h.fits
  refine ⟨by rw [answer, h.content], ?_⟩
  obtain ⟨string, ledger, finalization⟩ := w
  cases string <;> exact ⟨fits, h.encoding, h.content, h.terminated⟩

/-- A byte of a rope is asked for without a change of the string. -/
theorem build_getByte_shows {r : Rope} {l : Ledger} {f : Finalization}
    (h : Workspace.Shows nodes ⟨.managed r, l, f⟩ e bs) (index : Nat) :
    ((build (r.getByte index)).run.run ⟨.managed r, l, f⟩).1 = byteAt? bs index ∧
      ((build (r.getByte index)).run.run ⟨.managed r, l, f⟩).2.Shows nodes e bs := by
  obtain ⟨fits, answer⟩ := Rope.getByte_answers h.fits.string index l h.fits.ledger
  have content : r.toBytes = bs := h.content
  rw [content, h.rope_byteLength] at answer
  rw [run_build]
  exact ⟨answer, ⟨fits, h.fits.string⟩, h.encoding, h.content, trivial⟩

theorem getByte_shows (h : w.Shows nodes e bs) (index : Nat) :
    ((getByte index).run.run w).1 = byteAt? bs index ∧
      ((getByte index).run.run w).2.Shows nodes e bs := by
  obtain ⟨string, ledger, finalization⟩ := w
  cases string with
  | managed r => exact build_getByte_shows h index
  | native t =>
    have content : t.bytes = bs := h.content
    refine ⟨?_, h⟩
    show t.getByte index = _
    rw [byteAt?, ← content, NativeText.getElem?_bytes, NativeText.getByte, NativeText.length_bytes]
    split <;> rfl

theorem getRope_shows (h : w.Shows nodes e bs) :
    ∃ more r, nodes ⊆ more ∧ (getRope.run.run w).1 = .ok r ∧ r.Denotes more e bs ∧
      (getRope.run.run w).2.Shows more e bs := by
  obtain ⟨more, r, grown, given, fits, denotes⟩ := getRope_fits h.fits
  rw [h.encoding, h.content] at denotes
  refine ⟨more, r, grown, given, denotes, ?_⟩
  obtain ⟨string, ledger, finalization⟩ := w
  cases string <;> exact ⟨fits, h.encoding, h.content, h.terminated⟩

theorem cLength_shows (h : w.Shows nodes e bs) :
    (cLength.run.run w).1 = .ok (bs.findIdx (· = 0)) ∧
      (cLength.run.run w).2.Shows nodes e bs := by
  obtain ⟨string, ledger, finalization⟩ := w
  have content := h.content
  cases string with
  | managed r =>
    obtain ⟨fits, answer⟩ := Rope.bytes_answers h.fits.string ledger h.fits.ledger
    refine ⟨?_, ⟨fits, h.fits.string⟩, h.encoding, h.content, trivial⟩
    exact congrArg (fun found => Except.ok (List.findIdx (· = 0) found)) (answer.trans content)
  | native t =>
    refine ⟨congrArg Except.ok ?_, h⟩
    rw [Buffer.zeroFrom_zero]
    exact congrArg (List.findIdx (· = 0)) content

theorem read_shows (h : w.Shows nodes e bs) {index : Nat} (reached : index ≤ bs.length) :
    ((read index).run.run w).1 = .ok (bs.getD index 0) ∧
      ((read index).run.run w).2.Shows nodes e bs := by
  obtain ⟨string, ledger, finalization⟩ := w
  cases string with
  | managed r =>
    simp only [read, run_bind, run_current, h.rope_byteLength]
    split
    next inside =>
      obtain ⟨answer, same⟩ := build_getByte_shows h index
      refine ⟨answer.trans ?_, same⟩
      simp [byteAt?, inside]
    next behind =>
      refine ⟨?_, h⟩
      show Except.ok 0 = _
      simp [behind]
  | native t =>
    have content : t.bytes = bs := h.content
    have terminated : t.buffer.byte t.byteLength = 0 := h.terminated
    rw [← content, NativeText.length_bytes] at reached
    refine ⟨?_, h⟩
    show t.readRaw index = _
    rw [NativeText.readRaw_inside (Nat.le_trans reached h.fits.string.room), ← content,
      List.getD_eq_getElem?_getD, NativeText.getElem?_bytes]
    by_cases inside : index < t.byteLength
    · simp [inside]
    · obtain rfl : index = t.byteLength := by omega
      simp [terminated]

/-- A rope is copied with the byte changed, a text is changed in place. -/
theorem write_shows (h : w.Shows nodes e bs) {index : Nat} (inside : index < bs.length)
    (byte : UInt8) :
    ((write index byte).run.run w).1 = .ok byte ∧
      ∃ more, nodes ⊆ more ∧ ((write index byte).run.run w).2.Shows more e (bs.set index byte) := by
  obtain ⟨string, ledger, finalization⟩ := w
  cases string with
  | managed r =>
    have inside' : ¬ r.byteLength ≤ index := by
      rw [h.rope_byteLength]
      omega
    simp only [write, run_bind, run_current, inside', if_false, run_query]
    obtain ⟨fits, answer⟩ := Rope.bytes_answers h.fits.string ledger h.fits.ledger
    have content : r.toBytes = bs := h.content
    have label : r.encoding = e := h.encoding
    have small : (bs.set index byte).length < lengthLimit := by
      rw [List.length_set, ← h.rope_byteLength]
      exact (h.fits.ledger.sound r h.fits.string).byteLength_lt
    rw [answer, content, label]
    obtain ⟨more, grown, fits', denotes⟩ := Rope.ofBytes_makes (e := e) (x := .unknown)
      Reading.exact_lawful small (by simp) _ fits
    exact ⟨rfl, more, grown, ⟨fits', denotes.known⟩, denotes.encoding, denotes.toBytes, trivial⟩
  | native t =>
    have content : t.bytes = bs := h.content
    have room : t.byteLength ≤ t.capacity := h.fits.string.room
    rw [← content, NativeText.length_bytes] at inside
    cases written : t.setByte index byte with
    | error fault =>
      have reached : index ≤ t.capacity := by omega
      simp [NativeText.setByte, reached] at written
    | ok t' =>
      obtain ⟨label, changed, behind⟩ := NativeText.setByte_inside inside written
      have fits := NativeText.setByte_fits h.fits.string written
      simp only [write, run_bind, run_current, written]
      refine ⟨rfl, nodes, List.Subset.refl _, ⟨h.fits.ledger, fits⟩, label.trans h.encoding, ?_, ?_⟩
      · rw [← content]
        exact changed
      · exact behind.trans h.terminated

theorem setRope_shows (h : w.Shows nodes e bs) {r : Rope} {e' : Encoding} {bs' : List UInt8}
    (denotes : r.Denotes nodes e' bs') : ((setRope r).run.run w).2.Shows nodes e' bs' :=
  ⟨⟨h.fits.ledger, denotes.known⟩, denotes.encoding, denotes.toBytes, trivial⟩

theorem toNative_shows (h : w.Shows nodes e bs) : (toNative.run.run w).2.Shows nodes e bs := by
  obtain ⟨string, ledger, finalization⟩ := w
  cases string with
  | native t => exact h
  | managed r =>
    obtain ⟨l', fits, ⟨fault, ran⟩ | ⟨t, f', ran, copy⟩⟩ :=
      toNative_managed h.fits.string h.fits.ledger finalization
    · rw [ran]
      exact ⟨⟨fits, h.fits.string⟩, h.encoding, h.content, trivial⟩
    · rw [ran]
      exact ⟨⟨fits, copy.fits⟩, copy.encoding.trans h.encoding, copy.bytes.trans h.content,
        copy.behind _ (Nat.le_refl _)⟩

end StringOp

end RopeBridge
