import RopeBridge.Proofs.Native.Custody
import RopeBridge.Proofs.OwnedString.Calls

/-! What texts in native memory and strings do with their buffers. Most calls leave the buffer where
it is. A string that is moved takes one, a text that outgrows its own exchanges it, and a rope that
replaces a text gives it up. -/

namespace RopeBridge

open Finalization (Turnover Halt)

namespace Buffer

variable {f f' : Finalization} {b : Buffer}

theorem allocate_enlist {capacity : Nat} (made : allocate f capacity = .ok (b, f')) :
    b.id = f.nextId ∧ f' = f.enlist := by
  unfold allocate at made
  split at made
  · cases made
  · cases made
    exact ⟨rfl, rfl⟩

@[simp] theorem set_id (b : Buffer) (index : Nat) (byte : UInt8) : (b.set index byte).id = b.id := by
  unfold set
  split <;> rfl

@[simp] theorem overwrite_id (b : Buffer) (offset : Nat) (bytes : List UInt8) :
    (b.overwrite offset bytes).id = b.id := by
  induction bytes generalizing b offset with
  | nil => rfl
  | cons byte rest ih => simp [overwrite, ih]

end Buffer

namespace NativeText

variable {t t' : NativeText} {f f' : Finalization}

theorem zeros_takes {byteLength capacity : Nat} {e : Encoding}
    (made : zeros f byteLength capacity e = .ok (t, f')) :
    t.buffer.id = f.nextId ∧ f' = f.enlist := by
  unfold zeros at made
  cases allocated : Buffer.allocate f (max capacity byteLength) with
  | error fault =>
    rw [allocated] at made
    cases made
  | ok result =>
    rw [allocated] at made
    cases made
    exact Buffer.allocate_enlist allocated

theorem ofRope_takes {r : Rope} {l : Ledger} (made : ((ofRope f r).run l).1 = .ok (t, f')) :
    t.buffer.id = f.nextId ∧ f' = f.enlist := by
  obtain ⟨bytes, metadata, copied⟩ : ∃ bytes metadata, ((ofRope f r).run l).1 =
      (Buffer.allocate f bytes.length).bind fun made =>
        .ok (⟨made.1.overwrite 0 bytes, bytes.length, r.encoding, metadata⟩, made.2) := ⟨_, _, rfl⟩
  rw [copied] at made
  cases allocated : Buffer.allocate f bytes.length with
  | error fault =>
    rw [allocated] at made
    cases made
  | ok result =>
    obtain ⟨id, finalization⟩ := Buffer.allocate_enlist allocated
    rw [allocated] at made
    cases made
    exact ⟨by simpa using id, finalization⟩

/-- A text that outgrows its buffer moves to a new one, and the old one is freed at once. -/
structure Moves (t : NativeText) (f : Finalization) (t' : NativeText) (f' : Finalization) : Prop where
  id : t'.buffer.id = f.nextId
  finalization : f' = f.enlist.discard t.buffer.id

/-- The text stays where it is. -/
structure Stays (t : NativeText) (f : Finalization) (t' : NativeText) (f' : Finalization) : Prop where
  id : t'.buffer.id = t.buffer.id
  finalization : f' = f

theorem grow_moves {byteLength : Nat} (grown : t.grow byteLength f = .ok (t', f')) :
    t.Moves f t' f' := by
  unfold grow at grown
  cases allocated : Buffer.allocate f byteLength with
  | error fault =>
    rw [allocated] at grown
    cases grown
  | ok result =>
    obtain ⟨id, finalization⟩ := Buffer.allocate_enlist allocated
    rw [allocated] at grown
    cases grown
    exact ⟨id, congrArg (·.discard t.buffer.id) finalization⟩

theorem resize_moves {byteLength : Nat} (resized : t.resize byteLength f = .ok (t', f')) :
    if t.capacity < byteLength then t.Moves f t' f' else t.Stays f t' f' := by
  unfold resize at resized
  split at resized
  next more =>
    cases grown : t.grow byteLength f with
    | error fault =>
      rw [grown] at resized
      cases resized
    | ok result =>
      obtain ⟨id, finalization⟩ := grow_moves grown
      rw [grown] at resized
      cases resized
      rw [if_pos more]
      exact ⟨by simpa [clear, terminate] using id, finalization⟩
  next within =>
    cases resized
    rw [if_neg within]
    exact ⟨by simp [clear, terminate], rfl⟩

theorem setByteLength_moves {byteLength : Nat} {chars : Option Nat} {range : CodeRange}
    (set : t.setByteLength byteLength chars range f = .ok (t', f')) :
    if t.capacity < byteLength then t.Moves f t' f' else t.Stays f t' f' := by
  unfold setByteLength at set
  split at set
  next more =>
    cases resized : t.resize byteLength f with
    | error fault =>
      rw [resized] at set
      cases set
    | ok result =>
      have moves := resize_moves resized
      rw [if_pos more] at moves
      obtain ⟨id, finalization⟩ := moves
      rw [resized] at set
      cases set
      rw [if_pos more]
      exact ⟨by simpa [terminate] using id, finalization⟩
  next within =>
    cases set
    rw [if_neg within]
    exact ⟨by simp [terminate], rfl⟩

/-- A text that moves exactly if it does not fit does one of the two. -/
theorem moves_or_stays {more : Prop} [Decidable more]
    (moves : if more then t.Moves f t' f' else t.Stays f t' f') :
    t.Moves f t' f' ∨ t.Stays f t' f' := by
  split at moves
  · exact .inl moves
  · exact .inr moves

@[simp] theorem codeRange_buffer (t : NativeText) : t.codeRange.2.buffer = t.buffer := by
  obtain ⟨metadata, same⟩ := t.codeRange_only
  rw [same]

@[simp] theorem characterLength_buffer (t : NativeText) : t.characterLength.2.buffer = t.buffer := by
  obtain ⟨metadata, same⟩ := t.characterLength_only
  rw [same]

theorem setByte_id {index : Nat} {byte : UInt8} (written : t.setByte index byte = .ok t') :
    t'.buffer.id = t.buffer.id := by
  obtain ⟨_, rfl⟩ := setByte_ok written
  simp

/-- Whether it moves or stays, whoever has come by the text before has come by its buffer. -/
theorem turnover_after {hand : Option BufferId} {f₀ : Finalization}
    (taken : Halt hand f₀ (some t.buffer.id) f) (change : t.Moves f t' f' ∨ t.Stays f t' f') :
    Turnover hand f₀ (some t'.buffer.id) f' := by
  obtain ⟨id, finalization⟩ | ⟨id, finalization⟩ := change
  · rw [id, finalization]
    exact taken.exchange
  · rw [id, finalization]
    exact taken.turnover

end NativeText

namespace StringOp

variable {α β : Type} {w : Workspace}

/-- The string keeps its buffer, and the finalizers are left alone. -/
def Steady (op : StringOp α) (w : Workspace) : Prop :=
  (op.run.run w).2.string.buffer? = w.string.buffer? ∧
    (op.run.run w).2.finalization = w.finalization

/-- The string changes hands with the service in one of the ways there are. An operation that fails
has moved it to native memory at most. -/
structure Tends (op : StringOp α) (w : Workspace) : Prop where
  turnover : Turnover w.string.buffer? w.finalization
    (op.run.run w).2.string.buffer? (op.run.run w).2.finalization
  halt : ∀ fault, (op.run.run w).1 = .error fault →
    Halt w.string.buffer? w.finalization
      (op.run.run w).2.string.buffer? (op.run.run w).2.finalization

theorem Tends.of_run {op : StringOp α} {answer : Except Fault α} {w' : Workspace}
    (ran : op.run.run w = (answer, w'))
    (turnover : Turnover w.string.buffer? w.finalization w'.string.buffer? w'.finalization)
    (halt : ∀ fault, answer = .error fault →
      Halt w.string.buffer? w.finalization w'.string.buffer? w'.finalization) : Tends op w := by
  constructor <;> rw [ran] <;> assumption

theorem Steady.tends {op : StringOp α} (h : Steady op w) : Tends op w := by
  constructor
  · rw [h.1, h.2]
    exact .keep _ _
  · intro _ _
    rw [h.1, h.2]
    exact .keep _ _

theorem steady_query (q : Query α) : Steady (query q) w := ⟨rfl, rfl⟩

theorem Steady.bind {op : StringOp α} {f : α → StringOp β} (first : Steady op w)
    (second : ∀ a w', Steady (f a) w') : Steady (op >>= f) w := by
  unfold Steady at first ⊢
  rw [run_bind]
  generalize op.run.run w = ran at first
  obtain ⟨_ | a, w'⟩ := ran
  · exact first
  · obtain ⟨hand, finalization⟩ := second a w'
    exact ⟨hand.trans first.1, finalization.trans first.2⟩

theorem steady_build (b : Build α) : Steady (build b) w := by
  refine (steady_query _).bind fun a w' => ?_
  cases a <;> exact ⟨rfl, rfl⟩

theorem Tends.answering {op : StringOp α} (h : Tends op w) (answer : α → β) :
    Tends (op >>= fun a => pure (answer a)) w := by
  refine .of_run (run_answering w op answer) h.turnover fun fault failed => ?_
  cases answered : (op.run.run w).1 with
  | error fault' => exact h.halt fault' answered
  | ok a =>
    rw [answered] at failed
    cases failed

/-! Calls that leave the buffer where it is. -/

theorem codeRange_steady : Steady codeRange w := by
  obtain ⟨string, ledger, finalization⟩ := w
  cases string with
  | managed r => exact ⟨rfl, rfl⟩
  | native t => exact ⟨congrArg (fun b : Buffer => some b.id) t.codeRange_buffer, rfl⟩

theorem characterLength_steady : Steady characterLength w := by
  obtain ⟨string, ledger, finalization⟩ := w
  cases string with
  | managed r => exact ⟨rfl, rfl⟩
  | native t => exact ⟨congrArg (fun b : Buffer => some b.id) t.characterLength_buffer, rfl⟩

theorem bytes_steady : Steady bytes w := by
  obtain ⟨string, ledger, finalization⟩ := w
  cases string <;> exact ⟨rfl, rfl⟩

theorem getByte_steady (index : Nat) : Steady (getByte index) w := by
  obtain ⟨string, ledger, finalization⟩ := w
  cases string with
  | managed r => exact steady_build (r.getByte index)
  | native t => exact ⟨rfl, rfl⟩

theorem getRope_steady : Steady getRope w := by
  obtain ⟨string, ledger, finalization⟩ := w
  cases string <;> exact ⟨rfl, rfl⟩

theorem cLength_steady : Steady cLength w := by
  obtain ⟨string, ledger, finalization⟩ := w
  cases string <;> exact ⟨rfl, rfl⟩

theorem clearCodeRange_steady : Steady clearCodeRange w := by
  obtain ⟨string, ledger, finalization⟩ := w
  cases string <;> exact ⟨rfl, rfl⟩

theorem read_steady (index : Nat) : Steady (read index) w := by
  obtain ⟨string, ledger, finalization⟩ := w
  cases string with
  | managed r =>
    simp only [Steady, read, run_bind, run_current]
    split
    · exact steady_build (r.getByte index)
    · exact ⟨rfl, rfl⟩
  | native t => exact ⟨rfl, rfl⟩

theorem write_steady (index : Nat) (byte : UInt8) : Steady (write index byte) w := by
  obtain ⟨string, ledger, finalization⟩ := w
  cases string with
  | managed r =>
    simp only [Steady, write, run_bind, run_current]
    split <;> exact ⟨rfl, rfl⟩
  | native t =>
    simp only [Steady, write, run_bind, run_current]
    cases written : t.setByte index byte with
    | error fault => exact ⟨rfl, rfl⟩
    | ok t' => exact ⟨congrArg some (NativeText.setByte_id written), rfl⟩

/-! Calls that may move the string. -/

theorem setRope_tends (rope : Rope) : Tends (setRope rope) w :=
  ⟨.abandon _ _, fun _ failed => nomatch failed⟩

/-- A move to native memory takes a buffer unless the string has one, or fails and takes none. -/
theorem toNative_tends (w : Workspace) :
    Halt w.string.buffer? w.finalization
      (toNative.run.run w).2.string.buffer? (toNative.run.run w).2.finalization := by
  obtain ⟨string, ledger, finalization⟩ := w
  cases string with
  | native t => exact .keep _ _
  | managed r =>
    simp only [toNative, run_bind, run_current, run_get, run_query]
    cases made : ((NativeText.ofRope finalization r).run ledger).1 with
    | error fault => exact .keep _ _
    | ok result =>
      obtain ⟨t, finalization'⟩ := result
      obtain ⟨id, rfl⟩ := NativeText.ofRope_takes made
      have taken : Halt none finalization (some t.buffer.id) finalization.enlist := id ▸ .take _
      exact taken

theorem toNative_string {t : NativeText} (moved : (toNative.run.run w).1 = .ok t) :
    (toNative.run.run w).2.string = .native t := by
  obtain ⟨string, ledger, finalization⟩ := w
  cases string with
  | native t' =>
    cases moved
    rfl
  | managed r =>
    revert moved
    simp only [toNative, run_bind, run_current, run_get, run_query]
    cases made : ((NativeText.ofRope finalization r).run ledger).1 with
    | error fault =>
      intro moved
      cases moved
    | ok result =>
      intro moved
      cases moved
      rfl

theorem adjust_run
    (change : NativeText → Finalization → Except Fault (NativeText × Finalization)) :
    (adjust change).run.run w = match toNative.run.run w with
      | (.error fault, w') => (.error fault, w')
      | (.ok t, w') => match change t w'.finalization with
        | .error fault => (.error fault, w')
        | .ok (t', finalization) => (.ok (), { w' with string := .native t', finalization }) := by
  rw [adjust, run_bind]
  rcases toNative.run.run w with ⟨fault | t, w'⟩
  · rfl
  · simp only [run_bind, run_get]
    cases change t w'.finalization <;> rfl

theorem toNative_native {t : NativeText} (native : w.string = .native t) :
    toNative.run.run w = (.ok t, w) := by
  obtain ⟨string, ledger, finalization⟩ := w
  cases native
  rfl

/-- A text in native memory that is made to move does so, or the call fails. -/
theorem adjust_moves {t : NativeText} (native : w.string = .native t)
    {change : NativeText → Finalization → Except Fault (NativeText × Finalization)}
    (moves : ∀ t' f', change t w.finalization = .ok (t', f') → t.Moves w.finalization t' f')
    (passed : ((adjust change).run.run w).1 = .ok ()) :
    ((adjust change).run.run w).2.string.buffer? = some w.finalization.nextId := by
  have ran := adjust_run (w := w) change
  simp only [toNative_native native] at ran
  cases changed : change t w.finalization with
  | error fault =>
    simp only [changed] at ran
    rw [ran] at passed
    cases passed
  | ok result =>
    simp only [changed] at ran
    rw [ran]
    exact congrArg some (moves _ _ changed).id

theorem adjust_tends {change : NativeText → Finalization → Except Fault (NativeText × Finalization)}
    (moves : ∀ t f t' f', change t f = .ok (t', f') → t.Moves f t' f' ∨ t.Stays f t' f') :
    Tends (adjust change) w := by
  have taken := toNative_tends w
  have moved (t) := toNative_string (w := w) (t := t)
  have ran := adjust_run (w := w) change
  generalize toNative.run.run w = native at taken moved ran
  obtain ⟨fault | t, w'⟩ := native
  · exact .of_run ran taken.turnover fun _ _ => taken
  · have native : w'.string = .native t := moved t rfl
    cases changed : change t w'.finalization with
    | error fault =>
      simp only [changed] at ran
      exact .of_run ran taken.turnover fun _ _ => taken
    | ok result =>
      obtain ⟨t', f'⟩ := result
      simp only [changed] at ran
      simp only [native, OwnedString.buffer?] at taken
      exact .of_run ran (NativeText.turnover_after taken (moves t _ t' f' changed))
        fun _ failed => nomatch failed

theorem setLength_tends (n : Nat) : Tends (setLength n) w := by
  refine adjust_tends fun t f t' f' set => ?_
  split at set <;> exact NativeText.moves_or_stays (NativeText.setByteLength_moves set)

theorem resize_tends (n : Nat) : Tends (resize n) w := by
  refine adjust_tends fun t f t' f' resized => ?_
  split at resized
  · cases resized
    exact .inr ⟨rfl, rfl⟩
  · exact NativeText.moves_or_stays (NativeText.resize_moves resized)

end StringOp

theorem OwnedString.Call.tends (call : Call) (w : Workspace) : StringOp.Tends call.op w := by
  have native : StringOp.Tends StringOp.toNative w :=
    ⟨(StringOp.toNative_tends w).turnover, fun _ _ => StringOp.toNative_tends w⟩
  cases call with
  | toNative => exact native.answering _
  | capacity =>
    have capacity : StringOp.Tends StringOp.capacity w := native.answering _
    exact capacity.answering _
  | setLength n => exact (StringOp.setLength_tends n).answering _
  | resize n => exact (StringOp.resize_tends n).answering _
  | clearCodeRange => exact StringOp.clearCodeRange_steady.tends.answering _
  | read index => exact (StringOp.read_steady index).tends.answering _
  | write index byte => exact (StringOp.write_steady index byte).tends.answering _
  | cLength => exact StringOp.cLength_steady.tends.answering _
  | setRope rope => exact (StringOp.setRope_tends rope).answering _
  | getRope => exact StringOp.getRope_steady.tends.answering _
  | codeRange => exact StringOp.codeRange_steady.tends.answering _
  | characterLength => exact StringOp.characterLength_steady.tends.answering _
  | bytes => exact StringOp.bytes_steady.tends.answering _
  | getByte index => exact (StringOp.getByte_steady index).tends.answering _

end RopeBridge
