import RopeBridge.Proofs.Native.Invariant
import RopeBridge.Proofs.OwnedString.Standing

/-! What is known in the hands of clients that claim what they like. No text is said to have more
characters than bytes, and what has become known stays known, so that all is still right of the
nodes of the start. A string of which nothing wrong is known is right over its own nodes and those,
whatever is said of other strings. -/

namespace RopeBridge

open Ledger (Kept)

namespace NativeText

variable {t t' : NativeText} {f f' : Finalization}

/-- A text within its buffer that is not said to have more characters than bytes. -/
structure Bounded (t : NativeText) : Prop extends Contained t where
  metadata : t.metadata.Fits .bounded t.encoding t.bytes

theorem bounded_of_length (h : t.Contained)
    (few : ∀ n, t.metadata.characterLength = some n → n ≤ t.byteLength) : t.Bounded where
  toContained := h
  metadata := ⟨id, fun n found => by
    show n ≤ t.bytes.length
    rw [t.length_bytes]
    exact few n found⟩

theorem codeRange_bounded (h : t.Bounded) : t.codeRange.2.Bounded := by
  unfold codeRange
  split
  next => exact h
  next => exact ⟨h.toContained.other _, h.metadata.publishScan Reading.bounded_lawful⟩

theorem characterLength_bounded (h : t.Bounded) : t.characterLength.2.Bounded := by
  unfold characterLength
  split
  next => exact h
  next =>
    have scanned := codeRange_bounded h
    generalize t.codeRange = found at scanned
    obtain ⟨range, t'⟩ := found
    dsimp only at scanned ⊢
    split
    next => exact scanned
    next =>
      have few := t'.encoding.countCharacters_le range t'.bytes
      rw [t'.length_bytes] at few
      refine ⟨scanned.toContained.other _, scanned.metadata.publishCharacterLength ?_⟩
      show _ ≤ t'.bytes.length
      rwa [t'.length_bytes]

theorem setByte_bounded (h : t.Bounded) {index : Nat} {byte : UInt8}
    (written : t.setByte index byte = .ok t') : t'.Bounded := by
  refine bounded_of_length (setByte_contained h.toContained written) fun n found => ?_
  obtain ⟨_, rfl⟩ := setByte_ok written
  dsimp only at found
  split at found
  next => cases found
  next =>
    have few := h.metadata.characterLength n found
    exact t.length_bytes ▸ few

theorem Cut.bounded {n : Nat} {x : CodeRange} {chars : Option Nat} (h : Cut t t' n)
    (metadata : t'.metadata = .ofKnown x chars) (few : ∀ k, chars = some k → k ≤ n) :
    t'.Bounded := by
  refine bounded_of_length h.contained fun k found => ?_
  rw [metadata] at found
  simp only [Metadata.ofKnown, Option.bind_eq_some_iff, Metadata.remembered_eq_some_iff] at found
  obtain ⟨_, told, rfl, _⟩ := found
  rw [h.length]
  exact few _ told

end NativeText

/-- A string that is where it should be and not said to have more characters than bytes. -/
def OwnedString.Bounded (nodes : List Rope) : OwnedString → Prop
  | managed r => r ∈ nodes
  | native t => t.Bounded

theorem OwnedString.Bounded.mono {nodes more : List Rope} {s : OwnedString} (h : s.Bounded nodes)
    (grown : nodes ⊆ more) : s.Bounded more := by
  cases s with
  | managed r => exact grown h
  | native t => exact h

structure Workspace.Bounded (nodes : List Rope) (w : Workspace) : Prop where
  ledger : w.ledger.Fits .bounded nodes
  string : w.string.Bounded nodes

/-- After an operation on a string all is still bounded, and nothing known has been lost. -/
def StringOp.Learns {α : Type} (nodes : List Rope) (op : StringOp α) (w : Workspace) : Prop :=
  ∃ more, nodes ⊆ more ∧ (op.run.run w).2.Bounded more ∧
    ∀ id, (w.ledger.entry id).Grows ((op.run.run w).2.ledger.entry id)

namespace StringOp

variable {nodes : List Rope} {w : Workspace} {α β : Type}

/-- An operation after which the nodes are the same. -/
theorem learns_of {op : StringOp α} (bounded : (op.run.run w).2.Bounded nodes)
    (grows : ∀ id, (w.ledger.entry id).Grows ((op.run.run w).2.ledger.entry id)) :
    op.Learns nodes w := ⟨nodes, List.Subset.refl _, bounded, grows⟩

theorem Learns.answering {op : StringOp α} (h : op.Learns nodes w) (answer : α → β) :
    (op >>= fun a => pure (answer a)).Learns nodes w := by
  unfold Learns
  rwa [run_answering]

theorem query_learns (h : w.Bounded nodes) {q : Query α} (keeps : q.Keeps nodes) :
    (query q).Learns nodes w :=
  learns_of ⟨(keeps.answers w.ledger h.ledger).1, h.string⟩ (keeps.along w.ledger h.ledger).grows

/-- A change of a text in native memory has nothing to do with the ledger. -/
theorem learns_native {op : StringOp α} (h : w.Bounded nodes) {t : NativeText} (bounded : t.Bounded)
    (string : (op.run.run w).2.string = .native t) (ledger : (op.run.run w).2.ledger = w.ledger) :
    op.Learns nodes w := by
  refine learns_of ⟨?_, ?_⟩ fun id => ?_
  · rw [ledger]
    exact h.ledger
  · rw [string]
    exact bounded
  · rw [ledger]
    exact .refl _

theorem codeRange_learns (h : w.Bounded nodes) : codeRange.Learns nodes w := by
  obtain ⟨string, ledger, finalization⟩ := w
  cases string with
  | managed r => exact query_learns h (Rope.codeRange_keeps h.string)
  | native t => exact learns_native h (NativeText.codeRange_bounded h.string) rfl rfl

theorem characterLength_learns (h : w.Bounded nodes) : characterLength.Learns nodes w := by
  obtain ⟨string, ledger, finalization⟩ := w
  cases string with
  | managed r => exact query_learns h (Rope.characterLength_keeps h.string)
  | native t => exact learns_native h (NativeText.characterLength_bounded h.string) rfl rfl

theorem bytes_learns (h : w.Bounded nodes) : bytes.Learns nodes w := by
  obtain ⟨string, ledger, finalization⟩ := w
  cases string with
  | managed r => exact query_learns h (Rope.bytes_keeps h.string)
  | native t => exact learns_native h h.string rfl rfl

theorem cLength_learns (h : w.Bounded nodes) : cLength.Learns nodes w := by
  obtain ⟨string, ledger, finalization⟩ := w
  cases string with
  | managed r => exact (query_learns h (Rope.bytes_keeps h.string)).answering _
  | native t => exact learns_native h h.string rfl rfl

theorem clearCodeRange_learns (h : w.Bounded nodes) : clearCodeRange.Learns nodes w := by
  obtain ⟨string, ledger, finalization⟩ := w
  cases string with
  | managed r => exact learns_of h fun _ => .refl _
  | native t =>
    have cleared : t.clear.Bounded := ⟨h.string.toContained.other {}, .unknown⟩
    exact learns_native h cleared rfl rfl

theorem build_getByte_learns (h : w.Bounded nodes) (r : Rope) (index : Nat) :
    (build (r.getByte index)).Learns nodes w := by
  have same : ((build (r.getByte index)).run.run w).2 = w := by rw [run_build, Rope.getByte_run]
  refine learns_of ?_ fun id => ?_
  · rwa [same]
  · rw [same]
    exact .refl _

theorem getByte_learns (h : w.Bounded nodes) (index : Nat) : (getByte index).Learns nodes w := by
  obtain ⟨string, ledger, finalization⟩ := w
  cases string with
  | managed r => exact build_getByte_learns h r index
  | native t => exact learns_native h h.string rfl rfl

theorem read_learns (h : w.Bounded nodes) (index : Nat) : (read index).Learns nodes w := by
  obtain ⟨string, ledger, finalization⟩ := w
  cases string with
  | managed r =>
    simp only [Learns, read, run_bind, run_current]
    split
    next => exact build_getByte_learns h r index
    next => exact ⟨nodes, List.Subset.refl _, h, fun _ => .refl _⟩
  | native t => exact learns_native h h.string rfl rfl

/-- A write into a rope reads its bytes and makes a node of them. -/
theorem write_learns (h : w.Bounded nodes) (index : Nat) (byte : UInt8) :
    (write index byte).Learns nodes w := by
  obtain ⟨string, ledger, finalization⟩ := w
  cases string with
  | managed r =>
    obtain ⟨more, copy, l', grown, fits, known, ran⟩ :=
      write_managed Reading.bounded_lawful h.string h.ledger finalization index byte
    refine ⟨more, grown, by rw [ran]; exact ⟨fits, known⟩, ?_⟩
    simp only [write, run_bind, run_current]
    split
    next => exact fun _ => .refl _
    next =>
      have bytes : Query.Keeps nodes _ := Rope.bytes_keeps h.string
      have read := bytes.along ledger h.ledger
      have made := Rope.ofBytes_keeps r.encoding ((r.bytes.run ledger).1.set index byte) .unknown
        _ (bytes.answers ledger h.ledger).1
      exact fun id => (read.grows id).trans (made.grows id)
  | native t =>
    obtain ⟨t', ran, rfl | written⟩ := write_native t ledger finalization index byte
    · exact learns_native h h.string (by rw [ran]) (by rw [ran])
    · exact learns_native h (NativeText.setByte_bounded h.string written) (by rw [ran]) (by rw [ran])

theorem getRope_learns (h : w.Bounded nodes) : ∃ more, nodes ⊆ more ∧
    (getRope.run.run w).2.Bounded more ∧
    (∀ id, (w.ledger.entry id).Grows ((getRope.run.run w).2.ledger.entry id)) ∧
    ∀ r, (getRope.run.run w).1 = .ok r → r ∈ more := by
  obtain ⟨string, ledger, finalization⟩ := w
  cases string with
  | managed r =>
    refine ⟨nodes, List.Subset.refl _, h, fun _ => .refl _, ?_⟩
    rintro _ ⟨⟩
    exact h.string
  | native t =>
    have text : t.Bounded := h.string
    obtain ⟨more, grown, fits, denotes⟩ := NativeText.toRope_makes Reading.bounded_lawful
      text.toContained text.metadata ledger h.ledger
    have kept := NativeText.toRope_keeps t ledger h.ledger
    refine ⟨more, grown, ⟨fits, h.string⟩, kept.grows, ?_⟩
    rintro _ ⟨⟩
    exact denotes.known

theorem toNative_ledger (w : Workspace) : (toNative.run.run w).2.ledger =
    match w.string with
    | .managed r => ((NativeText.ofRope w.finalization r).run w.ledger).2
    | .native _ => w.ledger := by
  obtain ⟨string, ledger, finalization⟩ := w
  cases string with
  | native t => rfl
  | managed r =>
    simp only [toNative, run_bind, run_current, run_get, run_query]
    cases ((NativeText.ofRope finalization r).run ledger).1 <;> rfl

theorem toNative_learns (h : w.Bounded nodes) : toNative.Learns nodes w ∧
    ∀ t, (toNative.run.run w).1 = .ok t → t.Bounded := by
  obtain ⟨string, ledger, finalization⟩ := w
  cases string with
  | native t =>
    refine ⟨learns_native h h.string rfl rfl, ?_⟩
    rintro _ ⟨⟩
    exact h.string
  | managed r =>
    have moves : Query.Keeps nodes (NativeText.ofRope finalization r) :=
      NativeText.ofRope_keeps h.string
    have kept := moves.along ledger h.ledger
    have grows : ∀ id, (ledger.entry id).Grows
        ((toNative.run.run ⟨.managed r, ledger, finalization⟩).2.ledger.entry id) := by
      rw [toNative_ledger]
      exact kept.grows
    obtain ⟨l', fits, ⟨fault, ran⟩ | ⟨t, f', ran, copy⟩⟩ :=
      toNative_managed h.string h.ledger finalization
    · refine ⟨learns_of ?_ grows, by simp [ran]⟩
      rw [ran]
      exact ⟨fits, h.string⟩
    · have bounded : t.Bounded := by
        refine ⟨copy.contained, ?_⟩
        rw [copy.encoding, copy.bytes]
        exact copy.metadata
      refine ⟨learns_of ?_ grows, ?_⟩
      · rw [ran]
        exact ⟨fits, bounded⟩
      · rw [ran]
        rintro _ ⟨⟩
        exact bounded

theorem adjust_learns (h : w.Bounded nodes)
    {change : NativeText → Finalization → Except Fault (NativeText × Finalization)}
    (kept : ∀ t f t' f', t.Bounded → change t f = .ok (t', f') → t'.Bounded) :
    (adjust change).Learns nodes w := by
  obtain ⟨⟨more, grown, bounded, grows⟩, moved⟩ := toNative_learns h
  unfold Learns
  rw [adjust_run]
  generalize toNative.run.run w = native at bounded grows moved
  obtain ⟨fault | t, w'⟩ := native
  · exact ⟨more, grown, bounded, grows⟩
  · cases changed : change t w'.finalization with
    | error fault =>
      simp only [changed]
      exact ⟨more, grown, bounded, grows⟩
    | ok result =>
      obtain ⟨t', f'⟩ := result
      simp only [changed]
      exact ⟨more, grown, ⟨bounded.ledger, kept t _ t' f' (moved t rfl) changed⟩, grows⟩

theorem setLength_learns (h : w.Bounded nodes) (n : Nat) : (setLength n).Learns nodes w := by
  refine adjust_learns h fun t f t' f' bounded set => ?_
  split at set
  next =>
    obtain ⟨cut, metadata⟩ := NativeText.setByteLength_cut bounded.toContained set
    refine cut.bounded metadata ?_
    rintro _ ⟨⟩
    exact Nat.le_refl n
  next =>
    obtain ⟨cut, metadata⟩ := NativeText.setByteLength_cut bounded.toContained set
    exact cut.bounded metadata fun _ told => nomatch told

theorem resize_learns (h : w.Bounded nodes) (n : Nat) : (resize n).Learns nodes w := by
  refine adjust_learns h fun t f t' f' bounded resized => ?_
  split at resized
  next =>
    cases resized
    exact ⟨bounded.toContained.other {}, .unknown⟩
  next =>
    obtain ⟨cut, metadata⟩ := NativeText.resize_cut bounded.toContained resized
    have unknown : t'.metadata = .ofKnown .unknown none := metadata
    exact cut.bounded unknown fun _ told => nomatch told

end StringOp

namespace OwnedString.Call

variable {nodes : List Rope} {w : Workspace}

/-- A call that answers with no rope has to lose nothing. -/
theorem learns_of {α : Type} {op : StringOp α} {answer : α → Reply} {call : Call}
    (does : call.op = op >>= fun a => pure (answer a)) (plain : ∀ a r, answer a ≠ .rope r)
    (learns : op.Learns nodes w) :
    ∃ more, nodes ⊆ more ∧ (call.run w).2.Bounded more ∧
      (∀ id, (w.ledger.entry id).Grows ((call.run w).2.ledger.entry id)) ∧
      ∀ r, (call.run w).1 = .ok (.rope r) → r ∈ more := by
  obtain ⟨more, grown, bounded, grows⟩ := learns
  rw [run, does, StringOp.run_answering]
  refine ⟨more, grown, bounded, grows, fun r given => ?_⟩
  cases answered : (op.run.run w).1 with
  | error fault => simp [answered, Except.map] at given
  | ok a =>
    rw [answered] at given
    exact absurd (Except.ok.inj given) (plain a r)

theorem learns (h : w.Bounded nodes) {call : Call} (knows : call.Knows nodes) :
    ∃ more, nodes ⊆ more ∧ (call.run w).2.Bounded more ∧
      (∀ id, (w.ledger.entry id).Grows ((call.run w).2.ledger.entry id)) ∧
      ∀ r, (call.run w).1 = .ok (.rope r) → r ∈ more := by
  have native := (StringOp.toNative_learns h).1
  cases call with
  | toNative => exact learns_of rfl (by simp) native
  | capacity =>
    have asked : StringOp.capacity.Learns nodes w := native.answering _
    exact learns_of rfl (by simp) asked
  | setLength n => exact learns_of rfl (by simp) (StringOp.setLength_learns h n)
  | resize n => exact learns_of rfl (by simp) (StringOp.resize_learns h n)
  | clearCodeRange => exact learns_of rfl (by simp) (StringOp.clearCodeRange_learns h)
  | read index => exact learns_of rfl (by simp) (StringOp.read_learns h index)
  | write index byte => exact learns_of rfl (by simp) (StringOp.write_learns h index byte)
  | cLength => exact learns_of rfl (by simp) (StringOp.cLength_learns h)
  | setRope r =>
    have replaced : (StringOp.setRope r).Learns nodes w :=
      StringOp.learns_of ⟨h.ledger, knows⟩ fun _ => .refl _
    exact learns_of rfl (by simp) replaced
  | getRope =>
    obtain ⟨more, grown, bounded, grows, given⟩ := StringOp.getRope_learns h
    rw [run, op, StringOp.run_answering]
    refine ⟨more, grown, bounded, grows, fun r answer => ?_⟩
    cases answered : (StringOp.getRope.run.run w).1 with
    | error fault => simp [answered, Except.map] at answer
    | ok a =>
      rw [answered] at answer
      cases answer
      exact given r answered
  | codeRange => exact learns_of rfl (by simp) (StringOp.codeRange_learns h)
  | characterLength => exact learns_of rfl (by simp) (StringOp.characterLength_learns h)
  | bytes => exact learns_of rfl (by simp) (StringOp.bytes_learns h)
  | getByte index => exact learns_of rfl (by simp) (StringOp.getByte_learns h index)

end OwnedString.Call

namespace Strings

open OwnedString (Call)

/-- All strings are bounded, and everything that was known at the start is known. -/
structure Learned (s : Strings) : Prop where
  bounded : ∃ nodes, s.ropes.ledger.Fits .bounded nodes ∧ s.ropes.ropes ⊆ nodes ∧
    ∀ x ∈ s.strings, x.Bounded nodes
  grown : ∀ id, (Ledger.initial.entry id).Grows (s.ropes.ledger.entry id)

variable {s : Strings} {nodes : List Rope}

theorem start_learned : Learned ⟨[], .start⟩ where
  bounded := by
    obtain ⟨nodes, fits, among⟩ := Collection.start_fits Reading.bounded_lawful
    exact ⟨nodes, fits, among, fun _ none => nomatch none⟩
  grown _ := .refl _

theorem Learned.make (h : s.Learned) {x : OwnedString}
    (bounded : ∀ nodes, s.ropes.ropes ⊆ nodes → x.Bounded nodes) :
    Learned { s with strings := x :: s.strings } where
  bounded := by
    obtain ⟨nodes, fits, among, strings⟩ := h.bounded
    exact ⟨nodes, fits, among, List.forall_mem_cons.2 ⟨bounded nodes among, strings⟩⟩
  grown := h.grown

theorem Learned.step (h : s.Learned) (call : Rope.Action) :
    Learned { s with ropes := s.ropes.step call } := by
  obtain ⟨nodes, fits, among, strings⟩ := h.bounded
  have kept := Collection.step_kept fits.toClosed fits among call
  obtain ⟨more, grown, fits', among'⟩ :=
    Collection.step_grows Reading.bounded_lawful fits among call.trusted_bounded
  exact ⟨⟨more, fits', among', fun x member => (strings x member).mono grown⟩,
    fun id => (h.grown id).trans (kept.grows id)⟩

theorem Learned.call (h : s.Learned) {i : Nat} {x : OwnedString} (present : s.strings[i]? = some x)
    (f : Finalization) {c : Call} (held : c.Knows s.ropes.ropes) :
    Learned (s.put i ((s.edit x f).call c).2) := by
  obtain ⟨nodes, fits, among, strings⟩ := h.bounded
  have right : (s.edit x f).workspace.Bounded nodes :=
    ⟨fits, strings x (List.mem_of_getElem? present)⟩
  have knows : c.Knows nodes := by
    cases c with
    | setRope r => exact among held
    | _ => trivial
  obtain ⟨more, grown, bounded, grows, given⟩ := Call.learns right knows
  have others : ∀ y, y ∈ s.strings.set i (c.run (s.edit x f).workspace).2.string →
      y.Bounded more := by
    intro y member
    obtain old | rfl := List.mem_or_eq_of_mem_set member
    · exact (strings y old).mono grown
    · exact bounded.string
  simp only [Editing.call, put]
  generalize c.run (s.edit x f).workspace = ran at bounded grows given others
  obtain ⟨reply, w'⟩ := ran
  have later : ∀ id, (Ledger.initial.entry id).Grows (w'.ledger.entry id) :=
    fun id => (h.grown id).trans (grows id)
  have among' := List.Subset.trans among grown
  dsimp only at bounded given others ⊢
  split
  next r =>
    have known : s.ropes.ropes ++ [r] ⊆ more :=
      List.append_subset.2 ⟨among', List.cons_subset.2 ⟨given r rfl, List.nil_subset _⟩⟩
    exact ⟨⟨more, bounded.ledger, known, others⟩, later⟩
  next => exact ⟨⟨more, bounded.ledger, among', others⟩, later⟩

theorem Reached.learned (reached : Reached s) : s.Learned := by
  induction reached with
  | start => exact start_learned
  | ropes _ call ih => exact ih.step call
  | managed _ held ih => exact ih.make fun _ among => among held
  | zeros _ made ih =>
    obtain ⟨contained, unknown, _⟩ := NativeText.zeros_ok made
    refine ih.make fun _ _ => NativeText.bounded_of_length contained fun n found => ?_
    rw [unknown] at found
    cases found
  | call _ present f held ih => exact ih.call present f held

end Strings

/-- What is remembered about a string, about each node of its rope or about its text, is what a scan
finds. -/
def OwnedString.Described (l : Ledger) : OwnedString → Prop
  | managed r => ∀ p : Rope, p.Within r →
    (l.entry p.id).toMetadata.Fits .exact p.encoding p.toBytes
  | native t => t.metadata.Fits .exact t.encoding t.bytes

theorem Rope.Within.down {n p r : Rope} (h : p.Within r) (part : n ∈ p.parts) : n.Within r := by
  induction h with
  | self => exact .part part .self
  | part member _ ih => exact .part member ih

namespace Ledger

/-- A ledger that says nothing wrong of the nodes of a rope is right for them. -/
theorem own_fits {R : Reading} {nodes : List Rope} {l : Ledger} (fits : l.Fits R nodes)
    (grown : ∀ id, (initial.entry id).Grows (l.entry id)) {r : Rope} (known : r ∈ nodes)
    (described : (OwnedString.managed r).Described l) :
    ∃ own, l.Fits .exact own ∧ r ∈ own := by
  classical
  have start := canonical_fits fits grown
  let own := Rope.canonical ++ nodes.filter (·.Within r)
  have mem {p : Rope} : p ∈ own ↔ p ∈ Rope.canonical ∨ p ∈ nodes ∧ p.Within r := by simp [own]
  have among : own ⊆ nodes := by
    intro p member
    rcases mem.1 member with first | ⟨known, _⟩
    · exact fits.canonical first
    · exact known
  refine ⟨own, ⟨⟨fun p member part inside => mem.2 ?_, fun a ha b hb => ?_, fun p member => ?_, ?_⟩,
    fun p member => ?_, fun p member => ?_⟩, mem.2 (.inr ⟨known, .self⟩)⟩
  · rcases mem.1 member with first | ⟨known, within⟩
    · exact .inl (start.parts p first part inside)
    · exact .inr ⟨fits.parts p known part inside, within.down inside⟩
  · exact fits.unique a (among ha) b (among hb)
  · exact fits.sound p (among member)
  · exact List.subset_append_left _ _
  · exact fits.inside p (among member)
  · have entry := fits.entry p (among member)
    rcases mem.1 member with first | ⟨_, within⟩
    · exact start.entry p first
    · exact ⟨described p within, entry.bytes, entry.hash⟩

end Ledger

/-- In any history a string of which nothing wrong is known is right for itself. -/
theorem Strings.Reached.fits {s : Strings} (reached : s.Reached) {x : OwnedString}
    (present : x ∈ s.strings) (described : x.Described s.ropes.ledger) (f : Finalization) :
    ∃ nodes, (s.edit x f).workspace.Fits nodes := by
  obtain ⟨⟨nodes, fits, _, strings⟩, grown⟩ := reached.learned
  cases x with
  | managed r =>
    obtain ⟨own, right, known⟩ := Ledger.own_fits fits grown (strings _ present) described
    exact ⟨own, right, known⟩
  | native t =>
    have bounded : t.Bounded := strings _ present
    exact ⟨_, Ledger.canonical_fits fits grown, bounded.room, bounded.allocated, described⟩

end RopeBridge
