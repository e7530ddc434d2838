import RopeBridge.Proofs.System.RoundTrip

/-! The words of handles. A word is read as a value, is that of an object, or is nobody's. What is
written in words is read back from them, a word of the region tells its block and its slot, and no
handle that an object has ever been given is the word of a value. -/
namespace RopeBridge

namespace Handle

variable {h h' : Handle} {v : Value} {i k : Nat}

theorem isInt_iff : h.isInt = true ↔ h.word.toNat % 2 = 1 := by
  simp only [isInt, decide_eq_true_eq]

theorem isObject_iff : h.isObject = true ↔ h.word ≠ 0 ∧ h.word.toNat % 8 = 0 := by
  simp only [isObject, Bool.and_eq_true, decide_eq_true_eq]

/-! The arithmetic of words is what shifts and masks do. -/

theorem isInt_iff_and : h.isInt = true ↔ h.word &&& 1 = 1 := by
  rw [isInt_iff, ← UInt64.toNat_inj, UInt64.toNat_and]
  show _ ↔ h.word.toNat &&& 1 = 1
  rw [Nat.and_one_is_mod]

theorem isObject_iff_and : h.isObject = true ↔ h.word ≠ 0 ∧ h.word &&& 7 = 0 := by
  rw [isObject_iff, ← UInt64.toNat_inj (a := _ &&& _), UInt64.toNat_and]
  show _ ↔ _ ∧ h.word.toNat &&& 2 ^ 3 - 1 = 0
  rw [Nat.and_two_pow_sub_one_eq_mod]

theorem slot_eq_shift (h : Handle) : h.slot = ((h.word &&& 0x7fff) >>> 3).toNat := by
  rw [UInt64.toNat_shiftRight, UInt64.toNat_and, Nat.shiftRight_eq_div_pow]
  show _ = (h.word.toNat &&& 2 ^ 15 - 1) / 8
  rw [Nat.and_two_pow_sub_one_eq_mod]
  rfl

theorem toInt_eq_shift (h : Handle) : h.toInt = h.word.toInt64 >>> 1 := by
  have low := h.word.toInt64.le_toInt
  have high := h.word.toInt64.toInt_lt
  have one : ((1 : Int64).toBitVec.smod 64).toNat = 1 := by decide
  rw [← Int64.toInt_inj, toInt, Int64.toInt_ofInt_of_le (by omega) (by omega),
    ← Int64.toInt_toBitVec (h.word.toInt64 >>> 1), Int64.toBitVec_shiftRight,
    BitVec.sshiftRight_eq', one, BitVec.toInt_sshiftRight, Int.shiftRight_eq_div_pow,
    Int64.toInt_toBitVec]
  rfl

/-- Doubling and making odd is a shift that a bit is put behind, for negative numbers too. -/
theorem ofInt_eq_shift (n : Int64) : (ofInt n).word = n.toUInt64 <<< 1 ||| 1 := by
  have double : BitVec.ofInt 64 (2 * n.toInt + 1) = 2#64 * n.toBitVec + 1#64 := by
    rw [BitVec.ofInt_add, BitVec.ofInt_mul, ← Int64.toInt_toBitVec, BitVec.ofInt_toInt]
    rfl
  have apart : n.toBitVec <<< 1 &&& 1#64 = 0#64 := by
    ext i
    simp
    omega
  rw [← UInt64.toBitVec_inj]
  show BitVec.ofInt 64 (2 * n.toInt + 1) = n.toBitVec <<< 1 ||| 1#64
  rw [double, ← BitVec.add_eq_or_of_and_eq_zero _ _ apart, BitVec.shiftLeft_eq_mul_twoPow,
    BitVec.mul_comm]
  rfl

/-! What is written in words. -/

/-- Writing a value and reading a word undo each other. -/
theorem ofImmediate?_eq_some_iff : ofImmediate? v = some h ↔ h.immediate? = some v :=
  ⟨immediate?_of_ofImmediate?, ofImmediate?_of_immediate?⟩

theorem immediate?_isSome_iff :
    h.immediate?.isSome ↔ h.word.toNat % 2 = 1 ∨ h.word ∈ [0, 2, 4, 6] := by
  have word (w : UInt64) : h = ⟨w⟩ ↔ h.word = w := by
    cases h
    exact Handle.mk.injEq _ _ ▸ Iff.rfl
  rw [← isInt_iff]
  simp only [immediate?, ofFalse, ofTrue, ofNil, ofUndef, word, List.mem_cons, List.not_mem_nil,
    or_false]
  grind

theorem ofImmediate?_int_isSome_iff (n : Int64) :
    (ofImmediate? (.int n)).isSome ↔
      -0x4000000000000000 ≤ n.toInt ∧ n.toInt ≤ 0x3fffffffffffffff := by
  have inside : fitsWord n ↔
      -0x4000000000000000 ≤ n.toInt ∧ n.toInt ≤ 0x3fffffffffffffff := by
    simp only [fitsWord, Bool.and_eq_true, decide_eq_true_eq]
    omega
  rw [← inside, Value.int, ofImmediate?]
  cases fitsWord n with
  | true => exact iff_of_true rfl rfl
  | false => exact iff_of_false Bool.false_ne_true Bool.false_ne_true

/-! Whose a word is. -/

/-- What a word can be. -/
inductive Role where
  | value
  | object
  /-- The word is neither read as a value nor that of an object, and no bridge knows it. -/
  | stray

def Plays (h : Handle) : Role → Prop
  | .value => h.immediate?.isSome
  | .object => h.isObject = true
  | .stray => h.immediate? = none ∧ h.isObject = false ∧
      ∀ b : Bridge, b.unwrap h = .error (.handleNotFound h.word)

theorem immediate?_of_isObject (object : h.isObject = true) : h.immediate? = none := by
  obtain ⟨nonzero, aligned⟩ := isObject_iff.1 object
  have small : h.word ∉ [0, 2, 4, 6] := by
    simp only [List.mem_cons, List.not_mem_nil, or_false]
    rintro (zero | two | four | six)
    · exact nonzero zero
    · rw [two] at aligned
      exact absurd aligned (by decide)
    · rw [four] at aligned
      exact absurd aligned (by decide)
    · rw [six] at aligned
      exact absurd aligned (by decide)
  rw [← Option.not_isSome_iff_eq_none, immediate?_isSome_iff]
  rintro (odd | listed)
  · omega
  · exact small listed

theorem unwrap_of_stray (wordless : h.immediate? = none) (nobody : h.isObject = false)
    (b : Bridge) : b.unwrap h = .error (.handleNotFound h.word) := by
  apply Bridge.unwrap_eq_error wordless
  intro id resolves
  obtain ⟨i, place⟩ := resolves.block?
  exact nomatch nobody.symm.trans (isObject_of_block? place)

/-- Every word has one role. -/
theorem existsUnique_plays (h : Handle) : ∃ r, h.Plays r ∧ ∀ r', h.Plays r' → r' = r := by
  cases read : h.immediate? with
  | some v =>
    have value : h.Plays .value := by simp [Plays, read]
    refine ⟨.value, value, fun r' plays => ?_⟩
    cases r' with
    | value => rfl
    | object => exact nomatch read.symm.trans (immediate?_of_isObject plays)
    | stray => exact nomatch read.symm.trans plays.1
  | none =>
    cases object : h.isObject with
    | true =>
      refine ⟨.object, object, fun r' plays => ?_⟩
      cases r' with
      | value => simp [Plays, read] at plays
      | object => rfl
      | stray => exact nomatch object.symm.trans plays.2.1
    | false =>
      refine ⟨.stray, ⟨read, object, unwrap_of_stray read object⟩, fun r' plays => ?_⟩
      cases r' with
      | value => simp [Plays, read] at plays
      | object => exact nomatch object.symm.trans plays
      | stray => rfl

/-! The words of the region. -/

/-- The region ends where a block does, so a block that begins in it is in it. -/
theorem end_of_base {base : UInt64} (begins : base.toNat = regionStart + blockBytes * i) :
    regionStart + blockBytes * (i + 1) ≤ UInt64.size := by
  have below := base.toNat_lt
  rw [begins] at below
  simp only [regionStart, blockBytes, slotsPerBlock, UInt64.size] at below ⊢
  omega

/-- The word of a slot is as many words behind the base of the block. -/
theorem ofSlot_eq {base : UInt64} (begins : base.toNat = regionStart + blockBytes * i)
    (k : Nat) : ofSlot i k = ⟨base + 8 * UInt64.ofNat k⟩ := by
  unfold ofSlot
  rw [UInt64.ofNat_add, UInt64.ofNat_mul, ← begins, UInt64.ofNat_toNat]
  rfl

theorem block?_base {base : UInt64} (begins : base.toNat = regionStart + blockBytes * i)
    (inside : k < slotsPerBlock) :
    (Handle.mk (base + 8 * UInt64.ofNat k)).block? = some i ∧
      (Handle.mk (base + 8 * UInt64.ofNat k)).slot = k := by
  rw [← ofSlot_eq begins]
  exact block?_ofSlot (end_of_base begins) inside

/-- Block and slot tell a word of the region from all others. -/
theorem eq_of_block?_slot (place : h.block? = some i) (place' : h'.block? = some i)
    (slot : h'.slot = h.slot) : h' = h := by
  rw [← ofSlot_block?_slot place, ← ofSlot_block?_slot place', slot]

end Handle

/-- Every wrapper has been made for a slot of a block that has been taken. -/
def HandleTable.InSlots (t : HandleTable) : Prop :=
  ∀ (w : WrapperId) (x : Wrapper), t.wrappers[w]? = some x →
    ∃ i k, i < t.blocks.size ∧ k < Handle.slotsPerBlock ∧ x.handle = .ofSlot i k

namespace HandleTable

variable {t t' : HandleTable} {heap : Heap} {object : ObjectId} {w : WrapperId}
  {told : Option (List ObjectId)}

theorem InSlots.of_kept (inSlots : t.InSlots) (blocks : t.blocks.size ≤ t'.blocks.size)
    (kept : ∀ (u : WrapperId) (x' : Wrapper), t'.wrappers[u]? = some x' →
      ∃ x, t.wrappers[u]? = some x ∧ x'.handle = x.handle) : t'.InSlots := by
  intro u x' there
  obtain ⟨x, before, same⟩ := kept u x' there
  obtain ⟨i, k, taken, inside, made⟩ := inSlots u x before
  exact ⟨i, k, Nat.lt_of_lt_of_le taken blocks, inside, same.trans made⟩

/-- The wrapper that is new stands for a slot of the block that its thread fills. -/
theorem InSlots.allocate (inSlots : t.InSlots) (a : t.Allocates object w t')
    (g : t.Gives object w told t') : t'.InSlots := by
  intro u x there
  rcases a.wrapper_cases there with ⟨rfl, _⟩ | ⟨_, before⟩
  · obtain ⟨i, k, inside, made, holds⟩ := g.place
    obtain ⟨_, b, block, _⟩ := holds
    refine ⟨i, k, lt_size_of_block? block, inside, ?_⟩
    simpa [handle?, there] using made
  · obtain ⟨i, k, taken, inside, made⟩ := inSlots u x before
    exact ⟨i, k, Nat.lt_of_lt_of_le taken g.blocks, inside, made⟩

end HandleTable

namespace Bridge

variable {b b' : Bridge} {log : List Value}

theorem Touches.inSlots (touches : b.Touches b') (arranged : b.handles.Arranged)
    (inSlots : b.handles.InSlots) : b'.handles.InSlots := by
  cases touches with
  | edited _ handles => rwa [handles]
  | marked _ _ handles => rwa [handles]
  | @entered me v object w told t _ _ _ _ allocates handles =>
    have a := arranged.allocate me object
    have g := arranged.allocate_gives me object
    rw [allocates] at a g
    have allocated : t.InSlots := inSlots.allocate a g
    rw [handles]
    exact allocated
  | retired _ handles =>
    rw [handles]
    apply inSlots.of_kept (Nat.le_of_eq arranged.retireThread_blocks.symm)
    rw [HandleTable.retireThread_wrappers]
    exact fun _ x there => ⟨x, there, rfl⟩
  | released _ handles =>
    rw [handles]
    apply inSlots.of_kept (Nat.le_of_eq (HandleTable.size_foldl_clear _ _).symm)
    intro u x' there
    rw [HandleTable.getElem?_wrappers_releaseUnreachable] at there
    obtain ⟨x, before, same⟩ := Option.map_eq_some_iff.1 there
    refine ⟨x, before, ?_⟩
    rw [← same]
    split <;> rfl

end Bridge

namespace System

open Bridge

variable {s s' : System} {es : List Event} {o : Options} {v : Value}

theorem Move.inSlots (move : s.Move es s') (sound : s.Sound o)
    (inSlots : s.bridge.handles.InSlots) : s'.bridge.handles.InSlots := by
  rcases move.touches sound with touches | rfl
  · exact touches.inSlots sound.arranged inSlots
  · exact inSlots

theorem Run.inSlots (run : s.Run es s') (sound : s.Sound o)
    (inSlots : s.bridge.handles.InSlots) : s'.bridge.handles.InSlots := by
  induction run with
  | refl => exact inSlots
  | step before move ih => exact move.inSlots (before.sound sound) ih

theorem Reachable.inSlots (reachable : Reachable o s) : s.bridge.handles.InSlots := by
  obtain ⟨es, run⟩ := reachable
  exact run.inSlots (sound_ofOptions o) fun _ _ there => nomatch there

/-- What words stand for: those that are read without a table, and those that a table has given. -/
structure WordsApart (s : System) : Prop where
  role : ∀ h : Handle, ∃ r, h.Plays r ∧ ∀ r', h.Plays r' → r' = r
  value : ∀ h : Handle, h.Plays .value ↔ h.word.toNat % 2 = 1 ∨ h.word ∈ [0, 2, 4, 6]
  object : ∀ h : Handle, h.Plays .object ↔ h.word ≠ 0 ∧ h.word.toNat % 8 = 0
  written : ∀ (v : Value) (h : Handle), Handle.ofImmediate? v = some h ↔ h.immediate? = some v
  ints : ∀ n : Int64, (Handle.ofImmediate? (.int n)).isSome ↔
    -0x4000000000000000 ≤ n.toInt ∧ n.toInt ≤ 0x3fffffffffffffff
  /-- From the base of a block on, the words tell the block and the slot. -/
  place : ∀ (base : UInt64) (i k : Nat),
    base.toNat = Handle.regionStart + Handle.blockBytes * i → k < Handle.slotsPerBlock →
      (Handle.mk (base + 8 * UInt64.ofNat k)).block? = some i ∧
        (Handle.mk (base + 8 * UInt64.ofNat k)).slot = k
  apart : ∀ (h h' : Handle) (i : Nat), h.block? = some i → h'.block? = some i →
    h'.slot = h.slot → h' = h
  /-- A handle that an object has ever been given is in the region and that of no value. -/
  issued : ∀ (w : WrapperId) (x : Wrapper), s.bridge.handles.wrappers[w]? = some x →
    x.handle.Plays .object ∧ x.handle.block?.isSome ∧ ∀ v, Handle.ofImmediate? v ≠ some x.handle
  /-- So is the answer for a value that has no word. -/
  wrapped : ∀ me v, s.bridge.heap.Has v → Handle.ofImmediate? v = none →
    ((wrap me v).run s.bridge).2.handles.InRegion →
      ((wrap me v).run s.bridge).1.Plays .object ∧
        ∀ u, Handle.ofImmediate? u ≠ some ((wrap me v).run s.bridge).1

/-- Words of values, words of objects and all others are kept apart, whatever handles have been
given out. -/
theorem wordsApart (reachable : Reachable o s) (fits : s.bridge.handles.InRegion) :
    s.WordsApart := by
  have apart : ∀ {h : Handle} {i : Nat}, h.block? = some i → ∀ v, Handle.ofImmediate? v ≠ some h :=
    fun place v written =>
      nomatch (Handle.immediate?_of_block? place).symm.trans
        (Handle.immediate?_of_ofImmediate? written)
  constructor
  case role => exact Handle.existsUnique_plays
  case value => exact fun _ => Handle.immediate?_isSome_iff
  case object => exact fun _ => Handle.isObject_iff
  case written => exact fun _ _ => Handle.ofImmediate?_eq_some_iff
  case ints => exact Handle.ofImmediate?_int_isSome_iff
  case place => exact fun _ _ _ => Handle.block?_base
  case apart => exact fun _ _ _ => Handle.eq_of_block?_slot
  case issued =>
    intro w x there
    obtain ⟨i, k, taken, inside, made⟩ := reachable.inSlots w x there
    obtain ⟨place, _⟩ := Handle.block?_ofSlot (fits.block taken) inside
    rw [← made] at place
    exact ⟨Handle.isObject_of_block? place, Option.isSome_of_eq_some place, apart place⟩
  case wrapped =>
    intro me v has wordless fits'
    obtain ⟨log, faithful⟩ := reachable.sound.faithful
    have wraps := wrap_wraps me v s.bridge
    obtain ⟨log', faithful'⟩ := (wraps.touches has).faithful faithful
    rcases (wraps.names faithful has).resolves faithful' fits' with word | ⟨id, resolves, _⟩
    · exact nomatch wordless.symm.trans word
    · obtain ⟨i, place⟩ := resolves.block?
      exact ⟨Handle.isObject_of_block? place, apart place⟩

/-- An object is made and wrapped. -/
theorem wordsApart_object :
    let s : System := { bridge := ((newObject (.data "Point" 16)).run (.ofOptions {})).2 }
    WordsApart { s with bridge := ((wrap 0 (.object 0)).run s.bridge).2 } := by
  intro s
  have made : (ofOptions {}).Run [] s :=
    .of_move (.act (.beside (.within (Heap.add_edited rfl fun _ member => nomatch member))))
  have has : s.bridge.heap.Has (.object 0) := Heap.has_object.2 (by decide)
  exact wordsApart ⟨_, made.step (.act (.wrap 0 (.object 0) has))⟩ (by decide)

end System

end RopeBridge
