import RopeBridge.Proofs.Handle.Sound

/-! Where wrappers and pins are. A block that a thread fills holds the objects of its slots and lets
go of them when it is retired. A wrapper stays in its slot for as long as it resolves. -/
namespace RopeBridge

namespace HandleTable

/-- The numbers of the blocks that threads fill. -/
def filling (t : HandleTable) : List Nat := t.current.map Prod.snd

/-- A block that is being filled holds an object. -/
def Holds (t : HandleTable) (i : Nat) (id : ObjectId) : Prop :=
  i ∈ t.filling ∧ ∃ b, t.block? i = some b ∧ id ∈ b.pins

/-- From one table to another no pin is lost: those that a block lets go of are `told`. Pins are
added for `new` objects only. -/
structure Passes (t : HandleTable) (told : Option (List ObjectId)) (new : List ObjectId)
    (t' : HandleTable) : Prop where
  keepAlive : t'.keepAlive = t.keepAlive
  pinned : ∀ id ∈ told.getD [], id ∈ t.pins
  pins : ∀ id ∈ t'.pins, id ∈ t.pins ∨ id ∈ new
  holds : t.keepAlive = false → ∀ i id, t.Holds i id →
    t'.Holds i id ∨ i ∉ t'.filling ∧ id ∈ told.getD []

variable {t t' s : HandleTable} {thread : ThreadId} {heap : Heap} {id object : ObjectId}
  {w : WrapperId}

theorem mem_pins_iff : id ∈ t.pins ↔ ∃ i b, t.block? i = some b ∧ id ∈ b.pins := by
  unfold pins block?
  simp only [List.mem_flatMap, Array.mem_toList_iff]
  constructor
  · rintro ⟨place, member, held⟩
    obtain ⟨i, found⟩ := Array.mem_iff_getElem?.1 member
    cases place with
    | none => simp at held
    | some b => exact ⟨i, b, by simp [found], by simpa using held⟩
  · rintro ⟨i, b, found, held⟩
    have place := Option.join_eq_some_iff.1 found
    exact ⟨some b, Array.mem_of_getElem? place, by simpa using held⟩

theorem Holds.mem_pins {i : Nat} (holds : t.Holds i id) : id ∈ t.pins := by
  obtain ⟨_, b, there, held⟩ := holds
  exact mem_pins_iff.2 ⟨i, b, there, held⟩

theorem Passes.refl (t : HandleTable) : t.Passes none [] t := by
  constructor
  case keepAlive => rfl
  case pinned => exact fun _ member => nomatch member
  case pins => exact fun _ => .inl
  case holds => exact fun _ _ _ => .inl

theorem wrapperAt?_eq_some_iff {h : Handle} : t.wrapperAt? h = some w ↔
    ∃ i b, h.block? = some i ∧ t.block? i = some b ∧ b.wrappers[h.slot]? = some w := by
  unfold wrapperAt?
  simp only [Option.bind_eq_bind, Option.bind_eq_some_iff]
  constructor
  · rintro ⟨i, place, b, there, held⟩
    exact ⟨i, b, place, there, held⟩
  · rintro ⟨i, b, place, there, held⟩
    exact ⟨i, place, b, there, held⟩

/-- A thread that fills a block retires it. -/
theorem retireThread_of_lookup {index : Nat} {b : Block}
    (found : t.current.lookup thread = some index) (there : t.block? index = some b) :
    (t.retireThread thread).1 = some (t.retireBlock b).1 ∧ (t.retireThread thread).2 =
      (({ t with current := t.current.filter (·.1 ≠ thread) } : HandleTable).retireBlock b).2 := by
  unfold retireThread
  rw [found]
  dsimp only
  rw [show ({ t with current := t.current.filter (·.1 ≠ thread) } : HandleTable).block? index =
    some b from there]
  unfold retireBlock
  dsimp only
  split <;> exact ⟨rfl, rfl⟩

/-- What retiring the block of a thread tells, and what it leaves of the block. -/
theorem retireThread_some (h : t.Arranged) {index : Nat}
    (found : t.current.lookup thread = some index) :
    ∃ b pins told, t.block? index = some b ∧ (t.retireThread thread).1 = some told ∧
      (∀ i, (t.retireThread thread).2.block? i =
        if i = index then some { b with retired := true, pins } else t.block? i) ∧
      (∀ id ∈ pins, id ∈ b.pins) ∧ (∀ id ∈ told, id ∈ b.pins) ∧
      (t.keepAlive = false → told = b.pins.toList) := by
  obtain ⟨b, there, _, number⟩ := h.filled found
  subst number
  obtain ⟨tells, left⟩ := retireThread_of_lookup found there
  have inside := lt_size_of_block? there
  rw [tells, left]
  unfold retireBlock
  dsimp only
  cases t.keepAlive with
  | true =>
    refine ⟨b, b.pins, [], there, rfl, fun i => ?_, fun _ member => member, ?_, nofun⟩
    · exact block?_setBlock _ i inside
    · exact fun _ member => nomatch member
  | false =>
    refine ⟨b, #[], b.pins.toList, there, rfl, fun i => ?_, ?_, ?_, fun _ => rfl⟩
    · exact block?_setBlock _ i inside
    · exact fun _ member => nomatch Array.not_mem_empty _ member
    · exact fun _ member => Array.mem_toList_iff.1 member

theorem retireThread_keepAlive : (t.retireThread thread).2.keepAlive = t.keepAlive := by
  unfold retireThread
  split
  next => rfl
  next =>
    dsimp only
    split
    next => rfl
    next =>
      unfold retireBlock
      split <;> rfl

/-- What a block holds when it is retired is told. -/
theorem Arranged.retireThread_passes (h : t.Arranged) (thread : ThreadId) :
    t.Passes (t.retireThread thread).1 [] (t.retireThread thread).2 := by
  cases found : t.current.lookup thread with
  | none =>
    have idle : t.retireThread thread = (none, t) := by simp [retireThread, found]
    rw [idle]
    exact .refl t
  | some index =>
    obtain ⟨b, pins, told, there, tells, blocks, fewer, held, all⟩ := retireThread_some h found
    obtain ⟨current, _, _⟩ := retireThread_kept h found
    obtain ⟨_, _, _, others⟩ := h.without found
    constructor
    case keepAlive => exact retireThread_keepAlive
    case pinned =>
      rw [tells]
      exact fun id member => mem_pins_iff.2 ⟨index, b, there, held id member⟩
    case pins =>
      intro id member
      obtain ⟨i, c, place, pinned⟩ := mem_pins_iff.1 member
      rw [blocks] at place
      split at place
      next =>
        cases place
        exact .inl (mem_pins_iff.2 ⟨index, b, there, fewer id pinned⟩)
      next => exact .inl (mem_pins_iff.2 ⟨i, c, place, pinned⟩)
    case holds =>
      rintro off i id ⟨filled, c, place, pinned⟩
      rw [tells]
      by_cases here : i = index
      · subst here
        rw [there] at place
        cases place
        refine .inr ⟨?_, ?_⟩
        · intro member
          rw [filling, current, others] at member
          exact member.2 rfl
        · rw [Option.getD_some, all off]
          exact Array.mem_toList_iff.2 pinned
      · refine .inl ⟨?_, c, ?_, pinned⟩
        · rw [filling, current, others]
          exact ⟨filled, here⟩
        · rw [blocks, if_neg here, place]

/-- A block that is retired stays. -/
theorem Arranged.block?_retireThread_isSome (h : t.Arranged) (thread : ThreadId) {i : Nat}
    {b : Block} (there : t.block? i = some b) :
    ∃ c, (t.retireThread thread).2.block? i = some c := by
  cases found : t.current.lookup thread with
  | none => exact ⟨b, by simpa [retireThread, found] using there⟩
  | some index =>
    obtain ⟨_, _, _, blocks⟩ := block?_retireThread h found
    rw [blocks]
    split
    next => exact ⟨_, rfl⟩
    next => exact ⟨b, there⟩

/-- Retiring moves no wrapper. -/
theorem Arranged.wrapperAt?_retireThread (h : t.Arranged) (thread : ThreadId)
    (handle : Handle) :
    (t.retireThread thread).2.wrapperAt? handle = t.wrapperAt? handle := by
  cases found : t.current.lookup thread with
  | none => simp [retireThread, found]
  | some index =>
    obtain ⟨b, _, there, blocks⟩ := block?_retireThread h found
    unfold wrapperAt?
    cases handle.block? with
    | none => rfl
    | some i =>
      show ((t.retireThread thread).2.block? i).bind _ = (t.block? i).bind _
      rw [blocks]
      split
      next here =>
        rw [here, there]
        rfl
      next => rfl

theorem Arranged.retireThread_blocks (h : t.Arranged) :
    (t.retireThread thread).2.blocks.size = t.blocks.size := by
  cases found : t.current.lookup thread with
  | none => simp [retireThread, found]
  | some index => exact (retireThread_kept h found).2.2

/-- A slot has been given to an object. All wrappers have stayed where they were, and the block of
the slot holds the object. -/
structure Gives (t : HandleTable) (object : ObjectId) (w : WrapperId)
    (told : Option (List ObjectId)) (t' : HandleTable) : Prop where
  passes : t.Passes told [object] t'
  blocks : t.blocks.size ≤ t'.blocks.size
  kept : ∀ handle u, t.wrapperAt? handle = some u → t'.wrapperAt? handle = some u
  found : ∀ handle u, t'.wrapperAt? handle = some u → u = w ∨ t.wrapperAt? handle = some u
  place : ∃ i k, k < Handle.slotsPerBlock ∧ t'.handle? w = some (.ofSlot i k) ∧ t'.Holds i object

/-- The slot is in a block with room, which holds what the block at its number held before. -/
theorem Ready.gives {b : Block} (ready : Ready t s b) (keepAlive : s.keepAlive = t.keepAlive)
    (size : t.blocks.size ≤ s.blocks.size)
    (pins : (t.block? b.index).elim #[] (·.pins) = b.pins) (object : ObjectId) :
    t.Gives object (s.allocateIn b object).1 none (s.allocateIn b object).2 := by
  have blocks := block?_allocateIn b object ready.inside
  have filled : b.index ∈ (s.allocateIn b object).2.filling :=
    (ready.current_iff b.index).2 (.inl rfl)
  constructor
  case blocks =>
    show t.blocks.size ≤ ((s.blocks.setIfInBounds _ _).setIfInBounds _ _).size
    simpa using size
  case passes =>
    constructor
    case keepAlive => exact keepAlive
    case pinned => exact fun _ member => nomatch member
    case pins =>
      intro id member
      obtain ⟨i, c, place, pinned⟩ := mem_pins_iff.1 member
      rw [blocks] at place
      split at place
      next here =>
        cases place
        rcases Array.mem_push.1 pinned with old | rfl
        · rw [← pins] at old
          cases there : t.block? b.index with
          | none => simp [there] at old
          | some c => exact .inl (mem_pins_iff.2 ⟨b.index, c, there, by simpa [there] using old⟩)
        · exact .inr List.mem_cons_self
      next => exact .inl (mem_pins_iff.2 ⟨i, c, (ready.blocks i).symm.trans place, pinned⟩)
    case holds =>
      rintro _ i id ⟨member, c, there, pinned⟩
      refine .inl ⟨(ready.current_iff i).2 (.inr member), ?_⟩
      rw [blocks, ready.blocks]
      by_cases here : i = b.index
      · subst here
        rw [there] at pins
        exact ⟨_, if_pos rfl, Array.mem_push_of_mem _ (pins ▸ pinned)⟩
      · exact ⟨c, (if_neg here).trans there, pinned⟩
  case kept =>
    intro handle u at_
    obtain ⟨i, c, place, there, held⟩ := wrapperAt?_eq_some_iff.1 at_
    apply wrapperAt?_eq_some_iff.2
    by_cases here : i = b.index
    · subst here
      have same : c.wrappers = b.wrappers := by simpa [there] using ready.place
      refine ⟨b.index, _, place, (blocks _).trans (if_pos rfl), ?_⟩
      rw [same] at held
      have inside := (Array.getElem?_eq_some_iff.1 held).1
      rw [Array.getElem?_push, if_neg (Nat.ne_of_lt inside), held]
    · exact ⟨i, c, place, by rw [blocks, if_neg here, ready.blocks, there], held⟩
  case found =>
    intro handle u at_
    obtain ⟨i, c, place, there, held⟩ := wrapperAt?_eq_some_iff.1 at_
    rw [blocks] at there
    split at there
    next here =>
      cases there
      rw [Array.getElem?_push] at held
      split at held
      next =>
        cases held
        exact .inl rfl
      next =>
        rw [← ready.place] at held
        cases before : t.block? b.index with
        | none => simp [before] at held
        | some c =>
          rw [before] at held
          exact .inr (wrapperAt?_eq_some_iff.2 ⟨b.index, c, here ▸ place, before, held⟩)
    next =>
      exact .inr (wrapperAt?_eq_some_iff.2 ⟨i, c, place, (ready.blocks i).symm.trans there, held⟩)
  case place =>
    refine ⟨b.index, b.wrappers.size, ready.room, handle?_allocateIn_new b object, filled, _,
      (blocks _).trans (if_pos rfl), Array.mem_push_self⟩

theorem takeBlockIndex_keepAlive : t.takeBlockIndex.2.keepAlive = t.keepAlive := by
  unfold takeBlockIndex
  split <;> rfl

theorem takeBlockIndex_blocks : t.blocks.size ≤ t.takeBlockIndex.2.blocks.size := by
  unfold takeBlockIndex
  split <;> simp

/-- A thread without a block gets a slot of a new one, at a number that no block had. -/
theorem Arranged.open_gives (h : t.Arranged) (idle : t.current.lookup thread = none)
    (object : ObjectId) :
    t.Gives object ((t.openBlock thread).2.allocateIn (t.openBlock thread).1 object).1 none
        ((t.openBlock thread).2.allocateIn (t.openBlock thread).1 object).2 ∧
      ∀ i ∈ ((t.openBlock thread).2.allocateIn (t.openBlock thread).1 object).2.filling,
        i ∈ t.filling ∨ t.block? i = none := by
  have ready := h.ready_open idle
  obtain ⟨gap, _⟩ := takeBlockIndex_spec h
    (show t.takeBlockIndex = (t.takeBlockIndex.1, t.takeBlockIndex.2) from rfl)
  constructor
  · apply ready.gives
    · exact takeBlockIndex_keepAlive
    · exact takeBlockIndex_blocks
    · exact congrArg (·.elim #[] (·.pins)) gap
  · intro i member
    rcases (ready.current_iff i).1 member with rfl | before
    · exact .inr gap
    · exact .inl before

theorem Gives.uncounted {n : Nat} {told : Option (List ObjectId)}
    (g : ({ t with allocations := n } : HandleTable).Gives object w told t') :
    t.Gives object w told t' where
  passes := ⟨g.passes.keepAlive, g.passes.pinned, g.passes.pins, g.passes.holds⟩
  blocks := g.blocks
  kept := g.kept
  found := g.found
  place := g.place

/-- A thread that goes on to a new block retires its old one, and what that held is told. -/
theorem Gives.after_retire (h : t.Arranged)
    (g : (t.retireThread thread).2.Gives object w none t')
    (opened : ∀ i ∈ t'.filling,
      i ∈ (t.retireThread thread).2.filling ∨ (t.retireThread thread).2.block? i = none) :
    t.Gives object w (t.retireThread thread).1 t' := by
  have first := h.retireThread_passes thread
  constructor
  case blocks => exact Nat.le_trans (Nat.le_of_eq h.retireThread_blocks.symm) g.blocks
  case place => exact g.place
  case kept =>
    intro handle u at_
    apply g.kept
    rwa [h.wrapperAt?_retireThread]
  case found =>
    intro handle u at_
    rw [← h.wrapperAt?_retireThread thread]
    exact g.found handle u at_
  case passes =>
    constructor
    case keepAlive => exact g.passes.keepAlive.trans first.keepAlive
    case pinned => exact first.pinned
    case pins =>
      intro id member
      rcases g.passes.pins id member with before | new
      · exact .inl ((first.pins id before).resolve_right List.not_mem_nil)
      · exact .inr new
    case holds =>
      intro off i id holds
      rcases first.holds off i id holds with still | ⟨left, tells⟩
      · have off' := first.keepAlive.trans off
        rcases g.passes.holds off' i id still with still | ⟨_, none⟩
        · exact .inl still
        · exact nomatch none
      · -- A retired block is still there, so the new one has another number.
        refine .inr ⟨fun member => ?_, tells⟩
        obtain ⟨_, b, there, _⟩ := holds
        rcases opened i member with before | gap
        · exact left before
        · obtain ⟨c, there'⟩ := h.block?_retireThread_isSome thread there
          exact nomatch gap.symm.trans there'

theorem Arranged.allocate_gives (h : t.Arranged) (thread : ThreadId) (object : ObjectId) :
    t.Gives object (t.allocate thread object).1 (t.allocate thread object).2.1
      (t.allocate thread object).2.2 := by
  obtain ⟨n, ways⟩ := t.allocate_cases thread object
  have h : ({ t with allocations := n } : HandleTable).Arranged := h.of_eq rfl rfl rfl rfl
  apply Gives.uncounted (n := n)
  rcases ways _ rfl with ⟨found, made⟩ | ⟨b, found, ⟨room, made⟩ | ⟨_, rfl, made⟩⟩
  · rw [made]
    exact (h.open_gives (h.lookup_of_currentBlock? found) object).1
  · obtain ⟨index, _, there⟩ := Option.bind_eq_some_iff.1 found
    rw [made]
    apply (h.ready_current found room).gives
    · rfl
    · exact Nat.le_refl _
    · rw [h.index index b there, there]
      rfl
  · obtain ⟨index, entry, there⟩ := Option.bind_eq_some_iff.1 found
    rw [made, ← (retireThread_of_lookup entry there).1]
    have idle : (retireThread { t with allocations := n } thread).2.current.lookup thread = none :=
      lookup_retireThread
    obtain ⟨g, opened⟩ := (retireThread_arranged h).open_gives idle object
    exact g.after_retire h opened

/-- Releasing lets go of no object. -/
theorem Arranged.release_passes (h : t.Arranged) (heap : Heap) :
    t.Passes none [] (t.releaseUnreachable heap).2 := by
  constructor
  case keepAlive => rfl
  case pinned => exact fun _ member => nomatch member
  case pins =>
    intro id member
    obtain ⟨i, b, there, pinned⟩ := mem_pins_iff.1 member
    exact .inl (mem_pins_iff.2 ⟨i, b, block?_of_releaseUnreachable there, pinned⟩)
  case holds =>
    rintro _ i id ⟨filled, b, there, pinned⟩
    obtain ⟨c, there', filling⟩ := ((h.release heap).current_iff i).1 filled
    have same := there.symm.trans (block?_of_releaseUnreachable there')
    cases same
    exact .inl ⟨filled, b, there', pinned⟩

theorem wrapperAt?_of_release {handle : Handle}
    (at_ : (t.releaseUnreachable heap).2.wrapperAt? handle = some w) :
    t.wrapperAt? handle = some w := by
  obtain ⟨i, b, place, there, held⟩ := wrapperAt?_eq_some_iff.1 at_
  exact wrapperAt?_eq_some_iff.2 ⟨i, b, place, block?_of_releaseUnreachable there, held⟩

/-- A wrapper that resolves is not given up with its block. -/
theorem Arranged.wrapperAt?_release (h : t.Arranged) {handle : Handle} (live : t.isLive heap w)
    (at_ : t.wrapperAt? handle = some w) :
    (t.releaseUnreachable heap).2.wrapperAt? handle = some w := by
  obtain ⟨i, b, place, there, held⟩ := wrapperAt?_eq_some_iff.1 at_
  refine wrapperAt?_eq_some_iff.2 ⟨i, b, place, ?_, held⟩
  rw [block?_releaseUnreachable, if_neg, there]
  intro given
  obtain ⟨c, there', vacated⟩ := h.mem_vacated given
  rw [there] at there'
  cases there'
  unfold isVacated at vacated
  simp only [Bool.and_eq_true, Array.all_eq_true_iff_forall_mem, Bool.not_eq_true'] at vacated
  have dead := vacated.2 w (Array.mem_of_getElem? held)
  simp [live] at dead

end HandleTable

namespace Handle

/-- Within the region the word of a slot tells the slot. -/
theorem block?_ofSlot {i k : Nat} (fits : regionStart + blockBytes * (i + 1) ≤ UInt64.size)
    (inside : k < slotsPerBlock) : (ofSlot i k).block? = some i ∧ (ofSlot i k).slot = k := by
  have word : (ofSlot i k).word.toNat = regionStart + blockBytes * i + 8 * k := by
    simp only [ofSlot, UInt64.toNat_ofNat']
    simp only [regionStart, blockBytes, slotsPerBlock, UInt64.size] at fits inside ⊢
    omega
  have object : (ofSlot i k).isObject = true := by
    have nonzero : (ofSlot i k).word ≠ 0 := by
      intro zero
      rw [zero] at word
      simp only [regionStart, blockBytes, slotsPerBlock, UInt64.toNat_zero] at word
      omega
    simp only [isObject, Bool.and_eq_true, decide_eq_true_eq]
    refine ⟨nonzero, ?_⟩
    rw [word]
    simp only [regionStart, blockBytes, slotsPerBlock]
    omega
  unfold block? slot
  rw [word]
  simp only [object, regionStart, blockBytes, slotsPerBlock] at inside ⊢
  constructor
  · rw [if_pos ⟨trivial, by omega⟩]
    congr 1
    omega
  · omega

end Handle

namespace HandleTable

/-- A block that has been taken ends within the region. -/
theorem InRegion.block {t : HandleTable} (fits : t.InRegion) {i : Nat} (taken : i < t.blocks.size) :
    Handle.regionStart + Handle.blockBytes * (i + 1) ≤ UInt64.size :=
  Nat.le_trans (Nat.add_le_add_left (Nat.mul_le_mul_left _ taken) _) fits

/-- A wrapper in a slot is found at its handle. -/
theorem Arranged.wrapperAt?_of_mem_slots {t : HandleTable} (h : t.Arranged) (fits : t.InRegion)
    {w : WrapperId} (member : w ∈ t.slots) {handle : Handle} (made : t.handle? w = some handle) :
    t.wrapperAt? handle = some w := by
  obtain ⟨i, b, k, there, slot, insidei, insidek, word⟩ := h.handle?_of_mem_slots member
  cases made.symm.trans word
  obtain ⟨place, index⟩ := Handle.block?_ofSlot (fits.block insidei) insidek
  exact wrapperAt?_eq_some_iff.2 ⟨i, b, place, there, by rwa [index]⟩

end HandleTable

end RopeBridge
