import RopeBridge.Proofs.Handle.Blocks

/-! Giving out the next slot. A thread without a block gets a new one, at a number given up before
or at the next; a full block is retired first. -/
namespace RopeBridge.HandleTable

variable {t : HandleTable} {thread : ThreadId}

/-- A thread that has stopped filling its block fills none. -/
theorem lookup_retireThread : (t.retireThread thread).2.current.lookup thread = none := by
  cases found : t.current.lookup thread with
  | none => simp [retireThread, found]
  | some index =>
    have gone : (t.current.filter (·.1 ≠ thread)).lookup thread = none := by
      rw [List.lookup_eq_none_iff]
      intro p member
      have other : p.1 ≠ thread := by simpa using (List.mem_filter.1 member).2
      exact bne_iff_ne.2 (Ne.symm other)
    unfold retireThread
    rw [found]
    dsimp only
    split
    next => exact gone
    next b there =>
      unfold retireBlock
      split
      next => exact gone
      next => exact gone

/-- What becomes of the blocks when one gets a slot filled. -/
theorem block?_allocateIn (b : Block) (object : ObjectId) (inside : b.index < t.blocks.size)
    (i : Nat) : (t.allocateIn b object).2.block? i = if i = b.index then
      some { b with wrappers := b.wrappers.push t.wrappers.size, pins := b.pins.push object }
    else t.block? i := by
  unfold allocateIn
  dsimp only
  rw [block?_setBlock _ _ (by simpa using inside)]
  dsimp only
  split
  next => rfl
  next other =>
    unfold block?
    rw [Array.getElem?_setIfInBounds_ne (Ne.symm other)]

theorem handle?_allocateIn (b : Block) (object : ObjectId) {w : WrapperId} {handle : Handle}
    (made : t.handle? w = some handle) : (t.allocateIn b object).2.handle? w = some handle := by
  obtain ⟨wrapper, there, rfl⟩ := Option.map_eq_some_iff.1 made
  have inside := (Array.getElem?_eq_some_iff.1 there).1
  show (t.wrappers.push _)[w]?.map _ = _
  rw [Array.getElem?_push_lt inside, ← Array.getElem?_eq_getElem inside, there]
  rfl

/-- The handle of the slot that a block gives next. -/
theorem handle?_allocateIn_new (b : Block) (object : ObjectId) :
    (t.allocateIn b object).2.handle? t.wrappers.size =
      some (.ofSlot b.index b.wrappers.size) := by
  show (t.wrappers.push _)[t.wrappers.size]?.map _ = _
  simp

/-- A table `s` that is `t` but for a block about to be put in its place: the block has room and its
number is neither free nor that of a block of another thread. -/
structure Ready (t s : HandleTable) (b : Block) : Prop where
  blocks : ∀ i, s.block? i = t.block? i
  wrappers : s.wrappers = t.wrappers
  inside : b.index < s.blocks.size
  filling : b.retired = false
  room : b.wrappers.size < Handle.slotsPerBlock
  place : (t.block? b.index).elim #[] (·.wrappers) = b.wrappers
  free_nodup : s.freeBlocks.Nodup
  free_iff : ∀ i, i ∈ s.freeBlocks ↔ i < s.blocks.size ∧ t.block? i = none ∧ i ≠ b.index
  threads : (s.current.map Prod.fst).Nodup
  owners : (s.current.map Prod.snd).Nodup
  current_iff : ∀ i, i ∈ s.current.map Prod.snd ↔ i = b.index ∨ i ∈ t.current.map Prod.snd

theorem Ready.slot {s : HandleTable} {b : Block} (ready : Ready t s b) (h : t.Arranged) {k : Nat}
    {w : WrapperId} (held : b.wrappers[k]? = some w) :
    t.handle? w = some (.ofSlot b.index k) := by
  rw [← ready.place] at held
  cases there : t.block? b.index with
  | none => simp [there] at held
  | some c =>
    rw [there] at held
    exact h.slot b.index c there k w held

theorem Ready.kept {s : HandleTable} {b : Block} (ready : Ready t s b) (object : ObjectId)
    {w : WrapperId} {handle : Handle} (made : t.handle? w = some handle) :
    (s.allocateIn b object).2.handle? w = some handle := by
  apply handle?_allocateIn
  simpa only [handle?, ready.wrappers] using made

theorem Ready.arranged {s : HandleTable} {b : Block} (ready : Ready t s b) (h : t.Arranged)
    (object : ObjectId) : (s.allocateIn b object).2.Arranged := by
  have blocks := block?_allocateIn b object ready.inside
  apply h.put
    (c := { b with wrappers := b.wrappers.push s.wrappers.size, pins := b.pins.push object })
  case number => exact rfl
  case blocks =>
    intro i
    rw [blocks, ready.blocks]
  case kept => exact fun w handle made => ready.kept object made
  case full =>
    have room := ready.room
    simp only [Array.size_push]
    omega
  case slot =>
    intro k w held
    rw [Array.getElem?_push] at held
    by_cases last : k = b.wrappers.size
    · rw [if_pos last] at held
      cases held
      rw [last]
      exact handle?_allocateIn_new b object
    · rw [if_neg last] at held
      exact ready.kept object (ready.slot h held)
  case free_nodup => exact ready.free_nodup
  case free_iff =>
    intro i
    have size : (s.allocateIn b object).2.blocks.size = s.blocks.size := by
      simp [allocateIn, setBlock]
    have free : (s.allocateIn b object).2.freeBlocks = s.freeBlocks := rfl
    rw [free, ready.free_iff, size, blocks, ready.blocks]
    by_cases here : i = b.index <;> simp [here]
  case threads => exact ready.threads
  case owners => exact ready.owners
  case current =>
    intro i
    have current : (s.allocateIn b object).2.current = s.current := rfl
    rw [current, ready.current_iff]
    by_cases here : i = b.index <;> simp [here, ready.filling]

/-- A block that a thread fills and that has room is ready where it is. -/
theorem Arranged.ready_current (h : t.Arranged) {b : Block}
    (found : t.currentBlock? thread = some b) (room : b.isFull = false) : Ready t t b := by
  obtain ⟨index, entry, there⟩ := Option.bind_eq_some_iff.1 found
  obtain ⟨b', there', filling, number⟩ := h.filled entry
  cases there.symm.trans there'
  have owned := (h.current_iff index).2 ⟨b, there, filling⟩
  have full := h.full index b there
  have notFull : b.wrappers.size ≠ Handle.slotsPerBlock := by simpa [Block.isFull] using room
  subst number
  constructor
  case blocks => exact fun _ => rfl
  case wrappers => rfl
  case inside => exact lt_size_of_block? there
  case filling => exact filling
  case room => omega
  case place => rw [there]; rfl
  case free_nodup => exact h.free_nodup
  case threads => exact h.threads
  case owners => exact h.owners
  case free_iff =>
    intro i
    rw [h.free_iff]
    constructor
    · rintro ⟨inside, gap⟩
      refine ⟨inside, gap, ?_⟩
      rintro rfl
      exact nomatch gap.symm.trans there
    · rintro ⟨inside, gap, _⟩
      exact ⟨inside, gap⟩
  case current_iff =>
    intro i
    constructor
    · exact .inr
    · rintro (rfl | member)
      · exact owned
      · exact member

/-- A number is taken that no block has, and it is not free any more. -/
theorem takeBlockIndex_spec (h : t.Arranged) {index : Nat} {s : HandleTable}
    (taken : t.takeBlockIndex = (index, s)) :
    t.block? index = none ∧ index < s.blocks.size ∧ (∀ i, s.block? i = t.block? i) ∧
      s.wrappers = t.wrappers ∧ s.current = t.current ∧ s.freeBlocks.Nodup ∧
      ∀ i, i ∈ s.freeBlocks ↔ i < s.blocks.size ∧ t.block? i = none ∧ i ≠ index := by
  unfold takeBlockIndex at taken
  split at taken
  next first rest free =>
    obtain ⟨rfl, rfl⟩ := Prod.mk.inj taken
    have nodup := h.free_nodup
    rw [free, List.nodup_cons] at nodup
    have gap := (h.free_iff first).1 (by simp [free])
    refine ⟨gap.2, gap.1, fun _ => rfl, rfl, rfl, nodup.2, fun i => ?_⟩
    have all := h.free_iff i
    rw [free, List.mem_cons] at all
    constructor
    · intro member
      have gap := all.1 (.inr member)
      refine ⟨gap.1, gap.2, ?_⟩
      rintro rfl
      exact nodup.1 member
    · rintro ⟨inside, gap, other⟩
      exact (all.2 ⟨inside, gap⟩).resolve_left other
  next free =>
    obtain ⟨rfl, rfl⟩ := Prod.mk.inj taken
    refine ⟨by simp [block?], by simp, block?_push, rfl, rfl, h.free_nodup, fun i => ?_⟩
    have all := h.free_iff i
    rw [free] at all ⊢
    simp only [List.not_mem_nil, false_iff, Array.size_push] at all ⊢
    rintro ⟨inside, gap, other⟩
    exact all ⟨by omega, gap⟩

/-- A new block is ready for a thread that fills none. -/
theorem Arranged.ready_open (h : t.Arranged) (idle : t.current.lookup thread = none) :
    Ready t (t.openBlock thread).2 (t.openBlock thread).1 := by
  have taken : t.takeBlockIndex = (t.takeBlockIndex.1, t.takeBlockIndex.2) := rfl
  obtain ⟨gap, inside, blocks, wrappers, current, nodup, free⟩ := takeBlockIndex_spec h taken
  have absent := not_mem_of_lookup idle
  have entries : (t.openBlock thread).2.current = (thread, t.takeBlockIndex.1) :: t.current := by
    unfold openBlock
    dsimp only
    rw [current, filter_of_not_mem absent]
  have unowned : t.takeBlockIndex.1 ∉ t.current.map Prod.snd := by
    intro member
    obtain ⟨b, there, _⟩ := (h.current_iff _).1 member
    exact nomatch gap.symm.trans there
  constructor
  case blocks => exact blocks
  case wrappers => exact wrappers
  case inside => exact inside
  case filling => rfl
  case room => exact (by decide : 0 < Handle.slotsPerBlock)
  case place => exact congrArg (·.elim #[] (·.wrappers)) gap
  case free_nodup => exact nodup
  case free_iff => exact free
  case threads =>
    rw [entries]
    exact List.nodup_cons.2 ⟨absent, h.threads⟩
  case owners =>
    rw [entries]
    exact List.nodup_cons.2 ⟨unowned, h.owners⟩
  case current_iff =>
    intro i
    rw [entries]
    exact List.mem_cons

theorem mem_slots_iff {w : WrapperId} :
    w ∈ t.slots ↔ ∃ i b, t.block? i = some b ∧ w ∈ b.wrappers := by
  unfold slots block?
  simp only [List.mem_flatMap, Array.mem_toList_iff]
  constructor
  · rintro ⟨place, member, held⟩
    obtain ⟨i, found⟩ := Array.mem_iff_getElem?.1 member
    cases place with
    | none => simp at held
    | some b => exact ⟨i, b, by simp [found], by simpa using held⟩
  · rintro ⟨i, b, found, held⟩
    have place := Option.join_eq_some_iff.1 found
    exact ⟨some b, Array.mem_of_getElem? place, by simpa using held⟩

/-- Giving a slot to an object: a new wrapper for it is in the slots, and all others stay. -/
structure Allocates (t : HandleTable) (object : ObjectId) (w : WrapperId) (t' : HandleTable) :
    Prop where
  arranged : t'.Arranged
  fresh : w = t.wrappers.size
  wrappers : ∃ handle, t'.wrappers = t.wrappers.push { handle, target := object }
  entries : t'.entries = t.entries
  slots : ∀ v, v ∈ t'.slots ↔ v = w ∨ v ∈ t.slots

/-- The new wrapper is for the object, and the others are as they were. -/
theorem Allocates.wrapper_cases {object : ObjectId} {w u : WrapperId} {t' : HandleTable}
    (a : t.Allocates object w t') {x : Wrapper} (there : t'.wrappers[u]? = some x) :
    (u = w ∧ x.target = object) ∨ (u ≠ w ∧ t.wrappers[u]? = some x) := by
  obtain ⟨handle, wrappers⟩ := a.wrappers
  rw [wrappers, Array.getElem?_push] at there
  split at there
  next last =>
    cases there
    exact .inl ⟨last.trans a.fresh.symm, rfl⟩
  next other => exact .inr ⟨a.fresh ▸ other, there⟩

theorem Ready.allocates {s : HandleTable} {b : Block} (ready : Ready t s b) (h : t.Arranged)
    (object : ObjectId) (entries : s.entries = t.entries) :
    t.Allocates object (s.allocateIn b object).1 (s.allocateIn b object).2 := by
  have blocks := block?_allocateIn b object ready.inside
  constructor
  case arranged => exact ready.arranged h object
  case fresh => exact congrArg Array.size ready.wrappers
  case wrappers =>
    refine ⟨.ofSlot b.index b.wrappers.size, ?_⟩
    rw [← ready.wrappers]
    rfl
  case entries => exact entries
  case slots =>
    intro v
    rw [mem_slots_iff, mem_slots_iff]
    constructor
    · rintro ⟨i, c, there, held⟩
      rw [blocks] at there
      split at there
      next here =>
        cases there
        rw [Array.mem_push] at held
        rcases held with old | new
        · rw [← ready.place] at old
          cases before : t.block? b.index with
          | none => simp [before] at old
          | some c => exact .inr ⟨b.index, c, before, by simpa [before] using old⟩
        · exact .inl new
      next => exact .inr ⟨i, c, (ready.blocks i).symm.trans there, held⟩
    · rintro (rfl | ⟨i, c, there, held⟩)
      · exact ⟨b.index, _, (blocks _).trans (if_pos rfl), Array.mem_push_self⟩
      · by_cases here : i = b.index
        · subst here
          have same : c.wrappers = b.wrappers := by simpa [there] using ready.place
          refine ⟨b.index, _, (blocks _).trans (if_pos rfl), ?_⟩
          exact Array.mem_push_of_mem _ (same ▸ held)
        · refine ⟨i, c, ?_, held⟩
          rw [blocks, if_neg here, ready.blocks, there]

theorem mem_slots_retireThread (h : t.Arranged) {w : WrapperId} :
    w ∈ (t.retireThread thread).2.slots ↔ w ∈ t.slots := by
  cases found : t.current.lookup thread with
  | none => simp [retireThread, found]
  | some index =>
    obtain ⟨b, pins, there, blocks⟩ := block?_retireThread h found
    rw [mem_slots_iff, mem_slots_iff]
    constructor
    · rintro ⟨i, c, place, held⟩
      rw [blocks] at place
      split at place
      next here =>
        cases place
        exact ⟨index, b, there, held⟩
      next => exact ⟨i, c, place, held⟩
    · rintro ⟨i, c, place, held⟩
      by_cases here : i = index
      · subst here
        rw [there] at place
        cases place
        exact ⟨i, _, (blocks i).trans (if_pos rfl), held⟩
      · exact ⟨i, c, (blocks i).trans ((if_neg here).trans place), held⟩

theorem retireBlock_entries (b : Block) : (t.retireBlock b).2.entries = t.entries := by
  unfold retireBlock
  split <;> rfl

theorem retireThread_entries : (t.retireThread thread).2.entries = t.entries := by
  unfold retireThread
  split
  next => rfl
  next =>
    dsimp only
    split
    next => rfl
    next b _ => exact retireBlock_entries b

theorem openBlock_entries : (t.openBlock thread).2.entries = t.entries := by
  unfold openBlock takeBlockIndex
  cases t.freeBlocks <;> rfl

/-- Retiring a full block on the way is retiring it first: the entry of the thread is replaced
anyway. -/
theorem openBlock_retireBlock {b : Block}
    (found : t.currentBlock? thread = some b) :
    (t.retireBlock b).2.openBlock thread = (t.retireThread thread).2.openBlock thread := by
  obtain ⟨index, entry, there⟩ := Option.bind_eq_some_iff.1 found
  unfold retireThread
  rw [entry]
  dsimp only
  rw [show ({ t with current := t.current.filter (·.1 ≠ thread) } : HandleTable).block? index =
    some b from there]
  unfold openBlock takeBlockIndex retireBlock setBlock
  cases t.keepAlive <;> cases t.freeBlocks <;> simp [List.filter_filter]

/-- A thread without a block goes on to a new one. -/
theorem Arranged.open_allocates (h : t.Arranged) (idle : t.current.lookup thread = none)
    (object : ObjectId) :
    t.Allocates object ((t.openBlock thread).2.allocateIn (t.openBlock thread).1 object).1
      ((t.openBlock thread).2.allocateIn (t.openBlock thread).1 object).2 :=
  (h.ready_open idle).allocates h object openBlock_entries

theorem Allocates.uncounted {n : Nat} {object : ObjectId} {w : WrapperId} {t' : HandleTable}
    (a : ({ t with allocations := n } : HandleTable).Allocates object w t') :
    t.Allocates object w t' where
  arranged := a.arranged
  fresh := a.fresh
  wrappers := a.wrappers
  entries := a.entries
  slots := a.slots

theorem Arranged.lookup_of_currentBlock? (h : t.Arranged) (found : t.currentBlock? thread = none) :
    t.current.lookup thread = none := by
  cases entry : t.current.lookup thread with
  | none => rfl
  | some index =>
    obtain ⟨b, there, _⟩ := h.filled entry
    simp [currentBlock?, entry, there] at found

/-- How an object can get a slot, but for the counter of allocations: in a new block if the thread
fills none, in the block that it fills if that has room, or in a new block once that is retired. -/
theorem allocate_cases (t : HandleTable) (thread : ThreadId) (object : ObjectId) :
    ∃ n, ∀ u : HandleTable, u = { t with allocations := n } →
      (u.currentBlock? thread = none ∧ t.allocate thread object =
        (((u.openBlock thread).2.allocateIn (u.openBlock thread).1 object).1, none,
          ((u.openBlock thread).2.allocateIn (u.openBlock thread).1 object).2)) ∨
      ∃ b, u.currentBlock? thread = some b ∧
        (b.isFull = false ∧ t.allocate thread object =
            ((u.allocateIn b object).1, none, (u.allocateIn b object).2) ∨
          ∃ v, v = (u.retireThread thread).2 ∧ t.allocate thread object =
            (((v.openBlock thread).2.allocateIn (v.openBlock thread).1 object).1,
              some (u.retireBlock b).1,
              ((v.openBlock thread).2.allocateIn (v.openBlock thread).1 object).2)) := by
  have counted : ∃ n, (if t.countAllocations then { t with allocations := t.allocations + 1 }
      else t) = { t with allocations := n } := by
    split
    next => exact ⟨t.allocations + 1, rfl⟩
    next => exact ⟨t.allocations, rfl⟩
  obtain ⟨n, counted⟩ := counted
  refine ⟨n, fun u same => ?_⟩
  unfold HandleTable.allocate
  rw [counted, ← same]
  dsimp only
  cases found : u.currentBlock? thread with
  | none => exact .inl ⟨rfl, rfl⟩
  | some b =>
    refine .inr ⟨b, rfl, ?_⟩
    dsimp only
    cases full : b.isFull with
    | false => exact .inl ⟨rfl, rfl⟩
    | true =>
      rw [openBlock_retireBlock found]
      exact .inr ⟨_, rfl, rfl⟩

theorem Arranged.allocate (h : t.Arranged) (thread : ThreadId) (object : ObjectId) :
    t.Allocates object (t.allocate thread object).1 (t.allocate thread object).2.2 := by
  obtain ⟨n, ways⟩ := t.allocate_cases thread object
  have h : ({ t with allocations := n } : HandleTable).Arranged := h.of_eq rfl rfl rfl rfl
  apply Allocates.uncounted (n := n)
  rcases ways _ rfl with ⟨found, made⟩ | ⟨b, found, ⟨room, made⟩ | ⟨_, rfl, made⟩⟩
  · rw [made]
    exact h.open_allocates (h.lookup_of_currentBlock? found) object
  · rw [made]
    exact (h.ready_current found room).allocates h object rfl
  · rw [made]
    have idle : (retireThread { t with allocations := n } thread).2.current.lookup thread = none :=
      lookup_retireThread
    have retired := (retireThread_arranged h).open_allocates idle object
    exact {
      arranged := retired.arranged
      fresh := retired.fresh.trans (congrArg Array.size retireThread_wrappers)
      wrappers := by simpa only [retireThread_wrappers] using retired.wrappers
      entries := retired.entries.trans retireThread_entries
      slots := fun v => by rw [retired.slots, mem_slots_retireThread h] }

end RopeBridge.HandleTable
