import RopeBridge.Handle.Table

/-! The blocks of a handle table: where each is, which numbers are free, which block each thread
fills and which wrappers are in the slots. -/
namespace RopeBridge.HandleTable

/-- The handle that a wrapper was made with. -/
def handle? (t : HandleTable) (w : WrapperId) : Option Handle := t.wrappers[w]?.map (·.handle)

/-- How the blocks of a table are arranged. -/
structure Arranged (t : HandleTable) : Prop where
  /-- A block is at its own number. -/
  index : ∀ i b, t.block? i = some b → b.index = i
  /-- A number below the next new one, `blocks.size`, is that of a block or free, and free once. -/
  free_nodup : t.freeBlocks.Nodup
  free_iff : ∀ i, i ∈ t.freeBlocks ↔ i < t.blocks.size ∧ t.block? i = none
  /-- A slot holds a wrapper made with the handle of the slot. -/
  full : ∀ i b, t.block? i = some b → b.wrappers.size ≤ Handle.slotsPerBlock
  slot : ∀ i b, t.block? i = some b → ∀ k w, b.wrappers[k]? = some w →
    t.handle? w = some (.ofSlot i k)
  /-- A thread fills one block, no two threads the same, and these are the blocks not retired. -/
  threads : (t.current.map Prod.fst).Nodup
  owners : (t.current.map Prod.snd).Nodup
  current_iff : ∀ i, i ∈ t.current.map Prod.snd ↔ ∃ b, t.block? i = some b ∧ b.retired = false

variable {t : HandleTable} {thread : ThreadId}

/-- Neither the entries nor the counter of allocations have a part in how blocks are arranged. -/
theorem Arranged.of_eq {t' : HandleTable} (h : t.Arranged) (blocks : t'.blocks = t.blocks)
    (wrappers : t'.wrappers = t.wrappers) (free : t'.freeBlocks = t.freeBlocks)
    (current : t'.current = t.current) : t'.Arranged := by
  rcases t with ⟨_, _, _, _, _, _, _, _⟩
  rcases t' with ⟨_, _, _, _, _, _, _, _⟩
  subst blocks wrappers free current
  exact ⟨h.index, h.free_nodup, h.free_iff, h.full, h.slot, h.threads, h.owners, h.current_iff⟩

theorem lt_size_of_block? {i : Nat} {b : Block} (found : t.block? i = some b) :
    i < t.blocks.size := by
  unfold block? at found
  cases place : t.blocks[i]? with
  | none => simp [place] at found
  | some o => exact (Array.getElem?_eq_some_iff.1 place).1

theorem block?_setBlock (b : Block) (i : Nat) (inside : b.index < t.blocks.size) :
    (t.setBlock b).block? i = if i = b.index then some b else t.block? i := by
  unfold block? setBlock
  simp only [Array.getElem?_setIfInBounds]
  by_cases here : b.index = i
  · subst here
    simp [inside]
  · simp [here, Ne.symm here]

/-- What is in the blocks does not depend on a gap at the end. -/
theorem block?_push (i : Nat) :
    ({ t with blocks := t.blocks.push none } : HandleTable).block? i = t.block? i := by
  unfold block?
  simp only [Array.getElem?_push]
  split
  next last =>
    subst last
    simp
  next => rfl

/-- The entry of a thread is taken out of those of all threads; its block is the one that is no
longer filled. -/
theorem Arranged.without (h : t.Arranged) {index : Nat}
    (found : t.current.lookup thread = some index) :
    thread ∉ (t.current.filter (·.1 ≠ thread)).map Prod.fst ∧
      ((t.current.filter (·.1 ≠ thread)).map Prod.fst).Nodup ∧
      ((t.current.filter (·.1 ≠ thread)).map Prod.snd).Nodup ∧
      ∀ i, i ∈ (t.current.filter (·.1 ≠ thread)).map Prod.snd ↔
        i ∈ t.current.map Prod.snd ∧ i ≠ index := by
  obtain ⟨front, back, split, _⟩ := List.lookup_eq_some_iff.1 found
  have threads := h.threads
  have owners := h.owners
  rw [split, List.map_append, List.map_cons, List.perm_middle.nodup_iff, List.nodup_cons,
    ← List.map_append] at threads owners
  have rest : t.current.filter (·.1 ≠ thread) = front ++ back := by
    have apart : (front ++ back).filter (·.1 ≠ thread) = front ++ back := by
      refine List.filter_eq_self.2 fun p member => decide_eq_true fun same => threads.1 ?_
      exact List.mem_map.2 ⟨p, member, same⟩
    rw [split, ← apart]
    simp
  rw [rest]
  refine ⟨threads.1, threads.2, owners.2, fun i => ?_⟩
  rw [split]
  simp only [List.map_append, List.map_cons, List.mem_append, List.mem_cons]
  constructor
  · intro member
    refine ⟨member.imp id .inr, fun same => owners.1 ?_⟩
    rwa [← same, List.map_append, List.mem_append]
  · rintro ⟨before | rfl | behind, other⟩
    · exact .inl before
    · exact absurd rfl other
    · exact .inr behind

/-- A thread without a block is not among those that fill one. -/
theorem not_mem_of_lookup (none : t.current.lookup thread = none) :
    thread ∉ t.current.map Prod.fst := by
  rintro member
  obtain ⟨p, inside, rfl⟩ := List.mem_map.1 member
  rw [List.lookup_eq_none_iff] at none
  simpa using none p inside

theorem filter_of_not_mem (absent : thread ∉ t.current.map Prod.fst) :
    t.current.filter (·.1 ≠ thread) = t.current := by
  refine List.filter_eq_self.2 fun p member => decide_eq_true fun same => absent ?_
  exact List.mem_map.2 ⟨p, member, same⟩

/-- The block a thread fills is there and not retired. -/
theorem Arranged.filled (h : t.Arranged) {index : Nat}
    (found : t.current.lookup thread = some index) :
    ∃ b, t.block? index = some b ∧ b.retired = false ∧ b.index = index := by
  obtain ⟨front, back, split, _⟩ := List.lookup_eq_some_iff.1 found
  have owned : index ∈ t.current.map Prod.snd := by simp [split]
  obtain ⟨b, at_, filling⟩ := (h.current_iff index).1 owned
  exact ⟨b, at_, filling, h.index index b at_⟩

/-- The block that a thread retires. -/
theorem retireBlock_eq (t : HandleTable) (b : Block) :
    ∃ pins, (t.retireBlock b).2 = t.setBlock { b with retired := true, pins } := by
  unfold retireBlock
  split
  next => exact ⟨b.pins, rfl⟩
  next => exact ⟨#[], rfl⟩

theorem arranged_ofOptions (keepAlive countAllocations : Bool) :
    (ofOptions keepAlive countAllocations).Arranged := by
  constructor <;> simp [ofOptions, block?]

/-- What retiring the block of a thread changes. -/
theorem retireThread_eq (h : t.Arranged) {index : Nat}
    (found : t.current.lookup thread = some index) :
    ∃ b pins, t.block? index = some b ∧ (t.retireThread thread).2 =
      ({ t with current := t.current.filter (·.1 ≠ thread) } : HandleTable).setBlock
        { b with retired := true, pins } := by
  obtain ⟨b, there, _, _⟩ := h.filled found
  obtain ⟨pins, retired⟩ :=
    retireBlock_eq { t with current := t.current.filter (·.1 ≠ thread) } b
  refine ⟨b, pins, there, ?_⟩
  rw [← retired]
  unfold retireThread
  rw [found]
  dsimp only
  rw [show ({ t with current := t.current.filter (·.1 ≠ thread) } : HandleTable).block? index =
    some b from there]

theorem block?_retireThread (h : t.Arranged) {index : Nat}
    (found : t.current.lookup thread = some index) :
    ∃ b pins, t.block? index = some b ∧ ∀ i, (t.retireThread thread).2.block? i =
      if i = index then some { b with retired := true, pins } else t.block? i := by
  obtain ⟨b, pins, there, retired⟩ := retireThread_eq h found
  have number := h.index index b there
  refine ⟨b, pins, there, fun i => ?_⟩
  rw [retired, ← number]
  apply block?_setBlock
  exact number.symm ▸ lt_size_of_block? there

theorem retireThread_kept (h : t.Arranged) {index : Nat}
    (found : t.current.lookup thread = some index) :
    (t.retireThread thread).2.current = t.current.filter (·.1 ≠ thread) ∧
      (t.retireThread thread).2.freeBlocks = t.freeBlocks ∧
      (t.retireThread thread).2.blocks.size = t.blocks.size := by
  obtain ⟨b, pins, _, retired⟩ := retireThread_eq h found
  rw [retired]
  exact ⟨rfl, rfl, Array.size_setIfInBounds⟩

theorem retireBlock_wrappers (b : Block) : (t.retireBlock b).2.wrappers = t.wrappers := by
  unfold retireBlock
  split <;> rfl

theorem retireThread_wrappers : (t.retireThread thread).2.wrappers = t.wrappers := by
  unfold retireThread
  split
  next => rfl
  next =>
    dsimp only
    split
    next => rfl
    next b _ => exact retireBlock_wrappers b

theorem handle?_retireThread (w : WrapperId) :
    (t.retireThread thread).2.handle? w = t.handle? w := by
  simp only [handle?, retireThread_wrappers]

/-- One block is put in its place and the rest of the blocks stays as it is. -/
theorem Arranged.put {t' : HandleTable} (h : t.Arranged) {index : Nat} {c : Block}
    (number : c.index = index)
    (blocks : ∀ i, t'.block? i = if i = index then some c else t.block? i)
    (kept : ∀ w handle, t.handle? w = some handle → t'.handle? w = some handle)
    (full : c.wrappers.size ≤ Handle.slotsPerBlock)
    (slot : ∀ k w, c.wrappers[k]? = some w → t'.handle? w = some (.ofSlot index k))
    (free_nodup : t'.freeBlocks.Nodup)
    (free_iff : ∀ i, i ∈ t'.freeBlocks ↔ i < t'.blocks.size ∧ t'.block? i = none)
    (threads : (t'.current.map Prod.fst).Nodup) (owners : (t'.current.map Prod.snd).Nodup)
    (current : ∀ i, i ∈ t'.current.map Prod.snd ↔
      if i = index then c.retired = false else i ∈ t.current.map Prod.snd) :
    t'.Arranged := by
  constructor
  case index =>
    intro i b there
    rw [blocks] at there
    split at there
    next here =>
      cases there
      exact number.trans here.symm
    next => exact h.index i b there
  case full =>
    intro i b there
    rw [blocks] at there
    split at there
    next here =>
      cases there
      exact full
    next => exact h.full i b there
  case slot =>
    intro i b there k w held
    rw [blocks] at there
    split at there
    next here =>
      cases there
      rw [here]
      exact slot k w held
    next => exact kept w _ (h.slot i b there k w held)
  case current_iff =>
    intro i
    rw [current, blocks]
    split
    next => simp
    next => exact h.current_iff i
  case free_nodup => exact free_nodup
  case free_iff => exact free_iff
  case threads => exact threads
  case owners => exact owners

/-- A thread stops filling its block. -/
theorem retireThread_arranged (h : t.Arranged) : (t.retireThread thread).2.Arranged := by
  cases found : t.current.lookup thread with
  | none => simpa [retireThread, found] using h
  | some index =>
    obtain ⟨b, pins, there, blocks⟩ := block?_retireThread h found
    obtain ⟨current, free, size⟩ := retireThread_kept h found
    obtain ⟨_, threads, owners, others⟩ := h.without found
    apply h.put (c := { b with retired := true, pins }) (h.index index b there) blocks
    case kept =>
      intro w handle made
      rwa [handle?_retireThread]
    case full => exact h.full index b there
    case slot =>
      intro k w held
      rw [handle?_retireThread]
      exact h.slot index b there k w held
    case free_nodup =>
      rw [free]
      exact h.free_nodup
    case free_iff =>
      intro i
      rw [free, size, blocks, h.free_iff]
      by_cases here : i = index
      · simp [here, there]
      · simp [here]
    case threads =>
      rw [current]
      exact threads
    case owners =>
      rw [current]
      exact owners
    case current =>
      intro i
      rw [current, others]
      by_cases here : i = index <;> simp [here]

end RopeBridge.HandleTable
