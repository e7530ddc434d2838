import RopeBridge.Proofs.Handle.Places

/-! A table that keeps its handles alive. Its blocks go on holding their objects when they are
retired, so every wrapper that has been made is that of an object that is held: none is ever
released, and no block is given up. -/
namespace RopeBridge.HandleTable

variable {t t' s : HandleTable} {thread : ThreadId} {heap : Heap} {id object : ObjectId}

/-- Every wrapper is that of an object that a block holds, and no number has been given up. -/
structure Permanent (t : HandleTable) : Prop where
  unreleased : ∀ (w : WrapperId) (x : Wrapper), t.wrappers[w]? = some x → x.released = false
  held : ∀ (w : WrapperId) (x : Wrapper), t.wrappers[w]? = some x → x.target ∈ t.pins
  free : t.freeBlocks = []

theorem permanent_ofOptions (keepAlive countAllocations : Bool) :
    (ofOptions keepAlive countAllocations).Permanent where
  unreleased := fun _ _ there => nomatch there
  held := fun _ _ there => nomatch there
  free := rfl

/-- What the blocks hold is still held if each of them holds what it held. -/
theorem pins_subset (blocks : ∀ i b, t.block? i = some b →
    ∃ c, t'.block? i = some c ∧ ∀ id ∈ b.pins, id ∈ c.pins) : t.pins ⊆ t'.pins := by
  intro id member
  obtain ⟨i, b, there, pinned⟩ := mem_pins_iff.1 member
  obtain ⟨c, there', kept⟩ := blocks i b there
  exact mem_pins_iff.2 ⟨i, c, there', kept id pinned⟩

theorem retireThread_freeBlocks (h : t.Arranged) (thread : ThreadId) :
    (t.retireThread thread).2.freeBlocks = t.freeBlocks := by
  cases found : t.current.lookup thread with
  | none => simp [retireThread, found]
  | some index => exact (retireThread_kept h found).2.1

/-- A block that is retired lets go of nothing. -/
theorem pins_subset_retireThread (h : t.Arranged) (keep : t.keepAlive = true) (thread : ThreadId) :
    t.pins ⊆ (t.retireThread thread).2.pins := by
  cases found : t.current.lookup thread with
  | none => simp [retireThread, found]
  | some index =>
    obtain ⟨b, there, _, number⟩ := h.filled found
    subst number
    have retired : (t.retireThread thread).2 =
        ({ t with current := t.current.filter (·.1 ≠ thread) } : HandleTable).setBlock
          { b with retired := true } := by
      rw [(retireThread_of_lookup found there).2]
      simp [retireBlock, keep]
    refine pins_subset fun i c place => ?_
    rw [retired, block?_setBlock _ _ (by exact lt_size_of_block? there)]
    split
    next here =>
      cases there.symm.trans (here ▸ place)
      exact ⟨_, rfl, fun _ pinned => pinned⟩
    next => exact ⟨c, place, fun _ pinned => pinned⟩

/-- A block with a new slot holds what the block at its number held before. -/
theorem Ready.pins_subset {b : Block} (ready : Ready t s b)
    (pins : (t.block? b.index).elim #[] (·.pins) = b.pins) (object : ObjectId) :
    t.pins ⊆ (s.allocateIn b object).2.pins := by
  refine HandleTable.pins_subset fun i c there => ?_
  rw [block?_allocateIn b object ready.inside, ready.blocks]
  split
  next here =>
    subst here
    rw [there] at pins
    exact ⟨_, rfl, fun _ pinned => Array.mem_push_of_mem _ (pins ▸ pinned)⟩
  next => exact ⟨c, there, fun _ pinned => pinned⟩

theorem openBlock_freeBlocks (unfree : t.freeBlocks = []) (thread : ThreadId) :
    (t.openBlock thread).2.freeBlocks = [] := by
  unfold openBlock takeBlockIndex
  rw [unfree]

theorem Arranged.open_pins_subset (h : t.Arranged) (idle : t.current.lookup thread = none)
    (object : ObjectId) :
    t.pins ⊆ ((t.openBlock thread).2.allocateIn (t.openBlock thread).1 object).2.pins := by
  obtain ⟨gap, _⟩ := takeBlockIndex_spec h
    (show t.takeBlockIndex = (t.takeBlockIndex.1, t.takeBlockIndex.2) from rfl)
  exact (h.ready_open idle).pins_subset (congrArg (·.elim #[] (·.pins)) gap) object

/-- Giving out a slot lets go of nothing and gives up no number. -/
theorem Arranged.allocate_retains (h : t.Arranged) (keep : t.keepAlive = true)
    (unfree : t.freeBlocks = []) (thread : ThreadId) (object : ObjectId) :
    t.pins ⊆ (t.allocate thread object).2.2.pins ∧
      (t.allocate thread object).2.2.freeBlocks = [] := by
  obtain ⟨n, ways⟩ := t.allocate_cases thread object
  have h : ({ t with allocations := n } : HandleTable).Arranged := h.of_eq rfl rfl rfl rfl
  have keep : ({ t with allocations := n } : HandleTable).keepAlive = true := keep
  have unfree : ({ t with allocations := n } : HandleTable).freeBlocks = [] := unfree
  show ({ t with allocations := n } : HandleTable).pins ⊆ _ ∧ _
  rcases ways _ rfl with ⟨found, made⟩ | ⟨b, found, ⟨room, made⟩ | ⟨_, rfl, made⟩⟩
  · rw [made]
    exact ⟨h.open_pins_subset (h.lookup_of_currentBlock? found) object,
      openBlock_freeBlocks unfree thread⟩
  · obtain ⟨index, _, there⟩ := Option.bind_eq_some_iff.1 found
    rw [made]
    refine ⟨(h.ready_current found room).pins_subset ?_ object, unfree⟩
    rw [h.index index b there, there]
    rfl
  · rw [made]
    have idle : (retireThread { t with allocations := n } thread).2.current.lookup thread = none :=
      lookup_retireThread
    refine ⟨?_, openBlock_freeBlocks ((retireThread_freeBlocks h thread).trans unfree) thread⟩
    exact List.Subset.trans (pins_subset_retireThread h keep thread)
      ((retireThread_arranged h).open_pins_subset idle object)

namespace Permanent

theorem retire (p : t.Permanent) (h : t.Arranged) (keep : t.keepAlive = true) (thread : ThreadId) :
    (t.retireThread thread).2.Permanent where
  unreleased := by
    rw [retireThread_wrappers]
    exact p.unreleased
  held := by
    rw [retireThread_wrappers]
    exact fun w x there => pins_subset_retireThread h keep thread (p.held w x there)
  free := (retireThread_freeBlocks h thread).trans p.free

/-- The block of a new slot holds the object that has got the slot. -/
theorem enter (p : t.Permanent) (h : t.Arranged) (keep : t.keepAlive = true) (thread : ThreadId)
    (object : ObjectId) (v : Value) (w : WrapperId) :
    ((t.allocate thread object).2.2.enter v w).Permanent := by
  obtain ⟨pins, free⟩ := h.allocate_retains keep p.free thread object
  obtain ⟨_, _, _, _, holds⟩ := (h.allocate_gives thread object).place
  obtain ⟨handle, wrappers⟩ := (h.allocate thread object).wrappers
  -- a wrapper is an old one or the one for the object
  have cases : ∀ (u : WrapperId) (x : Wrapper),
      (t.allocate thread object).2.2.wrappers[u]? = some x →
        t.wrappers[u]? = some x ∨ x = { handle, target := object } := by
    intro u x there
    rw [wrappers, Array.getElem?_push] at there
    split at there
    next => exact .inr (Option.some.inj there).symm
    next => exact .inl there
  constructor
  case unreleased =>
    intro u x there
    rcases cases u x there with old | rfl
    · exact p.unreleased u x old
    · rfl
  case held =>
    intro u x there
    rcases cases u x there with old | rfl
    · exact pins (p.held u x old)
    · exact holds.mem_pins
  case free => exact free

/-- As long as what the blocks hold is alive, there is nothing to release and nothing to give up. -/
theorem releaseUnreachable_eq (p : t.Permanent) (keep : t.keepAlive = true)
    (alive : ∀ id ∈ t.pins, heap.isAlive id) : t.releaseUnreachable heap =
      (0, { t with entries := t.entries.filter fun _ w => t.isLive heap w }) := by
  have dying : t.dying heap = [] := by
    refine List.filter_eq_nil_iff.2 fun w _ dying => ?_
    obtain ⟨x, there, _, dead⟩ : ∃ x, t.wrappers[w]? = some x ∧ x.released = false ∧
        heap.isAlive x.target = false := by simpa [isDying, Option.any_eq_true] using dying
    simp [alive _ (p.held w x there)] at dead
  have vacated : t.vacated heap = [] := by simp [HandleTable.vacated, keep]
  unfold releaseUnreachable
  rw [dying, vacated]
  rfl

theorem release (p : t.Permanent) (keep : t.keepAlive = true)
    (alive : ∀ id ∈ t.pins, heap.isAlive id) : (t.releaseUnreachable heap).2.Permanent := by
  rw [p.releaseUnreachable_eq keep alive]
  exact ⟨p.unreleased, p.held, p.free⟩

end Permanent

end RopeBridge.HandleTable
