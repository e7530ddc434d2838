import Mathlib.Data.Set.Card
import RopeBridge.Proofs.Handle.Interned
import RopeBridge.Proofs.Handle.Places

/-! Counting wrappers. A wrapper is in one slot at most for as long as its block is there, so the
wrappers in blocks can be counted: giving out a slot adds one, retiring a block none, and releasing
takes away those that are found dead. -/
namespace RopeBridge.HandleTable

variable {t t' s : HandleTable} {thread : ThreadId} {heap : Heap} {object : ObjectId}
  {w : WrapperId} {log : List Value}

theorem flatMap_set_of_eq {α β : Type} {f : α → List β} {l : List α} {i : Nat} {x y : α}
    (there : l[i]? = some x) (same : f y = f x) : (l.set i y).flatMap f = l.flatMap f := by
  have image : (l.map f).set i (f y) = l.map f := by
    apply List.ext_getElem?
    intro j
    rw [List.getElem?_set]
    split
    next here =>
      subst here
      obtain ⟨inside, rfl⟩ := List.getElem?_eq_some_iff.1 there
      simp [same, inside]
    next => rfl
  rw [List.flatMap_def, List.map_set, image, List.flatMap_def]

/-- A part that gets one element more adds it to the whole. -/
theorem flatMap_set_perm {α β : Type} {f : α → List β} {l : List α} {i : Nat} {x y : α} {b : β}
    (there : l[i]? = some x) (more : f y = f x ++ [b]) :
    ((l.set i y).flatMap f).Perm (b :: l.flatMap f) := by
  obtain ⟨inside, rfl⟩ := List.getElem?_eq_some_iff.1 there
  have whole : l = l.take i ++ l[i] :: l.drop (i + 1) := by simp
  rw [List.set_eq_take_append_cons_drop, if_pos inside, List.flatMap_append, List.flatMap_cons,
    more]
  conv => rhs; rw [whole, List.flatMap_append, List.flatMap_cons]
  simp only [List.append_assoc, List.singleton_append]
  exact (List.Perm.append_left _ List.perm_middle).trans List.perm_middle

/-- A part that is emptied takes away from the whole. -/
theorem flatMap_set_sublist {α β : Type} {f : α → List β} {l : List α} {i : Nat} {y : α}
    (empty : f y = []) : ((l.set i y).flatMap f).Sublist (l.flatMap f) := by
  induction l generalizing i with
  | nil => simp
  | cons x rest ih =>
    cases i with
    | zero => simp [empty]
    | succ i => simpa using ih

theorem getElem?_of_block? {i : Nat} {b : Block} (there : t.block? i = some b) :
    t.blocks.toList[i]? = some (some b) := by
  rw [Array.getElem?_toList]
  exact Option.join_eq_some_iff.1 there

/-- A block put in the place of one with the same slots leaves all slots as they are. -/
theorem slots_setBlock {b c : Block} (there : t.block? b.index = some c)
    (same : b.wrappers = c.wrappers) : (t.setBlock b).slots = t.slots := by
  unfold slots setBlock
  rw [Array.toList_setIfInBounds]
  exact flatMap_set_of_eq (getElem?_of_block? there) (congrArg Array.toList same)

theorem slots_retireThread (h : t.Arranged) : (t.retireThread thread).2.slots = t.slots := by
  cases found : t.current.lookup thread with
  | none => simp [retireThread, found]
  | some index =>
    obtain ⟨b, pins, there, retired⟩ := retireThread_eq h found
    rw [retired]
    apply slots_setBlock (c := b)
    · rw [h.index index b there]
      exact there
    · rfl

theorem slots_openBlock : (t.openBlock thread).2.slots = t.slots := by
  unfold openBlock takeBlockIndex
  cases t.freeBlocks <;> simp [slots]

/-- The new wrapper is in one slot. -/
theorem slots_allocateIn {b : Block} (inside : b.index < t.blocks.size)
    (place : (t.block? b.index).elim #[] (·.wrappers) = b.wrappers) (object : ObjectId) :
    (t.allocateIn b object).2.slots.Perm ((t.allocateIn b object).1 :: t.slots) := by
  obtain ⟨o, there⟩ : ∃ o, t.blocks.toList[b.index]? = some o :=
    ⟨t.blocks[b.index], by rw [Array.getElem?_toList, Array.getElem?_eq_getElem inside]⟩
  have content : o.elim [] (·.wrappers.toList) = b.wrappers.toList := by
    rw [Array.getElem?_toList] at there
    rw [← place, block?, there]
    cases o <;> rfl
  unfold allocateIn setBlock slots
  simp only [Array.toList_setIfInBounds, List.set_set]
  apply flatMap_set_perm there
  rw [content]
  exact Array.toList_push

theorem Ready.slots_perm {b : Block} (ready : Ready t s b) (same : s.slots = t.slots)
    (object : ObjectId) :
    (s.allocateIn b object).2.slots.Perm ((s.allocateIn b object).1 :: t.slots) := by
  rw [← same]
  apply slots_allocateIn ready.inside
  rw [ready.blocks]
  exact ready.place

theorem Arranged.slots_allocate (h : t.Arranged) (thread : ThreadId) (object : ObjectId) :
    (t.allocate thread object).2.2.slots.Perm ((t.allocate thread object).1 :: t.slots) := by
  obtain ⟨n, ways⟩ := t.allocate_cases thread object
  have h : ({ t with allocations := n } : HandleTable).Arranged := h.of_eq rfl rfl rfl rfl
  show (t.allocate thread object).2.2.slots.Perm
    ((t.allocate thread object).1 :: ({ t with allocations := n } : HandleTable).slots)
  rcases ways _ rfl with ⟨found, made⟩ | ⟨b, found, ⟨room, made⟩ | ⟨_, rfl, made⟩⟩
  · rw [made]
    exact (h.ready_open (h.lookup_of_currentBlock? found)).slots_perm slots_openBlock object
  · rw [made]
    exact (h.ready_current found room).slots_perm rfl object
  · rw [made]
    have idle : (retireThread { t with allocations := n } thread).2.current.lookup thread = none :=
      lookup_retireThread
    have opened := ((retireThread_arranged h).ready_open idle).slots_perm slots_openBlock object
    rwa [slots_retireThread h] at opened

theorem retireBlock_counts (b : Block) : (t.retireBlock b).2.allocations = t.allocations ∧
    (t.retireBlock b).2.countAllocations = t.countAllocations := by
  unfold retireBlock
  split <;> exact ⟨rfl, rfl⟩

theorem openBlock_counts (thread : ThreadId) : (t.openBlock thread).2.allocations = t.allocations ∧
    (t.openBlock thread).2.countAllocations = t.countAllocations := by
  unfold openBlock takeBlockIndex
  cases t.freeBlocks <;> exact ⟨rfl, rfl⟩

theorem retireThread_counts (t : HandleTable) (thread : ThreadId) : (t.retireThread thread).2.allocations = t.allocations ∧
    (t.retireThread thread).2.countAllocations = t.countAllocations := by
  unfold retireThread
  split
  next => exact ⟨rfl, rfl⟩
  next =>
    dsimp only
    split
    next => exact ⟨rfl, rfl⟩
    next b _ => exact retireBlock_counts b

/-- Giving out a slot counts one, if slots are counted. -/
theorem allocate_counts (t : HandleTable) (thread : ThreadId) (object : ObjectId) :
    (t.allocate thread object).2.2.allocations =
      (if t.countAllocations then t.allocations + 1 else t.allocations) ∧
    (t.allocate thread object).2.2.countAllocations = t.countAllocations := by
  have counted : ∀ u : HandleTable,
      u = (if t.countAllocations then { t with allocations := t.allocations + 1 } else t) →
      u.allocations = (if t.countAllocations then t.allocations + 1 else t.allocations) ∧
        u.countAllocations = t.countAllocations := by
    rintro u rfl
    split <;> exact ⟨rfl, rfl⟩
  unfold allocate
  -- only the first step counts, so the paths need not be told apart by what they count
  generalize same : (if t.countAllocations then { t with allocations := t.allocations + 1 }
    else t) = u
  obtain ⟨first, second⟩ := counted u same.symm
  rw [← first, ← second]
  dsimp only
  split
  next => exact openBlock_counts thread
  next b _ =>
    split
    next =>
      have retired := retireBlock_counts (t := u) b
      have opened := openBlock_counts (t := (u.retireBlock b).2) thread
      exact ⟨opened.1.trans retired.1, opened.2.trans retired.2⟩
    next => exact ⟨rfl, rfl⟩

/-- What of a table does not depend on the order in which things have happened: a wrapper is in one
slot at most, and retired blocks have let go of their objects. -/
structure Census (t : HandleTable) : Prop where
  once : t.slots.Nodup
  let_go : t.keepAlive = false → ∀ i b, t.block? i = some b → b.retired = true → b.pins = #[]

theorem census_ofOptions (keepAlive countAllocations : Bool) :
    (ofOptions keepAlive countAllocations).Census where
  once := by simp [ofOptions, slots]
  let_go := by simp [ofOptions, block?]

/-- A wrapper in a slot has been made before. -/
theorem Arranged.lt_size_of_mem_slots (h : t.Arranged) (member : w ∈ t.slots) :
    w < t.wrappers.size := by
  obtain ⟨_, _, _, _, _, _, _, made⟩ := h.handle?_of_mem_slots member
  obtain ⟨x, there, _⟩ := Option.map_eq_some_iff.1 made
  exact (Array.getElem?_eq_some_iff.1 there).1

/-- A block that is retired lets go of all that it held. -/
theorem block?_retireThread_off (h : t.Arranged) (off : t.keepAlive = false) {index : Nat}
    (found : t.current.lookup thread = some index) :
    ∃ b, t.block? index = some b ∧ ∀ i, (t.retireThread thread).2.block? i =
      if i = index then some { b with retired := true, pins := #[] } else t.block? i := by
  obtain ⟨b, there, _, number⟩ := h.filled found
  subst number
  refine ⟨b, there, fun i => ?_⟩
  rw [(retireThread_of_lookup found there).2]
  simp only [retireBlock, off, Bool.false_eq_true, if_false]
  exact block?_setBlock _ i (by exact lt_size_of_block? there)

theorem Census.retire (c : t.Census) (h : t.Arranged) (thread : ThreadId) :
    (t.retireThread thread).2.Census where
  once := by
    rw [slots_retireThread h]
    exact c.once
  let_go := by
    rw [retireThread_keepAlive]
    intro off i b there retired
    cases found : t.current.lookup thread with
    | none =>
      rw [show t.retireThread thread = (none, t) by simp [retireThread, found]] at there
      exact c.let_go off i b there retired
    | some index =>
      obtain ⟨_, _, blocks⟩ := block?_retireThread_off h off found
      rw [blocks] at there
      split at there
      next =>
        cases there
        rfl
      next => exact c.let_go off i b there retired

/-- A block with a new slot is not retired. -/
theorem Ready.let_go {b : Block} (ready : Ready t s b) (keepAlive : s.keepAlive = t.keepAlive)
    (c : t.keepAlive = false → ∀ i b, t.block? i = some b → b.retired = true → b.pins = #[])
    (object : ObjectId) : (s.allocateIn b object).2.keepAlive = false →
    ∀ i b', (s.allocateIn b object).2.block? i = some b' → b'.retired = true → b'.pins = #[] := by
  intro off i b' there retired
  rw [block?_allocateIn b object ready.inside, ready.blocks] at there
  split at there
  next =>
    cases there
    simp [ready.filling] at retired
  next => exact c (keepAlive.symm.trans off) i b' there retired

theorem Census.let_go_allocate (c : t.Census) (h : t.Arranged) (thread : ThreadId)
    (object : ObjectId) (off : (t.allocate thread object).2.2.keepAlive = false) :
    ∀ i b, (t.allocate thread object).2.2.block? i = some b → b.retired = true →
      b.pins = #[] := by
  obtain ⟨n, ways⟩ := t.allocate_cases thread object
  -- the counter is moved before the paths part, and neither invariant reads it
  have h : ({ t with allocations := n } : HandleTable).Arranged := h.of_eq rfl rfl rfl rfl
  have c : ({ t with allocations := n } : HandleTable).Census := ⟨c.once, c.let_go⟩
  rcases ways _ rfl with ⟨found, made⟩ | ⟨b, found, ⟨room, made⟩ | ⟨_, rfl, made⟩⟩
  · rw [made] at off ⊢
    have idle := h.lookup_of_currentBlock? found
    exact (h.ready_open idle).let_go takeBlockIndex_keepAlive c.let_go object off
  · rw [made] at off ⊢
    exact (h.ready_current found room).let_go rfl c.let_go object off
  · rw [made] at off ⊢
    have idle : (retireThread { t with allocations := n } thread).2.current.lookup thread = none :=
      lookup_retireThread
    exact ((retireThread_arranged h).ready_open idle).let_go takeBlockIndex_keepAlive
      (c.retire h thread).let_go object off

theorem Census.enter (c : t.Census) (h : t.Arranged) (thread : ThreadId) (object : ObjectId)
    (v : Value) (w : WrapperId) : ((t.allocate thread object).2.2.enter v w).Census where
  once := by
    show (t.allocate thread object).2.2.slots.Nodup
    rw [(h.slots_allocate thread object).nodup_iff, List.nodup_cons]
    refine ⟨fun member => ?_, c.once⟩
    -- a slot names a wrapper that exists, and the new one is the first number not in use
    have before := h.lt_size_of_mem_slots member
    rw [(h.allocate thread object).fresh] at before
    exact Nat.lt_irrefl _ before
  let_go := c.let_go_allocate h thread object

theorem slots_clear (l : List Nat) (blocks : Array (Option Block)) :
    ((l.foldl (fun bs j => bs.setIfInBounds j none) blocks).toList.flatMap
      fun b => b.elim [] (·.wrappers.toList)).Sublist
        (blocks.toList.flatMap fun b => b.elim [] (·.wrappers.toList)) := by
  induction l generalizing blocks with
  | nil => exact .refl _
  | cons j rest ih =>
    refine (ih _).trans ?_
    rw [Array.toList_setIfInBounds]
    exact flatMap_set_sublist rfl

/-- The slots of the blocks given up are gone, and the others stay. -/
theorem slots_releaseUnreachable : (t.releaseUnreachable heap).2.slots.Sublist t.slots :=
  slots_clear (t.vacated heap) t.blocks

theorem Census.release (c : t.Census) : (t.releaseUnreachable heap).2.Census where
  once := c.once.sublist slots_releaseUnreachable
  let_go := fun off i b there => c.let_go off i b (block?_of_releaseUnreachable there)

/-- A wrapper in a block whose object has died and that has not been released. -/
def Unswept (t : HandleTable) (heap : Heap) (w : WrapperId) : Prop :=
  (∃ i b, t.block? i = some b ∧ w ∈ b.wrappers) ∧
    ∃ x, t.wrappers[w]? = some x ∧ x.released = false ∧ heap.isAlive x.target = false

theorem isDying_iff : t.isDying heap w = true ↔
    ∃ x, t.wrappers[w]? = some x ∧ x.released = false ∧ heap.isAlive x.target = false := by
  simp [isDying, Option.any_eq_true]

theorem mem_dying_iff : w ∈ t.dying heap ↔ t.Unswept heap w := by
  unfold dying Unswept
  rw [List.mem_filter, mem_slots_iff, isDying_iff]

theorem encard_setOf_mem {l : List WrapperId} (nodup : l.Nodup) :
    {w | w ∈ l}.encard = l.length := by
  rw [← List.coe_toFinset, Set.encard_coe_eq_coe_finsetCard, List.toFinset_card_of_nodup nodup]

theorem Census.encard_unswept (c : t.Census) (heap : Heap) :
    {w | t.Unswept heap w}.encard = (t.dying heap).length := by
  simp only [← mem_dying_iff]
  exact encard_setOf_mem (c.once.filter _)

/-- The wrappers in blocks that have not been released. -/
def outstanding (t : HandleTable) : Nat :=
  t.slots.countP fun w => t.wrappers[w]?.any (!·.released)

/-- A wrapper that has not been released is live, or its object has died unnoticed. -/
theorem outstanding_eq (t : HandleTable) (heap : Heap) :
    t.outstanding = t.slots.countP (t.isLive heap) + (t.dying heap).length := by
  have either : ∀ w, t.wrappers[w]?.any (!·.released) = (t.isLive heap w || t.isDying heap w) ∧
      (t.isLive heap w && t.isDying heap w) = false := by
    intro w
    unfold isLive pin? isDying
    cases t.wrappers[w]? with
    | none => simp
    | some x => cases r : x.released <;> cases a : heap.isAlive x.target <;> simp [r, a]
  unfold outstanding dying
  rw [← List.countP_eq_length_filter]
  induction t.slots with
  | nil => rfl
  | cons w rest ih =>
    have here := either w
    simp only [List.countP_cons, ih, here.1]
    cases live : t.isLive heap w <;> cases dying : t.isDying heap w <;> simp_all <;> omega

theorem outstanding_retireThread (h : t.Arranged) (thread : ThreadId) :
    (t.retireThread thread).2.outstanding = t.outstanding := by
  unfold outstanding
  rw [slots_retireThread h, retireThread_wrappers]

theorem outstanding_allocate (h : t.Arranged) (thread : ThreadId) (object : ObjectId) :
    (t.allocate thread object).2.2.outstanding = t.outstanding + 1 := by
  have a := h.allocate thread object
  obtain ⟨handle, wrappers⟩ := a.wrappers
  unfold outstanding
  rw [(h.slots_allocate thread object).countP_eq, List.countP_cons, wrappers]
  have new : (t.wrappers.push { handle, target := object })[(t.allocate thread object).1]? =
      some { handle, target := object } := by rw [a.fresh, Array.getElem?_push_size]
  rw [new]
  congr 1
  apply List.countP_congr
  intro w member
  rw [Array.getElem?_push_lt (h.lt_size_of_mem_slots member),
    ← Array.getElem?_eq_getElem (h.lt_size_of_mem_slots member)]

/-- Once the dead have been released there are none left. -/
theorem dying_releaseUnreachable : (t.releaseUnreachable heap).2.dying heap = [] := by
  refine List.filter_eq_nil_iff.2 fun w member dying => ?_
  obtain ⟨x', there, unreleased, dead⟩ := isDying_iff.1 dying
  rw [getElem?_wrappers_releaseUnreachable] at there
  obtain ⟨x, before, rfl⟩ := Option.map_eq_some_iff.1 there
  by_cases swept : w ∈ t.dying heap
  · simp [swept, Wrapper.release] at unreleased
  · simp only [swept, if_false] at unreleased dead
    exact swept (List.mem_filter.2 ⟨slots_releaseUnreachable.subset member,
      isDying_iff.2 ⟨x, before, unreleased, dead⟩⟩)

theorem liveHandles_releaseUnreachable (h : t.Arranged) (c : t.Census) :
    (t.releaseUnreachable heap).2.slots.countP ((t.releaseUnreachable heap).2.isLive heap) =
      t.slots.countP (t.isLive heap) := by
  rw [List.countP_eq_length_filter, List.countP_eq_length_filter]
  apply List.Perm.length_eq
  rw [List.perm_ext_iff_of_nodup (c.release.once.filter _) (c.once.filter _)]
  intro w
  simp only [List.mem_filter, isLive_releaseUnreachable]
  exact and_congr_left h.mem_slots_release

/-- Releasing takes away from what is outstanding as many wrappers as it answers. -/
theorem outstanding_releaseUnreachable (h : t.Arranged) (c : t.Census) (heap : Heap) :
    (t.releaseUnreachable heap).2.outstanding + (t.releaseUnreachable heap).1 = t.outstanding := by
  rw [outstanding_eq _ heap, dying_releaseUnreachable, liveHandles_releaseUnreachable h c,
    outstanding_eq t heap]
  rfl

/-- If all entries resolve, they are as many as the live wrappers in blocks. -/
theorem Interned.size_entries (i : t.Interned heap log) (c : t.Census)
    (live : ∀ (k : Nat) (w : WrapperId), t.entries[k]? = some w → t.isLive heap w) :
    t.entries.size = t.slots.countP (t.isLive heap) := by
  have found : ∀ p ∈ t.entries.toList, t.entries[p.1]? = some p.2 :=
    fun p member => Std.TreeMap.mem_toList_iff_getElem?_eq_some.1 member
  rw [← Std.TreeMap.length_toList, ← List.length_map (f := Prod.snd), List.countP_eq_length_filter]
  apply List.Perm.length_eq
  rw [List.perm_ext_iff_of_nodup _ (c.once.filter _)]
  · intro w
    rw [List.mem_map, List.mem_filter]
    constructor
    · rintro ⟨p, member, rfl⟩
      have resolves := live p.1 p.2 (found p member)
      exact ⟨(i.held p.2 resolves).1, resolves⟩
    · rintro ⟨_, resolves⟩
      obtain ⟨_, v, _, entry⟩ := i.held w resolves
      exact ⟨(v.rank, w), Std.TreeMap.mem_toList_iff_getElem?_eq_some.2 entry, rfl⟩
  · -- the wrapper tells the value, and the value its rank
    apply List.pairwise_map.2
    have distinct := Std.TreeMap.distinct_keys_toList (t := t.entries)
    apply distinct.imp_of_mem
    intro p q first second apart same
    obtain ⟨v, made, rank⟩ := i.entry p.1 p.2 (found p first)
    obtain ⟨v', made', rank'⟩ := i.entry q.1 q.2 (found q second)
    rw [same, made'] at made
    cases made
    exact apart (compare_eq_iff_eq.2 (rank.symm.trans rank'))

end RopeBridge.HandleTable
