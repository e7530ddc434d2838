import RopeBridge.Proofs.Bridge.Resolving

/-! Values and the handles that stand for them. A value has one handle at a time, unless a box has
got a handle of its own: that handle unwraps to the number in the box, which has another one. -/
namespace RopeBridge

namespace Heap

/-- An object stands for a value: it is the value, or a box with the number. -/
def Stands (h : Heap) (v : Value) (id : ObjectId) : Prop :=
  v = .object id ∨ ∃ n, v = .number n ∧ h.boxed? id = some n

/-- A value that is no box. -/
def Plain (h : Heap) (v : Value) : Prop := ∀ id, v = .object id → h.boxed? id = none

variable {h : Heap} {v : Value} {id : ObjectId} {n : Number}

theorem read_of_boxed? (boxed : h.boxed? id = some n) : h.read id = .number n := by
  unfold read
  rw [boxed]
  rfl

/-- The object that stands for a value reads back as the value. -/
theorem read_of_stands (stands : h.Stands v id) (plain : h.Plain v) : h.read id = v := by
  rcases stands with rfl | ⟨n, rfl, boxed⟩
  · unfold read
    rw [plain id rfl]
    rfl
  · exact read_of_boxed? boxed

/-- What a value has been exposed as stands for it. -/
theorem Exposes.stands {h' : Heap} (exposes : h.Exposes v id h') : h'.Stands v id := by
  cases v with
  | object other => exact .inl (congrArg Value.object (exposes.itself rfl).symm)
  | number n => exact .inr ⟨n, rfl, exposes.boxed?_new⟩
  | nil => exact nomatch exposes
  | true => exact nomatch exposes
  | false => exact nomatch exposes
  | undef => exact nomatch exposes

end Heap

namespace HandleTable

variable {t : HandleTable} {heap : Heap} {log : List Value} {v : Value} {w u : WrapperId}
  {id : ObjectId}

/-- A wrapper that resolves is found under a value that its object stands for. -/
theorem Faithful.stands_of_pin? (f : t.Faithful heap log) (pinned : t.pin? heap w = some id) :
    ∃ v, Handle.ofImmediate? v = none ∧ t.lookup heap v = some w ∧ heap.Stands v id := by
  have live := isLive_iff_pin?.2 ⟨id, pinned⟩
  obtain ⟨_, v, made, entry⟩ := f.held w live
  have wordless := f.wordless v (List.mem_of_getElem? made)
  obtain ⟨x, there, _, alive, target⟩ := pin?_eq_some_iff.1 pinned
  refine ⟨v, wordless, lookup_eq_some_iff.2 ⟨entry, live⟩, ?_⟩
  cases v with
  | object other =>
    have same := f.same w x other there made
    exact .inl (congrArg Value.object (same.symm.trans target))
  | number n => exact .inr ⟨n, rfl, target ▸ f.number w x n there made (target ▸ alive)⟩
  | nil => simp [Handle.ofImmediate?] at wordless
  | true => simp [Handle.ofImmediate?] at wordless
  | false => simp [Handle.ofImmediate?] at wordless
  | undef => simp [Handle.ofImmediate?] at wordless

/-- A value and its wrapper determine each other. -/
theorem Faithful.lookup_injective (f : t.Faithful heap log) {v' : Value}
    (found : t.lookup heap v = some w) (found' : t.lookup heap v' = some w) : v = v' := by
  obtain ⟨u, made, rank⟩ := f.entry v.rank w (lookup_eq_some_iff.1 found).1
  obtain ⟨u', made', rank'⟩ := f.entry v'.rank w (lookup_eq_some_iff.1 found').1
  cases made.symm.trans made'
  exact Value.rank_injective (rank.symm.trans rank')

theorem Faithful.stands_of_lookup (f : t.Faithful heap log) (found : t.lookup heap v = some w) :
    ∃ id, t.pin? heap w = some id ∧ heap.Stands v id := by
  obtain ⟨id, pinned⟩ := isLive_iff_pin?.1 (lookup_eq_some_iff.1 found).2
  obtain ⟨v', _, found', stands⟩ := f.stands_of_pin? pinned
  cases f.lookup_injective found found'
  exact ⟨id, pinned, stands⟩

/-- A box that is alive is that of the wrapper its number is found under. -/
theorem Faithful.lookup_of_boxed? (f : t.Faithful heap log) {n : Number}
    (boxed : heap.boxed? id = some n) : Handle.ofImmediate? (.number n) = none ∧
      ∃ w, t.lookup heap (.number n) = some w ∧ t.pin? heap w = some id := by
  obtain ⟨wordless, w, entry, pinned⟩ := f.box id n boxed
  have live := isLive_iff_pin?.2 ⟨id, pinned⟩
  exact ⟨wordless, w, lookup_eq_some_iff.2 ⟨entry, live⟩, pinned⟩

theorem handleOf_of_handle? {h : Handle} (made : t.handle? w = some h) : t.handleOf w = h := by
  unfold handle? at made
  unfold handleOf
  rw [made]
  rfl

/-- A wrapper that resolves is found at its handle. -/
theorem Faithful.wrapperAt?_of_pin? (f : t.Faithful heap log) (fits : t.InRegion)
    (pinned : t.pin? heap w = some id) :
    t.wrapperAt? (t.handleOf w) = some w ∧ t.handle? w = some (t.handleOf w) := by
  obtain ⟨x, there, _, _, _⟩ := pin?_eq_some_iff.1 pinned
  have made : t.handle? w = some x.handle := by
    unfold handle?
    rw [there]
    rfl
  rw [handleOf_of_handle? made]
  have slot := (f.held w (isLive_iff_pin?.2 ⟨id, pinned⟩)).1
  exact ⟨f.arranged.wrapperAt?_of_mem_slots fits slot made, made⟩

end HandleTable

namespace Bridge

/-- A box that is alive has got a handle of its own. -/
def ExposesBox (b : Bridge) : Prop :=
  ∃ id n w, b.heap.boxed? id = some n ∧ b.handles.lookup b.heap (.object id) = some w

/-- No two handles unwrap to the same value. -/
def DistinctHandles (b : Bridge) : Prop :=
  ∀ h h' v, b.unwrap h = .ok v → b.unwrap h' = .ok v → h = h'

/-- Wrapping what a handle unwraps to gives the handle again. -/
def WrapsBack (b : Bridge) : Prop :=
  ∀ me h v, b.unwrap h = .ok v → ((wrap me v).run b).1 = h

/-- The handle that a value has got: it is written down, or that of the wrapper found for it. -/
inductive Names (b : Bridge) (v : Value) : Handle → Prop
  | word {h : Handle} : Handle.ofImmediate? v = some h → b.Names v h
  | found {w : WrapperId} : Handle.ofImmediate? v = none → b.handles.lookup b.heap v = some w →
    b.Names v (b.handles.handleOf w)

variable {b b' : Bridge} {me : ThreadId} {h h' : Handle} {v v' : Value} {w : WrapperId}
  {id : ObjectId} {log : List Value}

/-- Wrapping a value that has got a handle changes nothing. -/
theorem wrap_of_names (names : b.Names v h) : (wrap me v).run b = (h, b) := by
  unfold wrap
  cases names with
  | word word =>
    rw [word]
    rfl
  | found wordless found =>
    rw [wordless]
    simp only [StateT.run_bind, wrapperFor_found wordless found]
    rfl

/-- A value that has been wrapped has got its handle. -/
theorem Wraps.names (wraps : b.Wraps me v h b') (f : b.handles.Faithful b.heap log)
    (has : b.heap.Has v) : b'.Names v h := by
  cases wraps with
  | word word => exact .word word
  | found wordless found => exact .found wordless found
  | @entered object heap w told t wordless missing exposes allocates =>
    have a := f.arranged.allocate me object
    rw [allocates] at a
    refine .found wordless (HandleTable.lookup_eq_some_iff.2 ⟨?_, ?_⟩)
    · rw [HandleTable.getElem?_enter, if_pos rfl]
    · exact HandleTable.isLive_iff_pin?.2 ⟨object, a.pin?_new (exposes.alive has)⟩

theorem Names.unique (names : b.Names v h) (again : b.Names v h') : h = h' := by
  have first : (wrap 0 v).run b = (h, b) := wrap_of_names names
  exact congrArg Prod.fst (first.symm.trans (wrap_of_names again))

/-- A handle that is no immediate word resolves to an object that stands for its value. -/
theorem Names.resolves (names : b.Names v h) (f : b.handles.Faithful b.heap log)
    (fits : b.handles.InRegion) :
    Handle.ofImmediate? v = some h ∨ ∃ id, b.Resolves h id ∧ b.heap.Stands v id := by
  cases names with
  | word word => exact .inl word
  | @found w _ found =>
    obtain ⟨id, pinned, stands⟩ := f.stands_of_lookup found
    obtain ⟨at_, _⟩ := f.wrapperAt?_of_pin? fits pinned
    exact .inr ⟨id, ⟨w, at_, pinned⟩, stands⟩

/-- The handle of a value that is no box unwraps to the value. -/
theorem Names.unwrap (names : b.Names v h) (f : b.handles.Faithful b.heap log)
    (fits : b.handles.InRegion) (plain : b.heap.Plain v) : b.unwrap h = .ok v := by
  rcases names.resolves f fits with word | ⟨id, resolves, stands⟩
  · exact unwrap_eq_ok_iff.2 (.inl (Handle.immediate?_of_ofImmediate? word))
  · exact unwrap_eq_ok_iff.2 (.inr ⟨id, resolves, Heap.read_of_stands stands plain⟩)

/-- Unless a box is exposed, what a handle unwraps to has got that handle. -/
theorem names_of_unwrap (f : b.handles.Faithful b.heap log) (hidden : ¬ b.ExposesBox)
    (unwraps : b.unwrap h = .ok v) : b.Names v h := by
  rcases unwrap_eq_ok_iff.1 unwraps with immediate | ⟨id, ⟨w, at_, pinned⟩, rfl⟩
  · exact .word (Handle.ofImmediate?_of_immediate? immediate)
  · obtain ⟨u, wordless, found, stands⟩ := f.stands_of_pin? pinned
    have plain : b.heap.Plain u := by
      rintro other rfl
      cases boxed : b.heap.boxed? other with
      | none => rfl
      | some n => exact absurd ⟨other, n, w, boxed, found⟩ hidden
    rw [Heap.read_of_stands stands plain]
    rw [← HandleTable.handleOf_of_handle? (f.arranged.found at_)]
    exact .found wordless found

/-- A box that is exposed has got one handle, and its number another. -/
theorem ExposesBox.handles (exposes : b.ExposesBox) (f : b.handles.Faithful b.heap log)
    (fits : b.handles.InRegion) : ∃ n h h', h ≠ h' ∧ b.unwrap h = .ok (.number n) ∧
      b.unwrap h' = .ok (.number n) ∧ b.Names (.number n) h' := by
  obtain ⟨id, n, w, boxed, found⟩ := exposes
  obtain ⟨wordless, w', found', pinned'⟩ := f.lookup_of_boxed? boxed
  obtain ⟨other, pinned, stands⟩ := f.stands_of_lookup found
  have same : id = other := by
    rcases stands with same | ⟨_, different, _⟩
    · exact Value.object.inj same
    · exact nomatch different
  subst same
  obtain ⟨at_, _⟩ := f.wrapperAt?_of_pin? fits pinned
  obtain ⟨at', _⟩ := f.wrapperAt?_of_pin? fits pinned'
  have read := Heap.read_of_boxed? boxed
  refine ⟨n, b.handles.handleOf w, b.handles.handleOf w', ?_, ?_, ?_, .found wordless found'⟩
  · intro same
    rw [same] at at_
    cases at_.symm.trans at'
    exact nomatch f.lookup_injective found found'
  · exact unwrap_eq_ok_iff.2 (.inr ⟨id, ⟨w, at_, pinned⟩, read⟩)
  · exact unwrap_eq_ok_iff.2 (.inr ⟨id, ⟨w', at', pinned'⟩, read⟩)

theorem distinctHandles_iff (f : b.handles.Faithful b.heap log) (fits : b.handles.InRegion) :
    b.DistinctHandles ↔ ¬ b.ExposesBox := by
  constructor
  · intro distinct exposes
    obtain ⟨n, h, h', different, unwraps, unwraps', _⟩ := exposes.handles f fits
    exact different (distinct h h' _ unwraps unwraps')
  · intro hidden h h' v unwraps unwraps'
    exact (names_of_unwrap f hidden unwraps).unique (names_of_unwrap f hidden unwraps')

theorem wrapsBack_iff (f : b.handles.Faithful b.heap log) (fits : b.handles.InRegion) :
    b.WrapsBack ↔ ¬ b.ExposesBox := by
  constructor
  · intro back exposes
    obtain ⟨n, h, h', different, unwraps, _, names⟩ := exposes.handles f fits
    have again := back 0 h _ unwraps
    rw [wrap_of_names names] at again
    exact different again.symm
  · intro hidden me h v unwraps
    rw [wrap_of_names (names_of_unwrap f hidden unwraps)]

/-- A box that is wrapped is exposed. -/
theorem Wraps.exposesBox {n : Number} (wraps : b.Wraps me (.object id) h b')
    (f : b.handles.Faithful b.heap log) (boxed : b.heap.boxed? id = some n) : b'.ExposesBox := by
  have has := Heap.has_object.2 (Heap.isAlive_of_boxed? boxed)
  have touches := wraps.touches has
  have alive := touches.alive (Heap.isAlive_of_boxed? boxed)
  have boxed' := (touches.onward f).boxed id (Heap.isAlive_of_boxed? boxed) alive
  cases wraps.names f has with
  | word word => exact nomatch word
  | @found w _ found => exact ⟨id, n, w, boxed'.trans boxed, found⟩

end Bridge

end RopeBridge
