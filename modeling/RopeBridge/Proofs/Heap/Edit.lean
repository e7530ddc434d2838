import RopeBridge.Proofs.Heap.Held

/-! What operations on the heap leave alone. Until it settles no object dies; what is marked on
behalf of an object and the number in a box stay as they are, whatever else is changed. -/
namespace RopeBridge.Heap

/-- The number in a box. -/
def boxed? (h : Heap) (id : ObjectId) : Option Number := (h.get? id).bind Object.boxed?

/-- What is marked on behalf of an object. -/
def marked (h : Heap) (id : ObjectId) : List Value := (h.get? id).elim [] (·.marked)

/-- Objects have been made and changed, but none has died. -/
structure Grown (h h' : Heap) : Prop where
  later : h.Later h'
  alive : ∀ id, h.isAlive id → h'.isAlive id
  boxed : ∀ id, id < h.objects.size → h'.boxed? id = h.boxed? id
  marked : ∀ id, h'.marked id = h.marked id
  whole : h.Whole → h'.Whole

/-- Besides, no box has been made. -/
structure Edited (h h' : Heap) : Prop extends Grown h h' where
  unboxed : ∀ id, h.objects.size ≤ id → h'.boxed? id = none

variable {h h' h'' : Heap} {id other : ObjectId} {v : Value} {f : Object → Object}

theorem isAlive_of_boxed? {n : Number} (boxed : h.boxed? id = some n) : h.isAlive id := by
  obtain ⟨o, there, _⟩ := Option.bind_eq_some_iff.1 boxed
  exact isAlive_of_get? there

theorem get?_of_size_le (outside : h.objects.size ≤ id) : h.get? id = none := by
  unfold get?
  rw [Array.getElem?_eq_none outside]
  rfl

theorem Has.grown (has : h.Has v) (grown : h.Grown h') : h'.Has v := fun id object =>
  grown.alive id (has id object)

theorem Grown.refl (h : Heap) : h.Grown h := by
  constructor
  case later => exact .refl h
  case alive => exact fun _ alive => alive
  case boxed => exact fun _ _ => rfl
  case marked => exact fun _ => rfl
  case whole => exact id

theorem Grown.trans (first : h.Grown h') (second : h'.Grown h'') : h.Grown h'' := by
  constructor
  case later => exact first.later.trans second.later
  case alive => exact fun id alive => second.alive id (first.alive id alive)
  case boxed =>
    intro id inside
    have inside' := Nat.lt_of_lt_of_le inside first.later.size
    exact (second.boxed id inside').trans (first.boxed id inside)
  case marked => exact fun id => (second.marked id).trans (first.marked id)
  case whole => exact fun whole => second.whole (first.whole whole)

theorem Edited.refl (h : Heap) : h.Edited h where
  toGrown := .refl h
  unboxed := by
    intro id outside
    unfold boxed?
    rw [get?_of_size_le outside]
    rfl

theorem Edited.trans (first : h.Edited h') (second : h'.Edited h'') : h.Edited h'' where
  toGrown := first.toGrown.trans second.toGrown
  unboxed := by
    intro id outside
    by_cases inside : id < h'.objects.size
    · exact (second.boxed id inside).trans (first.unboxed id outside)
    · exact second.unboxed id (Nat.le_of_not_lt inside)

theorem Edited.boxed_eq (edited : h.Edited h') (id : ObjectId) : h'.boxed? id = h.boxed? id := by
  by_cases inside : id < h.objects.size
  · exact edited.boxed id inside
  · have outside := Nat.le_of_not_lt inside
    exact (edited.unboxed id outside).trans ((Edited.refl h).unboxed id outside).symm

theorem isAlive_update : (h.update id f).isAlive other = h.isAlive other := by
  unfold isAlive
  rw [get?_update]
  split
  · exact Option.isSome_map
  · rfl

/-- What is alive in a heap stays alive when an object is made. -/
theorem isAlive_add (payload : Payload) (alive : h.isAlive id) : (h.add payload).2.isAlive id := by
  unfold isAlive at alive ⊢
  rw [get?_add]
  split
  · rfl
  · exact alive

theorem has_update (has : h.Has v) : (h.update id f).Has v := fun other object => by
  rw [isAlive_update]
  exact has other object

theorem update_whole (whole : h.Whole)
    (children : ∀ o, h.get? id = some o → ∀ v ∈ (f o).children, h.Has v) :
    (h.update id f).Whole := by
  intro other o there v member
  apply has_update
  rw [get?_update] at there
  split at there
  next same =>
    subst same
    obtain ⟨o, before, rfl⟩ := Option.map_eq_some_iff.1 there
    exact children o before v member
  next => exact whole other o there v member

/-- An object is changed, but neither its box nor what is marked on its behalf. -/
theorem update_edited (id : ObjectId)
    (boxed : ∀ o, h.get? id = some o → (f o).boxed? = o.boxed?)
    (marked : ∀ o, h.get? id = some o → (f o).marked = o.marked)
    (elements : ∀ o, h.get? id = some o → ∀ v ∈ (f o).elements, v ∈ o.elements ∨ h.Has v) :
    h.Edited (h.update id f) where
  later := by
    apply update_later
    intro o there closed v member
    rw [marked o there] at member
    exact closed id o there v member
  alive := by
    intro other alive
    rwa [isAlive_update]
  boxed := by
    intro other _
    unfold boxed?
    rw [get?_update]
    split
    next same =>
      subst same
      cases there : h.get? id with
      | none => rfl
      | some o => exact boxed o there
    next => rfl
  marked := by
    intro other
    unfold Heap.marked
    rw [get?_update]
    split
    next same =>
      subst same
      cases there : h.get? id with
      | none => rfl
      | some o => exact marked o there
    next => rfl
  whole := by
    intro whole
    apply update_whole whole
    intro o there v member
    rcases List.mem_append.1 member with element | kept
    · rcases elements o there v element with before | has
      · exact whole id o there v (List.mem_append_left _ before)
      · exact has
    · rw [marked o there] at kept
      exact whole id o there v (List.mem_append_right _ kept)
  unboxed := by
    intro other outside
    unfold boxed?
    rw [get?_update, get?_of_size_le outside]
    split <;> rfl

theorem markShared_edited (id : ObjectId) : h.Edited (h.markShared id) :=
  update_edited id (fun _ _ => rfl) (fun _ _ => rfl) fun _ _ _ member => .inl member

theorem shareAll_edited (worklist : List ObjectId) : h.Edited (h.shareAll worklist).2 := by
  fun_induction shareAll h worklist with
  | case1 h => exact .refl h
  | case2 h id rest _ reached n shared made ih =>
    rw [made] at ih
    exact (markShared_edited id).trans ih
  | case3 h id rest _ ih => exact ih

theorem share_edited (v : Value) : h.Edited (h.share v).2 := shareAll_edited _

theorem push_edited (id : ObjectId) (has : h.Has v) : h.Edited (h.push id v) := by
  refine update_edited id ?_ ?_ ?_
  · rintro ⟨payload, shared, marked⟩ _
    cases payload <;> rfl
  · rintro ⟨payload, shared, marked⟩ _
    cases payload <;> rfl
  · rintro ⟨payload, shared, marked⟩ _ w member
    cases payload with
    | array elements =>
      simp only [Object.elements, Array.toList_push, List.mem_append,
        List.mem_singleton] at member ⊢
      rcases member with before | rfl
      · exact .inl before
      · exact .inr has
    | _ => exact .inl member

/-- The content of an object is replaced by one that is no box either. -/
theorem setPayload_edited {payload : Payload} (id : ObjectId)
    (boxed : ∀ o, h.get? id = some o → ({ o with payload } : Object).boxed? = o.boxed?)
    (elements : ∀ v ∈ ({ payload } : Object).elements, h.Has v) :
    h.Edited (h.setPayload id payload) :=
  update_edited id boxed (fun _ _ => rfl) fun _ _ v member => .inr (elements v member)

theorem add_grown {payload : Payload} (elements : ∀ v ∈ ({ payload } : Object).elements, h.Has v) :
    h.Grown (h.add payload).2 where
  later := add_later payload
  alive := fun _ alive => isAlive_add payload alive
  boxed := by
    intro id inside
    unfold boxed?
    rw [get?_add, if_neg (Nat.ne_of_lt inside)]
  marked := by
    intro id
    unfold Heap.marked
    rw [get?_add]
    split
    next last =>
      rw [get?_of_size_le (Nat.le_of_eq last.symm)]
      rfl
    next => rfl
  whole := by
    intro whole id o there v member other object
    apply isAlive_add
    rw [get?_add] at there
    split at there
    · cases there
      rw [Object.children, List.append_nil] at member
      exact elements v member other object
    · exact whole id o there v member other object

theorem add_edited {payload : Payload} (box : ({ payload } : Object).boxed? = none)
    (elements : ∀ v ∈ ({ payload } : Object).elements, h.Has v) :
    h.Edited (h.add payload).2 where
  toGrown := add_grown elements
  unboxed := by
    intro id outside
    unfold boxed?
    rw [get?_add]
    split
    · exact box
    · rw [get?_of_size_le outside]
      rfl

theorem boxed?_settle {roots : List ObjectId} (alive : (h.settle roots).isAlive id) :
    (h.settle roots).boxed? id = h.boxed? id := by
  obtain ⟨o, there⟩ := isAlive_iff.1 alive
  unfold boxed?
  rw [there, get?_settle there]

theorem marked_settle {roots : List ObjectId} (alive : (h.settle roots).isAlive id) :
    (h.settle roots).marked id = h.marked id := by
  obtain ⟨o, there⟩ := isAlive_iff.1 alive
  unfold Heap.marked
  rw [there, get?_settle there]

theorem boxed?_setMarked (vs : List Value) : (h.setMarked id vs).boxed? other = h.boxed? other := by
  unfold boxed? setMarked
  rw [get?_update]
  split
  · cases h.get? other <;> rfl
  · rfl

theorem marked_setMarked (vs : List Value) : (h.setMarked id vs).marked other =
    if id = other ∧ h.isAlive other then vs else h.marked other := by
  unfold Heap.marked setMarked isAlive
  rw [get?_update]
  by_cases same : id = other
  · subst same
    cases h.get? id <;> simp
  · simp [same]

theorem setMarked_whole {vs : List Value} (whole : h.Whole) (has : ∀ v ∈ vs, h.Has v) :
    (h.setMarked id vs).Whole := by
  apply update_whole whole
  intro o there v member
  rcases List.mem_append.1 member with element | kept
  · exact whole id o there v (List.mem_append_left _ element)
  · exact has v kept

end RopeBridge.Heap
