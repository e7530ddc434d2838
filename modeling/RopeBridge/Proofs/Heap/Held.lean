import RopeBridge.Proofs.Heap.Later

/-! What a settling heap keeps. As long as everything that is held is alive, nothing that is held
dies: neither what a root holds nor what an object that is alive holds. -/
namespace RopeBridge.Heap

/-- The object of a value, if it has one, is alive. -/
def Has (h : Heap) (v : Value) : Prop := ∀ id, v.object? = some id → h.isAlive id

/-- What the objects that are alive hold is alive. -/
def Whole (h : Heap) : Prop := ∀ id o, h.get? id = some o → ∀ v ∈ o.children, h.Has v

variable {h h' : Heap} {id : ObjectId} {roots : List ObjectId} {v : Value}

theorem has_object : h.Has (.object id) ↔ h.isAlive id := by
  constructor
  · intro has
    exact has id rfl
  · rintro alive _ same
    cases same
    exact alive

theorem has_nil : h.Has .nil := by
  intro id object
  cases object

theorem Has.knows (has : h.Has v) : h.Knows v := fun id object =>
  lt_size_of_isAlive (has id object)

theorem isAlive_iff : h.isAlive id ↔ ∃ o, h.get? id = some o := Option.isSome_iff_exists

theorem isAlive_of_get? {o : Object} (there : h.get? id = some o) : h.isAlive id :=
  isAlive_iff.2 ⟨o, there⟩

theorem getD_mark (held : Array Bool) (j i : Nat) :
    (held.setIfInBounds j true).getD i false = true ↔
      held.getD i false = true ∨ i = j ∧ i < held.size := by
  simp only [Array.getD_eq_getD_getElem?, Array.getElem?_setIfInBounds]
  by_cases here : j = i
  · subst here
    by_cases inside : j < held.size <;> simp [inside]
  · simp [here, Ne.symm here]

/-- Marks once made stay, and all that is listed is marked. -/
theorem getD_foldl_mark (l : List ObjectId) (held : Array Bool) (i : Nat) :
    (l.foldl (fun held id => held.setIfInBounds id true) held).getD i false = true ↔
      held.getD i false = true ∨ i ∈ l ∧ i < held.size := by
  induction l generalizing held with
  | nil => simp
  | cons j rest ih =>
    rw [List.foldl_cons, ih, getD_mark, Array.size_setIfInBounds, List.mem_cons, or_and_right,
      or_assoc]

theorem size_foldl_mark (l : List ObjectId) (held : Array Bool) :
    (l.foldl (fun held id => held.setIfInBounds id true) held).size = held.size := by
  induction l generalizing held with
  | nil => rfl
  | cons j rest ih => rw [List.foldl_cons, ih, Array.size_setIfInBounds]

/-- What an object marks: all that it holds, if it is alive. -/
def markChildren (held : Array Bool) (o : Option Object) : Array Bool :=
  match o with
  | some o => (Value.objects o.children).foldl (fun held id => held.setIfInBounds id true) held
  | none => held

theorem heldBy_eq (h : Heap) (roots : List ObjectId) :
    h.heldBy roots = h.objects.toList.foldl markChildren
      (roots.foldl (fun held id => held.setIfInBounds id true)
        (Array.replicate h.objects.size false)) := by
  rw [Array.foldl_toList]
  rfl

theorem size_markChildren (held : Array Bool) (o : Option Object) :
    (markChildren held o).size = held.size := by
  cases o with
  | none => rfl
  | some o => exact size_foldl_mark _ held

theorem markChildren_mono {held : Array Bool} (o : Option Object) {i : Nat}
    (marked : held.getD i false = true) : (markChildren held o).getD i false = true := by
  cases o with
  | none => exact marked
  | some o => exact (getD_foldl_mark _ held i).2 (.inl marked)

theorem foldl_markChildren_mono (os : List (Option Object)) {held : Array Bool} {i : Nat}
    (marked : held.getD i false = true) : (os.foldl markChildren held).getD i false = true := by
  induction os generalizing held with
  | nil => exact marked
  | cons o rest ih => exact ih (markChildren_mono o marked)

theorem foldl_markChildren_mem {os : List (Option Object)} {held : Array Bool} {o : Object}
    {i : Nat} (member : some o ∈ os) (child : i ∈ Value.objects o.children)
    (inside : i < held.size) : (os.foldl markChildren held).getD i false = true := by
  induction os generalizing held with
  | nil => exact nomatch member
  | cons first rest ih =>
    rw [List.foldl_cons]
    rcases List.mem_cons.1 member with rfl | later
    · apply foldl_markChildren_mono
      exact (getD_foldl_mark _ held i).2 (.inr ⟨child, inside⟩)
    · apply ih later
      rwa [size_markChildren]

/-- A root is held. -/
theorem heldBy_of_root (member : id ∈ roots) (inside : id < h.objects.size) :
    (h.heldBy roots).getD id false = true := by
  rw [heldBy_eq]
  apply foldl_markChildren_mono
  refine (getD_foldl_mark roots _ id).2 (.inr ⟨member, ?_⟩)
  rwa [Array.size_replicate]

/-- What an object that is alive holds is held. -/
theorem heldBy_of_child {owner : ObjectId} {o : Object} (there : h.get? owner = some o)
    (child : .object id ∈ o.children) (inside : id < h.objects.size) :
    (h.heldBy roots).getD id false = true := by
  rw [heldBy_eq]
  apply foldl_markChildren_mem (o := o)
  · have place := Option.join_eq_some_iff.1 there
    exact Array.mem_toList_iff.2 (Array.mem_of_getElem? place)
  · exact Value.mem_objects.2 child
  · rwa [size_foldl_mark, Array.size_replicate]

theorem get?_sweep_of_held (held : (h.heldBy roots).getD id false = true) :
    (h.sweep roots).get? id = h.get? id := by
  unfold get? sweep
  simp only [Array.getElem?_mapIdx, held, if_true]
  cases h.objects[id]? <;> rfl

/-- Nothing that is held dies in a sweep. -/
theorem sweep_whole (whole : h.Whole) : (h.sweep roots).Whole := by
  intro owner o there v child id object
  have before := get?_sweep there
  have alive := whole owner o before v child id object
  have named := Value.object?_eq_some_iff.1 object
  subst named
  unfold isAlive
  rwa [get?_sweep_of_held (heldBy_of_child before child (lt_size_of_isAlive alive))]

theorem isAlive_sweep_of_root (member : id ∈ roots) (alive : h.isAlive id) :
    (h.sweep roots).isAlive id := by
  unfold isAlive
  rwa [get?_sweep_of_held (heldBy_of_root member (lt_size_of_isAlive alive))]

theorem settle_whole (roots : List ObjectId) (whole : h.Whole) : (h.settle roots).Whole := by
  fun_induction settle h roots with
  | case1 h swept _ ih => exact ih (sweep_whole whole)
  | case2 h => exact whole

/-- What a root holds stays alive. -/
theorem isAlive_settle_of_root (member : id ∈ roots) (alive : h.isAlive id) :
    (h.settle roots).isAlive id := by
  fun_induction settle h roots with
  | case1 h swept _ ih => exact ih (isAlive_sweep_of_root member alive)
  | case2 h => exact alive

/-- An object that stays alive does not change. -/
theorem get?_settle {o : Object} (there : (h.settle roots).get? id = some o) :
    h.get? id = some o := by
  fun_induction settle h roots with
  | case1 h swept _ ih => exact get?_sweep (ih there)
  | case2 h => exact there

end RopeBridge.Heap
