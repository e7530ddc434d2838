import RopeBridge.Heap.Settle
import RopeBridge.Heap.Share

/-! What a heap becomes. Objects are made and die, and no number is given out twice: what was dead
stays dead. A value is known once its object has been made. -/
namespace RopeBridge.Heap

variable {h h' h'' : Heap}

/-- The object of a value, if it has one, has been made. -/
def Knows (h : Heap) (v : Value) : Prop := ∀ id, v.object? = some id → id < h.objects.size

/-- What is held on behalf of objects is known. -/
def Closed (h : Heap) : Prop := ∀ id o, h.get? id = some o → ∀ v ∈ o.marked, h.Knows v

/-- What a heap may have become. -/
structure Later (h h' : Heap) : Prop where
  size : h.objects.size ≤ h'.objects.size
  dead : ∀ id, id < h.objects.size → h'.isAlive id → h.isAlive id
  closed : h.Closed → h'.Closed

theorem Later.refl (h : Heap) : h.Later h := by
  constructor
  · exact Nat.le_refl _
  · intro _ _ alive
    exact alive
  · exact id

theorem Later.trans (first : h.Later h') (second : h'.Later h'') : h.Later h'' := by
  constructor
  · exact Nat.le_trans first.size second.size
  · intro id inside alive
    apply first.dead id inside
    exact second.dead id (Nat.lt_of_lt_of_le inside first.size) alive
  · intro closed
    exact second.closed (first.closed closed)

theorem Later.knows (later : h.Later h') {v : Value} (known : h.Knows v) : h'.Knows v := by
  intro id object
  exact Nat.lt_of_lt_of_le (known id object) later.size

theorem knows_object {id : ObjectId} : h.Knows (.object id) ↔ id < h.objects.size := by
  constructor
  · intro known
    exact known id rfl
  · rintro inside _ same
    cases same
    exact inside

theorem add_later (payload : Payload) : h.Later (h.add payload).2 := by
  have size : h.objects.size ≤ (h.add payload).2.objects.size := by simp [add]
  constructor
  · exact size
  · intro id inside alive
    unfold isAlive at alive ⊢
    rwa [get?_add, if_neg (Nat.ne_of_lt inside)] at alive
  · intro closed id o there v member
    rw [get?_add] at there
    split at there
    · cases there
      exact nomatch member
    · intro object inside
      exact Nat.lt_of_lt_of_le (closed id o there v member object inside) size

theorem update_later {f : Object → Object} (id : ObjectId)
    (marked : ∀ o, h.get? id = some o → h.Closed → ∀ v ∈ (f o).marked, h.Knows v) :
    h.Later (h.update id f) := by
  have size : (h.update id f).objects.size = h.objects.size := by simp [update]
  constructor
  · omega
  · intro other _ alive
    unfold isAlive at alive ⊢
    rw [get?_update] at alive
    split at alive
    · simpa using alive
    · exact alive
  · intro closed other o there v member object inside
    rw [size]
    rw [get?_update] at there
    split at there
    next same =>
      subst same
      obtain ⟨o, before, rfl⟩ := Option.map_eq_some_iff.1 there
      exact marked o before closed v member object inside
    next => exact closed other o there v member object inside

theorem update_later_of_marked {f : Object → Object} (id : ObjectId)
    (marked : ∀ o, (f o).marked = o.marked) : h.Later (h.update id f) := by
  apply update_later
  intro o there closed v member
  rw [marked] at member
  exact closed id o there v member

theorem markShared_later (id : ObjectId) : h.Later (h.markShared id) :=
  update_later_of_marked id fun _ => rfl

theorem setMarked_later (id : ObjectId) {marked : List Value}
    (known : ∀ v ∈ marked, h.Knows v) : h.Later (h.setMarked id marked) :=
  update_later id fun _ _ _ => known

theorem shareAll_later (worklist : List ObjectId) : h.Later (h.shareAll worklist).2 := by
  fun_induction shareAll h worklist with
  | case1 h => exact .refl h
  | case2 h id rest _ reached n shared made ih =>
    rw [made] at ih
    exact (markShared_later id).trans ih
  | case3 h id rest _ ih => exact ih

theorem share_later (v : Value) : h.Later (h.share v).2 := shareAll_later _

theorem get?_sweep {roots : List ObjectId} {id : ObjectId} {o : Object}
    (there : (h.sweep roots).get? id = some o) : h.get? id = some o := by
  unfold get? sweep at there
  simp only [Array.getElem?_mapIdx] at there
  unfold get?
  cases place : h.objects[id]? with
  | none => simp [place] at there
  | some content =>
    rw [place] at there
    simp only [Option.map_some, Option.join_some] at there ⊢
    split at there
    · exact there
    · exact nomatch there

theorem sweep_later (roots : List ObjectId) : h.Later (h.sweep roots) := by
  have size : (h.sweep roots).objects.size = h.objects.size := by simp [sweep]
  constructor
  · omega
  · intro id _ alive
    obtain ⟨o, there⟩ := Option.isSome_iff_exists.1 alive
    exact Option.isSome_iff_exists.2 ⟨o, get?_sweep there⟩
  · intro closed id o there v member object inside
    rw [size]
    exact closed id o (get?_sweep there) v member object inside

theorem settle_later (roots : List ObjectId) : h.Later (h.settle roots) := by
  fun_induction settle h roots with
  | case1 h swept _ ih => exact (sweep_later roots).trans ih
  | case2 h => exact .refl h

end RopeBridge.Heap
