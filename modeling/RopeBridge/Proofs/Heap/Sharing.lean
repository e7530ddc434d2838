import Mathlib.Logic.Relation
import RopeBridge.Proofs.Heap.Edit

/-! What sharing reaches. The walk stops at objects that are shared, so it gets to all that can be
reached as long as nothing private is held by anything shared. Which writes to a heap put something
private there is known before the write. -/
namespace RopeBridge.Heap

def isShared (h : Heap) (id : ObjectId) : Bool := (h.get? id).any (·.shared)

/-- One object can be got to from another, through any number of objects that hold each other. -/
def Reaches (h : Heap) : ObjectId → ObjectId → Prop :=
  Relation.ReflTransGen fun id other => other ∈ h.holds id

/-- All that can be reached from a value is shared. -/
def Exposed (h : Heap) (v : Value) : Prop :=
  ∀ id, v.object? = some id → ∀ other, h.Reaches id other → h.isShared other

/-- What a shared object holds is shared. -/
def Sealed (h : Heap) : Prop :=
  ∀ id, h.isShared id → ∀ other ∈ h.holds id, h.isShared other

/-- The same, but for what a walk is still to visit. -/
def SealedBut (h : Heap) (worklist : List ObjectId) : Prop :=
  ∀ id, h.isShared id → ∀ other ∈ h.holds id, h.isShared other ∨ other ∈ worklist

/-- What one operation does to a heap. -/
inductive Write where
  | nothing
  | make (payload : Payload)
  | push (array : ObjectId) (v : Value)
  | share (v : Value)
  | assign (owner : ObjectId) (marked : List Value)
  | replace (id : ObjectId) (payload : Payload)
  | settle (roots : List ObjectId)

def write (h : Heap) : Write → Heap
  | .nothing => h
  | .make payload => (h.add payload).2
  | .push array v => h.push array v
  | .share v => (h.share v).2
  | .assign owner marked => h.setMarked owner marked
  | .replace id payload => h.setPayload id payload
  | .settle roots => h.settle roots

/-- An object is shared, and one of the values is a private object. -/
def Hides (h : Heap) (id : ObjectId) (vs : List Value) : Prop :=
  h.isShared id ∧ ∃ other, .object other ∈ vs ∧ h.isPrivate other

/-- The write lets a shared object hold a private one: the private object is pushed to a shared
array, or is among the marks or the elements that a shared object gets. -/
def Breaches (h : Heap) : Write → Prop
  | .push array v => h.kindOf array = .array ∧ h.Hides array [v]
  | .assign owner marked => h.Hides owner marked
  | .replace id payload => h.Hides id ({ payload } : Object).elements
  | _ => False

variable {h : Heap} {id other : ObjectId} {v : Value} {w : Write} {f : Object → Object}

theorem isShared_iff : h.isShared id ↔ ∃ o, h.get? id = some o ∧ o.shared := by
  unfold isShared
  rw [Option.any_eq_true]

theorem isPrivate_iff : h.isPrivate id ↔ ∃ o, h.get? id = some o ∧ o.shared = false := by
  unfold isPrivate
  rw [Option.any_eq_true]
  simp

/-- An object that is alive is either private or shared. -/
theorem isShared_iff_isAlive : h.isShared id ↔ h.isAlive id ∧ h.isPrivate id = false := by
  unfold isShared isAlive isPrivate
  cases h.get? id <;> simp

theorem isAlive_of_isShared (isShared : h.isShared id) : h.isAlive id :=
  (isShared_iff_isAlive.1 isShared).1

theorem isAlive_of_isPrivate (isPrivate : h.isPrivate id) : h.isAlive id := by
  obtain ⟨o, there, _⟩ := isPrivate_iff.1 isPrivate
  exact isAlive_of_get? there

theorem mem_holds_iff : other ∈ h.holds id ↔
    ∃ o, h.get? id = some o ∧ .object other ∈ o.children := by
  unfold holds
  cases h.get? id <;> simp

theorem Whole.isAlive_of_mem (whole : h.Whole) (member : other ∈ h.holds id) :
    h.isAlive other := by
  obtain ⟨o, there, child⟩ := mem_holds_iff.1 member
  exact whole id o there _ child other rfl

/-- From what is shared in a sealed heap only what is shared can be reached. -/
theorem Sealed.exposed (seals : h.Sealed) (isShared : ∀ id, v.object? = some id → h.isShared id) :
    h.Exposed v := by
  intro id object other reaches
  induction reaches with
  | refl => exact isShared id object
  | tail _ step ih => exact seals _ ih _ step

theorem isShared_markShared :
    (h.markShared id).isShared other ↔ h.isShared other ∨ id = other ∧ h.isAlive other := by
  unfold isShared isAlive markShared
  rw [get?_update]
  cases h.get? other <;> simp <;> split <;> simp_all

theorem holds_markShared : (h.markShared id).holds other = h.holds other := by
  unfold holds markShared
  rw [get?_update]
  split
  next => cases h.get? other <;> rfl
  next => rfl

/-- Sharing takes nothing back. -/
theorem isShared_shareAll (worklist : List ObjectId) (isShared : h.isShared id) :
    (h.shareAll worklist).2.isShared id := by
  fun_induction shareAll h worklist with
  | case1 h => exact isShared
  | case2 h first rest _ reached n shared made ih =>
    rw [made] at ih
    exact ih (isShared_markShared.2 (.inl isShared))
  | case3 h first rest _ ih => exact ih isShared

/-- What the walk visits is shared when it ends. -/
theorem isShared_shareAll_of_mem {worklist : List ObjectId} (member : id ∈ worklist)
    (alive : h.isAlive id) : (h.shareAll worklist).2.isShared id := by
  fun_induction shareAll h worklist with
  | case1 h => exact absurd member List.not_mem_nil
  | case2 h first rest _ reached n shared made ih =>
    rcases List.mem_cons.1 member with rfl | later
    · have kept := isShared_shareAll reached (isShared_markShared.2 (.inr ⟨rfl, alive⟩))
      rwa [made] at kept
    · rw [made] at ih
      exact ih (List.mem_append_right _ later) ((markShared_edited first).alive id alive)
  | case3 h first rest visited ih =>
    rcases List.mem_cons.1 member with rfl | later
    · exact isShared_shareAll rest (isShared_iff_isAlive.2 ⟨alive, by simpa using visited⟩)
    · exact ih later alive

/-- The walk leaves nothing out: what a shared object holds has been shared or is still on the
worklist. -/
theorem SealedBut.shareAll {worklist : List ObjectId} (but : h.SealedBut worklist)
    (whole : h.Whole) : (h.shareAll worklist).2.Sealed := by
  fun_induction Heap.shareAll h worklist with
  | case1 h =>
    intro id isShared other member
    exact (but id isShared other member).resolve_right List.not_mem_nil
  | case2 h first rest isPrivate reached n shared made ih =>
    have but' : (h.markShared first).SealedBut reached := by
      intro id isShared other member
      rw [holds_markShared] at member
      rcases isShared_markShared.1 isShared with before | ⟨rfl, _⟩
      · rcases but id before other member with old | waiting
        · exact .inl (isShared_markShared.2 (.inl old))
        · rcases List.mem_cons.1 waiting with rfl | later
          · exact .inl (isShared_markShared.2 (.inr ⟨rfl, isAlive_of_isPrivate isPrivate⟩))
          · exact .inr (List.mem_append_right _ later)
      · exact .inr (List.mem_append_left _ member)
    have seals := ih but' ((markShared_edited first).whole whole)
    rwa [made] at seals
  | case3 h first rest visited ih =>
    refine ih (fun id isShared other member => ?_) whole
    rcases but id isShared other member with old | waiting
    · exact .inl old
    · rcases List.mem_cons.1 waiting with rfl | later
      · exact .inl (isShared_iff_isAlive.2 ⟨whole.isAlive_of_mem member, by simpa using visited⟩)
      · exact .inr later

theorem isShared_share (object : v.object? = some id) (alive : h.isAlive id) :
    (h.share v).2.isShared id := isShared_shareAll_of_mem (by simp [object]) alive

theorem Sealed.share (seals : h.Sealed) (whole : h.Whole) (v : Value) : (h.share v).2.Sealed := by
  have but : h.SealedBut v.object?.toList := fun id isShared other member =>
    .inl (seals id isShared other member)
  exact but.shareAll whole

/-- An object that is shared is not walked again. -/
theorem share_of_isShared (isShared : h.isShared id) : h.share (.object id) = (0, h) := by
  have visited := (isShared_iff_isAlive.1 isShared).2
  unfold share
  rw [Value.object?_object, Option.toList_some, shareAll, if_neg (by simp [visited]), shareAll]

/-- Sharing exposes every value if, and only if, no shared object holds a private one. -/
theorem exposed_share_iff (whole : h.Whole) :
    (∀ v, h.Has v → (h.share v).2.Exposed v) ↔ h.Sealed := by
  constructor
  · intro exposes id isShared other member
    have exposed := exposes (.object id) (has_object.2 (isAlive_of_isShared isShared))
    rw [share_of_isShared isShared] at exposed
    exact exposed id rfl other (.single member)
  · intro seals v has
    exact (seals.share whole v).exposed fun id object => isShared_share object (has id object)

/-- A change that leaves the flag of the object as it is. -/
theorem isShared_update (flag : ∀ o, h.get? id = some o → (f o).shared = o.shared) :
    (h.update id f).isShared other = h.isShared other := by
  unfold isShared
  rw [get?_update]
  split
  next same =>
    subst same
    cases there : h.get? id with
    | none => rfl
    | some o => exact flag o there
  next => rfl

/-- A sealed heap stays sealed if what a shared object newly holds is not private. -/
theorem Sealed.update (seals : h.Sealed) (whole : (h.update id f).Whole)
    (flag : ∀ o, h.get? id = some o → (f o).shared = o.shared)
    (children : ∀ o, h.get? id = some o → h.isShared id → ∀ other, .object other ∈ (f o).children →
      .object other ∈ o.children ∨ ¬ h.isPrivate other) : (h.update id f).Sealed := by
  intro owner isShared other member
  have alive := whole.isAlive_of_mem member
  rw [isAlive_update] at alive
  rw [isShared_update flag] at isShared ⊢
  obtain ⟨o', there', child⟩ := mem_holds_iff.1 member
  rw [get?_update] at there'
  split at there'
  next same =>
    subst same
    obtain ⟨o, there, rfl⟩ := Option.map_eq_some_iff.1 there'
    rcases children o there isShared other child with old | visible
    · exact seals _ isShared other (mem_holds_iff.2 ⟨o, there, old⟩)
    · exact isShared_iff_isAlive.2 ⟨alive, by simpa using visible⟩
  next => exact seals owner isShared other (mem_holds_iff.2 ⟨o', there', child⟩)

/-- A shared object that has got a private child breaks the seal. -/
theorem Hides.not_sealed {vs : List Value} (hides : h.Hides id vs)
    (flag : ∀ o, h.get? id = some o → (f o).shared = o.shared)
    (children : ∀ o, h.get? id = some o → ∀ v ∈ vs, v ∈ (f o).children) :
    ¬ (h.update id f).Sealed := by
  intro seals
  obtain ⟨isShared, other, member, isPrivate⟩ := hides
  obtain ⟨o, there, _⟩ := isShared_iff.1 isShared
  have there' : (h.update id f).get? id = some (f o) := by rw [get?_update, if_pos rfl, there]; rfl
  have holds := mem_holds_iff.2 ⟨f o, there', children o there _ member⟩
  have exposed := seals id (by rwa [isShared_update flag]) other holds
  rw [isShared_update flag] at exposed
  rw [(isShared_iff_isAlive.1 exposed).2] at isPrivate
  cases isPrivate

theorem kindOf_eq_array_iff : h.kindOf id = .array ↔
    ∃ elements shared marked, h.get? id = some ⟨.array elements, shared, marked⟩ := by
  unfold kindOf
  cases h.get? id with
  | none => simp
  | some o =>
    obtain ⟨payload, shared, marked⟩ := o
    cases payload with
    | boxed n => cases n <;> simp [Object.kind, Number.kind]
    | _ => simp [Object.kind]

/-- What an array holds once a value has been pushed to it. -/
theorem mem_children_push {elements : Array Value} {shared : Bool} {marked : List Value}
    {u : Value} : u ∈ (⟨.array (elements.push v), shared, marked⟩ : Object).children ↔
      u ∈ (⟨.array elements, shared, marked⟩ : Object).children ∨ u = v := by
  simp only [Object.children, Object.elements, Array.toList_push, List.mem_append,
    List.mem_singleton]
  grind

theorem isShared_add {payload : Payload} :
    (h.add payload).2.isShared id = h.isShared id := by
  unfold isShared
  rw [get?_add]
  split
  next last => rw [get?_of_size_le (Nat.le_of_eq last.symm)]; rfl
  next => rfl

theorem holds_add {payload : Payload} (isShared : h.isShared id) :
    (h.add payload).2.holds id = h.holds id := by
  have made := Nat.ne_of_lt (lt_size_of_isAlive (isAlive_of_isShared isShared))
  unfold holds
  rw [get?_add, if_neg made]

theorem isShared_push {array : ObjectId} : (h.push array v).isShared id = h.isShared id := by
  apply isShared_update
  rintro ⟨payload, shared, marked⟩ _
  cases payload <;> rfl

theorem isShared_setMarked {marked : List Value} :
    (h.setMarked other marked).isShared id = h.isShared id := isShared_update fun _ _ => rfl

theorem isShared_setPayload {payload : Payload} :
    (h.setPayload other payload).isShared id = h.isShared id := isShared_update fun _ _ => rfl

/-- What is shared stays so until it dies. -/
theorem isShared_write (isShared : h.isShared id) (alive : (h.write w).isAlive id) :
    (h.write w).isShared id := by
  cases w with
  | nothing => exact isShared
  | make payload => exact isShared_add.trans isShared
  | push array v => exact isShared_push.trans isShared
  | share v => exact isShared_shareAll _ isShared
  | assign owner marked => exact isShared_setMarked.trans isShared
  | replace other payload => exact isShared_setPayload.trans isShared
  | settle roots =>
    obtain ⟨o, there⟩ := isAlive_iff.1 alive
    obtain ⟨o', before, flag⟩ := isShared_iff.1 isShared
    cases (get?_settle there).symm.trans before
    exact isShared_iff.2 ⟨o, there, flag⟩

/-- A write that is no breach keeps a heap sealed. -/
theorem Sealed.write (seals : h.Sealed) (whole : h.Whole) (whole' : (h.write w).Whole)
    (clean : ¬ h.Breaches w) : (h.write w).Sealed := by
  cases w with
  | nothing => exact seals
  | make payload =>
    intro id isShared other member
    rw [Heap.write, isShared_add] at isShared ⊢
    rw [Heap.write, holds_add isShared] at member
    exact seals id isShared other member
  | push array v =>
    apply seals.update whole'
    · rintro ⟨payload, shared, marked⟩ _
      cases payload <;> rfl
    · rintro ⟨payload, shared, marked⟩ there isShared other child
      cases payload with
      | array elements =>
        rcases mem_children_push.1 child with old | rfl
        · exact .inl old
        · refine .inr fun isPrivate => clean ⟨?_, isShared, other, List.mem_cons_self, isPrivate⟩
          exact kindOf_eq_array_iff.2 ⟨elements, shared, marked, there⟩
      | _ => exact .inl child
  | share v => exact seals.share whole v
  | assign owner marked =>
    apply seals.update whole' fun _ _ => rfl
    intro o there isShared other child
    rcases List.mem_append.1 child with element | mark
    · exact .inl (List.mem_append_left _ element)
    · exact .inr fun isPrivate => clean ⟨isShared, other, mark, isPrivate⟩
  | replace id payload =>
    apply seals.update whole' fun _ _ => rfl
    intro o there isShared other child
    rcases List.mem_append.1 child with element | mark
    · exact .inr fun isPrivate => clean ⟨isShared, other, element, isPrivate⟩
    · exact .inl (List.mem_append_right _ mark)
  | settle roots =>
    intro id isShared other member
    obtain ⟨o, there, flag⟩ := isShared_iff.1 isShared
    have alive := whole'.isAlive_of_mem member
    obtain ⟨o', there', child⟩ := mem_holds_iff.1 member
    cases there.symm.trans there'
    have before := get?_settle there
    have old := seals id (isShared_iff.2 ⟨o, before, flag⟩) other
      (mem_holds_iff.2 ⟨o, before, child⟩)
    exact isShared_write (w := .settle roots) old alive

/-- A breach leaves a shared object that holds a private one. -/
theorem not_sealed_of_breaches (breaches : h.Breaches w) : ¬ (h.write w).Sealed := by
  cases w with
  | push array v =>
    obtain ⟨isArray, hides⟩ := breaches
    obtain ⟨elements, shared, marked, there⟩ := kindOf_eq_array_iff.1 isArray
    apply hides.not_sealed
    · rintro ⟨payload, shared, marked⟩ _
      cases payload <;> rfl
    · intro o there' u member
      cases there.symm.trans there'
      exact mem_children_push.2 (.inr (List.mem_singleton.1 member))
  | assign owner marked =>
    exact Hides.not_sealed breaches (fun _ _ => rfl) fun _ _ _ member =>
      List.mem_append_right _ member
  | replace id payload =>
    exact Hides.not_sealed breaches (fun _ _ => rfl) fun _ _ _ member =>
      List.mem_append_left _ member
  | nothing => exact absurd breaches id
  | make payload => exact absurd breaches id
  | share v => exact absurd breaches id
  | settle roots => exact absurd breaches id

end RopeBridge.Heap
