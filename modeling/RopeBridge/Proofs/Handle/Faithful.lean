import RopeBridge.Proofs.Handle.Interned
import RopeBridge.Proofs.Heap.Edit

/-! Wrappers stand for the values they were made for. The wrapper of a number is that of a box with
the number, and every box that is alive is that of the wrapper its number is found under. -/
namespace RopeBridge

/-- Exposing a value: an object is shared, a number gets a box. -/
inductive Heap.Exposes (h : Heap) : Value → ObjectId → Heap → Prop
  | object (id : ObjectId) : h.Exposes (.object id) id (h.share (.object id)).2
  | number (n : Number) : h.Exposes (.number n) h.objects.size (h.add (.boxed n)).2

namespace Heap.Exposes

variable {h h' : Heap} {v : Value} {id : ObjectId}

theorem grown (exposes : h.Exposes v id h') : h.Grown h' := by
  cases exposes with
  | object id => exact (share_edited _).toGrown
  | number n => exact add_grown fun _ member => nomatch member

/-- The object that stands for a value is alive. -/
theorem alive (exposes : h.Exposes v id h') (has : h.Has v) : h'.isAlive id := by
  cases exposes with
  | object id => exact (share_edited _).alive id (has_object.1 has)
  | number n => simp [isAlive, get?_add]

theorem itself (exposes : h.Exposes v id h') {other : ObjectId} (same : v = .object other) :
    id = other := by
  cases exposes with
  | object id => exact Value.object.inj same
  | number n => exact nomatch same

theorem boxed?_new {n : Number} (exposes : h.Exposes (.number n) id h') :
    h'.boxed? id = some n := by
  cases exposes
  simp [Heap.boxed?, get?_add, Object.boxed?]

/-- A box is an old one, or that of the number that has been exposed. -/
theorem boxed?_cases (exposes : h.Exposes v id h') {other : ObjectId} {n : Number}
    (boxed : h'.boxed? other = some n) :
    h.boxed? other = some n ∨ v = .number n ∧ other = id := by
  cases exposes with
  | object id =>
    rw [(share_edited _).boxed_eq] at boxed
    exact .inl boxed
  | number m =>
    by_cases new : other = h.objects.size
    · simp [Heap.boxed?, get?_add, new, Object.boxed?] at boxed
      exact .inr ⟨congrArg Value.number boxed, new⟩
    · simp only [Heap.boxed?, get?_add, if_neg new] at boxed
      exact .inl boxed

end Heap.Exposes

namespace HandleTable

/-- A table that is true to the values its wrappers were made for. -/
structure Faithful (t : HandleTable) (heap : Heap) (log : List Value) : Prop
    extends t.Interned heap log where
  /-- No wrapper is made for a value that is written in its handle. -/
  wordless : ∀ v ∈ log, Handle.ofImmediate? v = none
  number : ∀ (w : WrapperId) (x : Wrapper) (n : Number), t.wrappers[w]? = some x →
    log[w]? = some (.number n) → heap.isAlive x.target → heap.boxed? x.target = some n
  box : ∀ (id : ObjectId) (n : Number), heap.boxed? id = some n →
    Handle.ofImmediate? (.number n) = none ∧
      ∃ w, t.entries[(Value.number n).rank]? = some w ∧ t.pin? heap w = some id

variable {t t' : HandleTable} {heap heap' : Heap} {log : List Value} {v : Value} {w u : WrapperId}
  {id object : ObjectId}

theorem pin?_eq_some_iff : t.pin? heap w = some id ↔
    ∃ x, t.wrappers[w]? = some x ∧ x.released = false ∧ heap.isAlive id ∧ x.target = id := by
  unfold pin?
  cases t.wrappers[w]? with
  | none => simp
  | some x =>
    show (if x.released ∨ !heap.isAlive x.target then none else some x.target) = some id ↔ _
    simp only [Option.ite_none_left_eq_some, not_or, Bool.not_eq_true, Bool.not_eq_false',
      Option.some.injEq]
    constructor
    · rintro ⟨⟨unreleased, alive⟩, rfl⟩
      exact ⟨x, rfl, unreleased, alive, rfl⟩
    · rintro ⟨_, rfl, unreleased, alive, rfl⟩
      exact ⟨⟨unreleased, alive⟩, rfl⟩

theorem isLive_iff_pin? : t.isLive heap w ↔ ∃ id, t.pin? heap w = some id :=
  Option.isSome_iff_exists

theorem isAlive_of_pin? (pinned : t.pin? heap w = some id) : heap.isAlive id := by
  obtain ⟨_, _, _, alive, _⟩ := pin?_eq_some_iff.1 pinned
  exact alive

/-- What a wrapper pins does not change while it is alive. -/
theorem pin?_of_alive (pinned : t.pin? heap w = some id) (alive : heap'.isAlive id) :
    t.pin? heap' w = some id := by
  obtain ⟨x, there, unreleased, _, target⟩ := pin?_eq_some_iff.1 pinned
  exact pin?_eq_some_iff.2 ⟨x, there, unreleased, alive, target⟩

theorem lookup_eq_some_iff : t.lookup heap v = some w ↔
    t.entries[v.rank]? = some w ∧ t.isLive heap w := by
  unfold lookup
  rw [Option.filter_eq_some_iff]

theorem faithful_ofOptions (keepAlive countAllocations : Bool) :
    (ofOptions keepAlive countAllocations).Faithful {} [] where
  toInterned := interned_ofOptions keepAlive countAllocations {}
  wordless := fun _ member => nomatch member
  number := fun _ _ _ there => nomatch there
  box := fun _ _ boxed => nomatch boxed

/-- Boxes may die, but none is made beside the table. -/
theorem Faithful.later (f : t.Faithful heap log) (later : heap.Later heap')
    (boxed : ∀ id, heap'.isAlive id → heap'.boxed? id = heap.boxed? id) :
    t.Faithful heap' log where
  toInterned := f.toInterned.later later
  wordless := f.wordless
  number := by
    intro w x n there logged alive
    rw [boxed _ alive]
    exact f.number w x n there logged (later.dead x.target (f.target w x there) alive)
  box := by
    intro id n held
    have alive := Heap.isAlive_of_boxed? held
    rw [boxed id alive] at held
    obtain ⟨wordless, w, entry, pinned⟩ := f.box id n held
    exact ⟨wordless, w, entry, pin?_of_alive pinned alive⟩

theorem Faithful.edited (f : t.Faithful heap log) (edited : heap.Edited heap') :
    t.Faithful heap' log := f.later edited.later fun id _ => edited.boxed_eq id

theorem Allocates.pin?_old (a : t.Allocates object w t') (pinned : t.pin? heap u = some id)
    (alive : heap'.isAlive id) : t'.pin? heap' u = some id := by
  obtain ⟨x, there, unreleased, _, target⟩ := pin?_eq_some_iff.1 pinned
  obtain ⟨handle, wrappers⟩ := a.wrappers
  refine pin?_eq_some_iff.2 ⟨x, ?_, unreleased, alive, target⟩
  have inside := (Array.getElem?_eq_some_iff.1 there).1
  rw [wrappers, Array.getElem?_push, if_neg (Nat.ne_of_lt inside), there]

theorem Allocates.pin?_new (a : t.Allocates object w t') (alive : heap.isAlive object) :
    t'.pin? heap w = some object := by
  obtain ⟨handle, wrappers⟩ := a.wrappers
  refine pin?_eq_some_iff.2 ⟨{ handle, target := object }, ?_, rfl, alive, rfl⟩
  rw [wrappers, a.fresh, Array.getElem?_push_size]

/-- A value that is not found is exposed, and its wrapper is the one it is found under. -/
theorem Faithful.enter (f : t.Faithful heap log) (wordless : Handle.ofImmediate? v = none)
    (missing : t.lookup heap v = none) (has : heap.Has v) (exposes : heap.Exposes v object heap')
    (a : t.Allocates object w t') : (t'.enter v w).Faithful heap' (log ++ [v]) where
  toInterned := by
    have later := exposes.grown.later
    have missing' := f.toInterned.lookup_of_later later missing
    have made := Heap.lt_size_of_isAlive (exposes.alive has)
    exact (f.toInterned.later later).enter a missing' made fun _ => exposes.itself
  wordless := by
    intro u member
    rcases List.mem_append.1 member with before | new
    · exact f.wordless u before
    · rwa [List.mem_singleton.1 new]
  number := by
    intro u x n there logged alive
    rcases a.wrapper_cases there with ⟨rfl, target⟩ | ⟨_, before⟩
    · rw [a.fresh, f.length, List.getElem?_concat_length] at logged
      cases logged
      rw [target]
      exact exposes.boxed?_new
    · rw [f.toInterned.logged before] at logged
      have inside := f.target u x before
      rw [exposes.grown.boxed _ inside]
      exact f.number u x n before logged (exposes.grown.later.dead _ inside alive)
  box := by
    intro id n boxed
    rcases exposes.boxed?_cases boxed with old | ⟨rfl, rfl⟩
    · obtain ⟨wordless, u, entry, pinned⟩ := f.box id n old
      refine ⟨wordless, u, ?_, a.pin?_old pinned (Heap.isAlive_of_boxed? boxed)⟩
      rw [getElem?_enter, a.entries, if_neg, entry]
      intro same
      have found : t.lookup heap v = some u := by
        refine lookup_eq_some_iff.2 ⟨?_, isLive_iff_pin?.2 ⟨id, pinned⟩⟩
        rw [same, entry]
      exact nomatch missing.symm.trans found
    · refine ⟨wordless, w, ?_, a.pin?_new (Heap.isAlive_of_boxed? boxed)⟩
      rw [getElem?_enter, if_pos rfl]

theorem pin?_retireThread (thread : ThreadId) (w : WrapperId) :
    (t.retireThread thread).2.pin? heap w = t.pin? heap w := by
  unfold pin?
  rw [retireThread_wrappers]

theorem Faithful.retire (f : t.Faithful heap log) (thread : ThreadId) :
    (t.retireThread thread).2.Faithful heap log where
  toInterned := f.toInterned.retire thread
  wordless := f.wordless
  number := by
    rw [retireThread_wrappers]
    exact f.number
  box := by
    intro id n boxed
    obtain ⟨wordless, w, entry, pinned⟩ := f.box id n boxed
    exact ⟨wordless, w, by rwa [retireThread_entries], by rwa [pin?_retireThread]⟩

theorem Faithful.release (f : t.Faithful heap log) :
    (t.releaseUnreachable heap).2.Faithful heap log where
  toInterned := f.toInterned.release
  wordless := f.wordless
  number := by
    intro w x n there logged alive
    rw [getElem?_wrappers_releaseUnreachable] at there
    obtain ⟨y, before, rfl⟩ := Option.map_eq_some_iff.1 there
    have target : (if w ∈ t.dying heap then y.release else y).target = y.target := by
      split <;> rfl
    rw [target] at alive ⊢
    exact f.number w y n before logged alive
  box := by
    intro id n boxed
    obtain ⟨wordless, w, entry, pinned⟩ := f.box id n boxed
    refine ⟨wordless, w, ?_, by rwa [pin?_releaseUnreachable]⟩
    have kept : (t.releaseUnreachable heap).2.entries[(Value.number n).rank]? =
      t.entries[(Value.number n).rank]?.filter (t.isLive heap) := Std.TreeMap.getElem?_filter'
    rw [kept, entry]
    exact Option.filter_eq_some_iff.2 ⟨rfl, isLive_iff_pin?.2 ⟨id, pinned⟩⟩

end HandleTable

end RopeBridge
