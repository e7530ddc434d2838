import RopeBridge.Bridge.Collect
import RopeBridge.Proofs.Handle.Sound

/-! How a bridge came about, as far as handles are concerned: which values have been exposed, when
threads stopped filling their blocks, when handles were released, and that anything else left the
handles alone. -/
namespace RopeBridge

/-- The values that a script names are known. -/
def Heap.KnowsScript (heap : Heap) (script : List MarkAct) : Prop :=
  ∀ act ∈ script, ∀ v ∈ act.values, heap.Knows v

theorem Heap.Later.knowsScript {heap heap' : Heap} (later : heap.Later heap')
    {script : List MarkAct} (known : heap.KnowsScript script) : heap'.KnowsScript script :=
  fun act member v named => later.knows (known act member v named)

namespace Bridge

/-- Every value that a marker names or that is held on behalf of an object is known. -/
structure Closed (b : Bridge) : Prop where
  heap : b.heap.Closed
  scripts : ∀ m ∈ b.marking.markers, b.heap.KnowsScript m.script

/-- What happens beside the work on handles. Objects are made, change and die, and so do markers,
threads and clients. -/
structure Aside (b b' : Bridge) : Prop where
  handles : b'.handles = b.handles
  heap : b.heap.Later b'.heap
  closed : b.Closed → b'.Closed

/-- The value that gets a wrapper when a value is exposed, if one does. -/
def exposed (b : Bridge) (v : Value) : List Value :=
  if (Handle.ofImmediate? v).isNone && (b.handles.lookup b.heap v).isNone then [v] else []

/-- The values for which wrappers have been made on the way to a bridge, in order. -/
inductive History (o : Options) : List Value → Bridge → Prop
  | start : History o [] (ofOptions o)
  | expose {log b} (me : ThreadId) (v : Value) : History o log b → b.heap.Knows v →
    History o (log ++ b.exposed v) ((wrapperFor me v).run b).2
  | retire {log b} (me : ThreadId) : History o log b → History o log (b.retire me)
  | release {log b} : History o log b → History o log (releaseUnreachable.run b).2
  | aside {log b b'} : History o log b → b.Aside b' → History o log b'

variable {b b' b'' : Bridge} {o : Options} {log : List Value} {v : Value}

theorem closed_of_later (closed : b.Closed) (heap : b.heap.Later b'.heap)
    (markers : b'.marking.markers = b.marking.markers) : b'.Closed := by
  constructor
  · exact heap.closed closed.heap
  · rw [markers]
    intro m registered
    exact heap.knowsScript (closed.scripts m registered)

theorem Aside.of_markers (handles : b'.handles = b.handles) (heap : b.heap.Later b'.heap)
    (markers : b'.marking.markers = b.marking.markers) : b.Aside b' :=
  ⟨handles, heap, fun closed => closed_of_later closed heap markers⟩

@[simp] theorem enqueuePins_handles (b : Bridge) (pins : Option (List ObjectId)) :
    (b.enqueuePins pins).handles = b.handles := by
  cases pins <;> rfl

@[simp] theorem enqueuePins_heap (b : Bridge) (pins : Option (List ObjectId)) :
    (b.enqueuePins pins).heap = b.heap := by
  cases pins <;> rfl

@[simp] theorem enqueuePins_markers (b : Bridge) (pins : Option (List ObjectId)) :
    (b.enqueuePins pins).marking.markers = b.marking.markers := by
  cases pins <;> rfl

/-- An object or a number is exposed through an object on the heap. -/
theorem expose_spec (b : Bridge) (missing : (Handle.ofImmediate? v).isNone) :
    ∃ object heap, (expose v).run b = (some object, { b with heap }) ∧ b.heap.Later heap ∧
      (b.heap.Knows v → object < heap.objects.size) ∧ ∀ id, v = .object id → object = id := by
  cases v with
  | object id =>
    have later := b.heap.share_later (.object id)
    refine ⟨id, (b.heap.share (.object id)).2, rfl, later, ?_, ?_⟩
    · intro known
      exact Heap.knows_object.1 (later.knows known)
    · rintro _ ⟨⟩
      rfl
  | number n =>
    refine ⟨(b.heap.add (.boxed n)).1, (b.heap.add (.boxed n)).2, rfl, Heap.add_later _, ?_, ?_⟩
    · intro _
      simp [Heap.add]
    · intro id same
      cases same
  | nil => simp [Handle.ofImmediate?] at missing
  | true => simp [Handle.ofImmediate?] at missing
  | false => simp [Handle.ofImmediate?] at missing
  | undef => simp [Handle.ofImmediate?] at missing

theorem wrapperFor_immediate {h : Handle} (immediate : Handle.ofImmediate? v = some h)
    (me : ThreadId) (b : Bridge) : (wrapperFor me v).run b = (none, b) := by
  unfold wrapperFor
  rw [immediate]
  rfl

theorem wrapperFor_found (immediate : Handle.ofImmediate? v = none) {w : WrapperId}
    (found : b.handles.lookup b.heap v = some w) (me : ThreadId) :
    (wrapperFor me v).run b = (some w, b) := by
  simp only [wrapperFor, immediate, Option.isSome_none, Bool.false_eq_true, if_false,
    StateT.run_bind, StateT.run_get, pure_bind, found]
  rfl

theorem wrapperFor_missing (immediate : Handle.ofImmediate? v = none)
    (missing : b.handles.lookup b.heap v = none) {object : ObjectId}
    (exposing : (expose v).run b = (some object, b')) (me : ThreadId) :
    (wrapperFor me v).run b =
      (some ((allocate me v object).run b').1, ((allocate me v object).run b').2) := by
  simp only [wrapperFor, immediate, Option.isSome_none, Bool.false_eq_true, if_false,
    StateT.run_bind, StateT.run_get, pure_bind, missing, exposing]
  rfl

theorem wrapperFor_cases (me : ThreadId) (b : Bridge) (v : Value) :
    (b.exposed v = [] ∧ ((wrapperFor me v).run b).2 = b) ∨
      (b.exposed v = [v] ∧ b.handles.lookup b.heap v = none ∧ ∃ object heap,
        b.heap.Later heap ∧ (b.heap.Knows v → object < heap.objects.size) ∧
        (∀ id, v = .object id → object = id) ∧
        ((wrapperFor me v).run b).2 = ((allocate me v object).run { b with heap }).2) := by
  cases immediate : Handle.ofImmediate? v with
  | some h =>
    rw [wrapperFor_immediate immediate]
    exact .inl ⟨by simp [exposed, immediate], rfl⟩
  | none =>
    cases found : b.handles.lookup b.heap v with
    | some w =>
      rw [wrapperFor_found immediate found]
      exact .inl ⟨by simp [exposed, immediate, found], rfl⟩
    | none =>
      have missing : (Handle.ofImmediate? v).isNone := by simp [immediate]
      obtain ⟨object, heap, exposing, later, made, itself⟩ := expose_spec b missing
      rw [wrapperFor_missing immediate found exposing]
      exact .inr ⟨by simp [exposed, immediate, found], rfl, object, heap, later, made, itself, rfl⟩

theorem allocate_interned (me : ThreadId) {object : ObjectId}
    (i : b.handles.Interned b.heap log) (missing : b.handles.lookup b.heap v = none)
    (made : object < b.heap.objects.size) (itself : ∀ id, v = .object id → object = id) :
    ((allocate me v object).run b).2.handles.Interned b.heap (log ++ [v]) := by
  have a := i.arranged.allocate me object
  have entered := i.enter a missing made itself
  show (enqueuePins _ _).handles.Interned _ _
  rw [enqueuePins_handles]
  exact entered

theorem allocate_heap (me : ThreadId) (object : ObjectId) :
    ((allocate me v object).run b).2.heap = b.heap :=
  enqueuePins_heap _ _

theorem allocate_markers (me : ThreadId) (object : ObjectId) :
    ((allocate me v object).run b).2.marking.markers = b.marking.markers :=
  enqueuePins_markers _ _

theorem wrapperFor_interned (me : ThreadId) (i : b.handles.Interned b.heap log)
    (known : b.heap.Knows v) :
    ((wrapperFor me v).run b).2.handles.Interned ((wrapperFor me v).run b).2.heap
      (log ++ b.exposed v) := by
  rcases wrapperFor_cases me b v with ⟨none, same⟩ | ⟨one, missing, object, heap, later, made,
    itself, result⟩
  · rw [none, same, List.append_nil]
    exact i
  · rw [one, result, allocate_heap]
    have i' : b.handles.Interned heap log := i.later later
    have missing' := i.lookup_of_later later missing
    exact allocate_interned me (b := { b with heap }) i' missing' (made known) itself

theorem wrapperFor_later (me : ThreadId) (b : Bridge) (v : Value) :
    b.heap.Later ((wrapperFor me v).run b).2.heap := by
  rcases wrapperFor_cases me b v with ⟨_, same⟩ | ⟨_, _, object, heap, later, _, _, result⟩
  · rw [same]
    exact .refl _
  · rw [result, allocate_heap]
    exact later

theorem wrapperFor_markers (me : ThreadId) (b : Bridge) (v : Value) :
    ((wrapperFor me v).run b).2.marking.markers = b.marking.markers := by
  rcases wrapperFor_cases me b v with ⟨_, same⟩ | ⟨_, _, object, heap, _, _, _, result⟩
  · rw [same]
  · rw [result, allocate_markers]

theorem retire_handles (me : ThreadId) (b : Bridge) :
    (b.retire me).handles = (b.handles.retireThread me).2 := enqueuePins_handles _ _

theorem retire_heap (me : ThreadId) (b : Bridge) : (b.retire me).heap = b.heap :=
  enqueuePins_heap _ _

theorem retire_markers (me : ThreadId) (b : Bridge) :
    (b.retire me).marking.markers = b.marking.markers := enqueuePins_markers _ _

/-- Every step of a history keeps the table and what is known in order. -/
theorem History.interned (history : History o log b) :
    b.handles.Interned b.heap log ∧ b.Closed := by
  induction history with
  | start =>
    refine ⟨HandleTable.interned_ofOptions _ _ _, ?_, ?_⟩
    · exact fun _ _ there => nomatch there
    · exact fun _ registered => nomatch registered
  | @expose log b me v _ known ih =>
    obtain ⟨i, closed⟩ := ih
    refine ⟨wrapperFor_interned me i known, ?_⟩
    exact closed_of_later closed (wrapperFor_later me b v) (wrapperFor_markers me b v)
  | @retire log b me _ ih =>
    obtain ⟨i, closed⟩ := ih
    rw [retire_handles, retire_heap]
    refine ⟨i.retire me, ?_⟩
    exact closed_of_later closed (retire_heap me b ▸ .refl _) (retire_markers me b)
  | release _ ih =>
    obtain ⟨i, closed⟩ := ih
    exact ⟨i.release, closed.heap, closed.scripts⟩
  | aside _ beside ih =>
    obtain ⟨i, closed⟩ := ih
    rw [beside.handles]
    exact ⟨i.later beside.heap, beside.closed closed⟩

end Bridge

end RopeBridge
