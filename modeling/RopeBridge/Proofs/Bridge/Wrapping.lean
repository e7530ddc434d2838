import RopeBridge.Proofs.Bridge.History
import RopeBridge.Proofs.Handle.Faithful

/-! The three ways in which a value gets its handle: the handle is written down, or found, or made
together with a wrapper for an object that stands for the value. -/
namespace RopeBridge.Bridge

/-- What is told of a retired block goes to the end of the queue. -/
def queued (b : Bridge) (told : Option (List ObjectId)) : Marking :=
  { b.marking with queue := b.marking.queue ++ told.toList.map (·.map .object) }

inductive Wraps (b : Bridge) (me : ThreadId) (v : Value) : Handle → Bridge → Prop
  | word {h : Handle} : Handle.ofImmediate? v = some h → b.Wraps me v h b
  | found {w : WrapperId} : Handle.ofImmediate? v = none → b.handles.lookup b.heap v = some w →
    b.Wraps me v (b.handles.handleOf w) b
  | entered {object : ObjectId} {heap : Heap} {w : WrapperId} {told : Option (List ObjectId)}
    {t : HandleTable} : Handle.ofImmediate? v = none → b.handles.lookup b.heap v = none →
    b.heap.Exposes v object heap → b.handles.allocate me object = (w, told, t) →
    b.Wraps me v (t.handleOf w)
      { b with heap, handles := t.enter v w, marking := b.queued told }

variable {b : Bridge} {me : ThreadId} {v : Value}

theorem enqueuePins_eq (b : Bridge) (told : Option (List ObjectId)) :
    b.enqueuePins told = { b with marking := b.queued told } := by
  cases told with
  | none => simp [enqueuePins, queued]
  | some pins => simp [enqueuePins, queued, Marking.enqueue]

theorem retire_eq (me : ThreadId) (b : Bridge) : b.retire me =
    { b with
      handles := (b.handles.retireThread me).2
      marking := b.queued (b.handles.retireThread me).1 } := by
  show enqueuePins { b with handles := (b.handles.retireThread me).2 } _ = _
  rw [enqueuePins_eq]
  rfl

theorem allocate_eq (me : ThreadId) (v : Value) (object : ObjectId) (b : Bridge) :
    ((allocate me v object).run b).2 = { b with
      handles := (b.handles.allocate me object).2.2.enter v (b.handles.allocate me object).1
      marking := b.queued (b.handles.allocate me object).2.1 } := by
  show enqueuePins { b with handles := _ } _ = _
  rw [enqueuePins_eq]
  rfl

theorem expose_exposes (b : Bridge) (wordless : Handle.ofImmediate? v = none) :
    ∃ object heap, (expose v).run b = (some object, { b with heap }) ∧
      b.heap.Exposes v object heap := by
  cases v with
  | object id => exact ⟨id, _, rfl, .object id⟩
  | number n => exact ⟨_, _, rfl, .number n⟩
  | nil => simp [Handle.ofImmediate?] at wordless
  | true => simp [Handle.ofImmediate?] at wordless
  | false => simp [Handle.ofImmediate?] at wordless
  | undef => simp [Handle.ofImmediate?] at wordless

/-- Finding the handle of a value has no effect beside finding its wrapper. -/
theorem wrap_state (me : ThreadId) (v : Value) (b : Bridge) :
    ((wrap me v).run b).2 = ((wrapperFor me v).run b).2 := by
  unfold wrap
  cases immediate : Handle.ofImmediate? v with
  | some h =>
    rw [wrapperFor_immediate immediate]
    rfl
  | none => rfl

theorem wrap_wraps (me : ThreadId) (v : Value) (b : Bridge) :
    b.Wraps me v ((wrap me v).run b).1 ((wrap me v).run b).2 := by
  rw [wrap_state]
  unfold wrap
  cases immediate : Handle.ofImmediate? v with
  | some h =>
    rw [wrapperFor_immediate immediate]
    exact .word immediate
  | none =>
    cases lookup : b.handles.lookup b.heap v with
    | some w =>
      simp only [StateT.run_bind, wrapperFor_found immediate lookup]
      exact .found immediate lookup
    | none =>
      obtain ⟨object, heap, exposing, exposes⟩ := expose_exposes b immediate
      simp only [StateT.run_bind, wrapperFor_missing immediate lookup exposing]
      show b.Wraps me v (((allocate me v object).run { b with heap }).2.handles.handleOf _) _
      rw [allocate_eq]
      exact .entered immediate lookup exposes rfl

end RopeBridge.Bridge
