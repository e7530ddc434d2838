import RopeBridge.Proofs.Bridge.Identity
import RopeBridge.Proofs.System.Sound

/-! Handles and values through whole runs. The handle of a value that is no box stands for that
value alone, until the object behind it dies. Two handles stand for one value if, and only if, one
of them is that of a box. -/
namespace RopeBridge

namespace Bridge

variable {b b' : Bridge} {h : Handle} {v : Value} {id : ObjectId} {log : List Value}

/-- What a handle unwraps to does not change while the object behind it is alive. -/
theorem Onward.unwrap (onward : b.Onward b') (unwraps : b.unwrap h = .ok v)
    (alive : ∀ id, b.Resolves h id → b'.heap.isAlive id) : b'.unwrap h = .ok v := by
  rcases unwrap_eq_ok_iff.1 unwraps with immediate | ⟨id, resolves, rfl⟩
  · exact unwrap_eq_ok_iff.2 (.inl immediate)
  · have after := alive id resolves
    rw [← onward.read (isAlive_of_resolves resolves) after]
    exact unwrap_of_resolves (onward.resolves resolves after)

/-- A value keeps its handle while the object that its wrapper was made for is alive. -/
theorem Names.kept (names : b.Names v h) (onward : b.Onward b')
    (alive : ∀ w id, b.handles.lookup b.heap v = some w → b.handles.pin? b.heap w = some id →
      b'.heap.isAlive id) : b'.Names v h := by
  cases names with
  | word word => exact .word word
  | @found w wordless found =>
    obtain ⟨entry, live⟩ := HandleTable.lookup_eq_some_iff.1 found
    obtain ⟨id, pinned⟩ := HandleTable.isLive_iff_pin?.1 live
    have still := alive w id found pinned
    have entry' := onward.entry w id pinned still v.rank entry
    have live' := HandleTable.isLive_iff_pin?.2 ⟨id, onward.pin w id pinned still⟩
    have found' := HandleTable.lookup_eq_some_iff.2 ⟨entry', live'⟩
    obtain ⟨x, there, _⟩ := HandleTable.pin?_eq_some_iff.1 pinned
    obtain ⟨x', there', handle, _⟩ := onward.target w x there
    have same : b'.handles.handleOf w = b.handles.handleOf w := by
      simp only [HandleTable.handleOf, there, there', Option.map_some, handle]
    rw [← same]
    exact .found wordless found'

/-- A value keeps its handle while the object behind the handle is alive. -/
theorem Names.later (names : b.Names v h) (f : b.handles.Faithful b.heap log)
    (fits : b.handles.InRegion) (onward : b.Onward b')
    (alive : ∀ id, b.Resolves h id → b'.heap.isAlive id) : b'.Names v h := by
  cases names with
  | word word => exact .word word
  | found wordless found =>
    refine (Names.found wordless found).kept onward fun w id own pinned => alive id ?_
    cases found.symm.trans own
    obtain ⟨at_, _⟩ := f.wrapperAt?_of_pin? fits pinned
    exact ⟨_, at_, pinned⟩

/-- A value that is no box does not become one. -/
theorem Onward.plain (onward : b.Onward b') (plain : b.heap.Plain v) (has : b.heap.Has v)
    (has' : b'.heap.Has v) : b'.heap.Plain v := by
  rintro id rfl
  rw [onward.boxed id (Heap.has_object.1 has) (Heap.has_object.1 has')]
  exact plain id rfl

end Bridge

namespace System

open Bridge

variable {s s' : System} {es : List Event} {o : Options} {v : Value} {h : Handle} {id : ObjectId}

/-- What becomes of a handle that a value has just been given. -/
structure RoundTrips (s : System) (v : Value) (h : Handle) : Prop where
  /-- The value is written in the handle, or an object stands for it. -/
  stands : Handle.ofImmediate? v = some h ∨ ∃ id, s.bridge.Resolves h id ∧ s.bridge.heap.Stands v id
  unwraps : s.bridge.unwrap h = .ok v
  /-- While the object behind the handle stays alive, handle and value lead to each other. -/
  again : ∀ es s', s.Run es s' → (∀ id, s.bridge.Resolves h id → s'.bridge.heap.isAlive id) →
    s'.bridge.unwrap h = .ok v ∧ ∀ me, (wrap me v).run s'.bridge = (h, s'.bridge)
  /-- Meanwhile no other value gets the handle. -/
  distinct : ∀ es s', s.Run es s' → (∀ id, s.bridge.Resolves h id → s'.bridge.heap.isAlive id) →
    ∀ me v', s'.bridge.heap.Has v' → s'.bridge.heap.Plain v' →
      ((wrap me v').run s'.bridge).2.handles.InRegion →
      (((wrap me v').run s'.bridge).1 = h ↔ v' = v)
  /-- Once the object has died, the handle is not found, unless its slot is given out again. -/
  gone : ∀ es s' id, s.Run es s' → s.bridge.Resolves h id → s'.bridge.heap.isAlive id = false →
    (∀ w, s.bridge.handles.wrappers.size ≤ w → s'.bridge.handles.handle? w ≠ some h) →
    s'.bridge.unwrap h = .error (.handleNotFound h.word)

/-- A value that has got a handle in a sound system and that is no box. -/
theorem Sound.roundTrips (sound : s.Sound o) (fits : s.bridge.handles.InRegion)
    (names : s.bridge.Names v h) (plain : s.bridge.heap.Plain v) : s.RoundTrips v h := by
  obtain ⟨log, faithful⟩ := sound.faithful
  have unwraps := names.unwrap faithful fits plain
  have again : ∀ es s', s.Run es s' → (∀ id, s.bridge.Resolves h id → s'.bridge.heap.isAlive id) →
      s'.bridge.unwrap h = .ok v ∧ ∀ me, (wrap me v).run s'.bridge = (h, s'.bridge) := by
    intro es s' run alive
    have onward := run.onward sound
    refine ⟨onward.unwrap unwraps alive, fun me => ?_⟩
    exact wrap_of_names (names.later faithful fits onward alive)
  constructor
  case stands => exact names.resolves faithful fits
  case unwraps => exact unwraps
  case again => exact again
  case distinct =>
    intro es s' run alive me v' has plain' fits'
    constructor
    · intro same
      obtain ⟨log', faithful'⟩ := (run.sound sound).faithful
      have wraps := wrap_wraps me v' s'.bridge
      have touches := wraps.touches has
      obtain ⟨log'', faithful''⟩ := touches.faithful faithful'
      -- The state that the other value has been wrapped in is one of those that follow.
      have further := run.step (.act (.wrap me v' has))
      obtain ⟨still, _⟩ := again _ _ further fun id resolves => touches.alive (alive id resolves)
      have has' : ((wrap me v').run s'.bridge).2.heap.Has v' := fun id object =>
        touches.alive (has id object)
      have plain'' := (touches.onward faithful').plain plain' has has'
      have other := (wraps.names faithful' has).unwrap faithful'' fits' plain''
      rw [same] at other
      exact Except.ok.inj (other.symm.trans still)
    · rintro rfl
      rw [(again es s' run alive).2 me]
  case gone =>
    intro es s' id run resolves dead unused
    apply unwrap_eq_error
    · obtain ⟨i, place⟩ := resolves.block?
      exact Handle.immediate?_of_block? place
    · exact (run.onward sound).unresolved resolves dead unused (run.sound sound).arranged

/-- Wrapping a value that is no box gives a handle that unwraps to the value, in this state and for
as long as the object behind it is alive; until then the value has no other handle, and the handle
is that of no other value. -/
theorem wrap_roundTrips (reachable : Reachable o s) (has : s.bridge.heap.Has v)
    (plain : s.bridge.heap.Plain v) (me : ThreadId)
    (fits : ((wrap me v).run s.bridge).2.handles.InRegion) :
    RoundTrips { s with bridge := ((wrap me v).run s.bridge).2 } v
      ((wrap me v).run s.bridge).1 := by
  have sound := reachable.sound
  obtain ⟨log, faithful⟩ := sound.faithful
  have wraps := wrap_wraps me v s.bridge
  have touches := wraps.touches has
  have move : s.Move _ { s with bridge := ((wrap me v).run s.bridge).2 } := .act (.wrap me v has)
  apply (move.sound sound).roundTrips fits (wraps.names faithful has)
  apply (touches.onward faithful).plain plain has
  exact fun id object => touches.alive (has id object)

/-- An object is made and wrapped. -/
theorem wrap_roundTrips_object :
    let s : System := { bridge := ((newObject (.data "Point" 16)).run (.ofOptions {})).2 }
    RoundTrips { s with bridge := ((wrap 0 (.object 0)).run s.bridge).2 } (.object 0)
      ((wrap 0 (.object 0)).run s.bridge).1 := by
  intro s
  have made : (ofOptions {}).Run [] s :=
    .of_move (.act (.beside (.within (Heap.add_edited rfl fun _ member => nomatch member))))
  have has : s.bridge.heap.Has (.object 0) := Heap.has_object.2 (by decide)
  have plain : s.bridge.heap.Plain (.object 0) := by
    rintro id same
    cases same
    rfl
  exact wrap_roundTrips ⟨_, made⟩ has plain 0 (by decide)

/-- No two handles unwrap to one value, and every value leads back to the handle that it was got
from, if, and only if, no box that is alive has got a handle of its own. -/
theorem distinctHandles_wrapsBack_iff (reachable : Reachable o s)
    (fits : s.bridge.handles.InRegion) : (s.bridge.DistinctHandles ↔ ¬ s.bridge.ExposesBox) ∧
      (s.bridge.WrapsBack ↔ ¬ s.bridge.ExposesBox) := by
  obtain ⟨log, faithful⟩ := reachable.sound.faithful
  exact ⟨distinctHandles_iff faithful fits, wrapsBack_iff faithful fits⟩

/-- A number is wrapped, and then the box that it has got. -/
theorem distinctHandles_wrapsBack_iff_box :
    let boxed := ((wrap 0 (.float 0x401a000000000000)).run (.ofOptions {})).2
    let exposed := ((wrap 0 (.object 0)).run boxed).2
    exposed.ExposesBox ∧ ¬ exposed.DistinctHandles ∧ ¬ exposed.WrapsBack := by
  intro boxed exposed
  have alive : boxed.heap.Has (.object 0) := Heap.has_object.2 (by decide)
  have first : (ofOptions {}).Run _ ⟨boxed, .idle⟩ :=
    .of_move (.act (.wrap 0 (.float 0x401a000000000000) fun _ object => nomatch object))
  have sound : System.Sound {} ⟨boxed, .idle⟩ := Reachable.sound ⟨_, first⟩
  obtain ⟨log, faithful⟩ := sound.faithful
  have exposes : exposed.ExposesBox := (wrap_wraps 0 (.object 0) boxed).exposesBox faithful rfl
  have second : (ofOptions {}).Run _ ⟨exposed, .idle⟩ :=
    first.step (.act (.wrap 0 (.object 0) alive))
  obtain ⟨distinct, back⟩ := distinctHandles_wrapsBack_iff ⟨_, second⟩ (by decide)
  exact ⟨exposes, fun all => distinct.1 all exposes, fun all => back.1 all exposes⟩

end System

end RopeBridge
