import RopeBridge.Proofs.Handle.Permanent
import RopeBridge.Proofs.System.Operations
import RopeBridge.Proofs.System.RoundTrip

/-! A system that keeps its handles alive. The objects behind all handles that have ever been given
out are held by blocks, so they do not die, and what a handle unwraps to never changes. -/
namespace RopeBridge

/-- What the handle of a value unwraps to: the value, or the number in a box. -/
def Heap.readBack (h : Heap) : Value → Value
  | .object id => h.read id
  | v => v

theorem Heap.readBack_of_plain {h : Heap} {v : Value} (plain : h.Plain v) : h.readBack v = v := by
  cases v with
  | object id => exact read_of_stands (.inl rfl) plain
  | _ => rfl

/-- What stands for a value reads back as the value does. -/
theorem Heap.Stands.read {h : Heap} {v : Value} {id : ObjectId} (stands : h.Stands v id) :
    h.read id = h.readBack v := by
  rcases stands with rfl | ⟨n, rfl, boxed⟩
  · rfl
  · exact read_of_boxed? boxed

namespace Bridge

variable {b b' : Bridge} {v : Value} {log : List Value}

theorem Onward.readBack (onward : b.Onward b') (has : b.heap.Has v) (has' : b'.heap.Has v) :
    b'.heap.readBack v = b.heap.readBack v := by
  cases v with
  | object id => exact onward.read (Heap.has_object.1 has) (Heap.has_object.1 has')
  | _ => rfl

/-- Where the blocks let go of nothing, what touches handles keeps them all. -/
theorem Touches.permanent (touches : b.Touches b') (f : b.handles.Faithful b.heap log)
    (keep : b.handles.keepAlive = true) (roots : ∀ id ∈ b.roots, b.heap.isAlive id)
    (permanent : b.handles.Permanent) : b'.handles.Permanent := by
  cases touches with
  | edited _ handles => rwa [handles]
  | marked _ _ handles => rwa [handles]
  | @entered me v object w told t _ _ _ _ allocates handles =>
    have entered := permanent.enter f.arranged keep me object v w
    rw [allocates] at entered
    rwa [handles]
  | @retired me _ handles =>
    rw [handles]
    exact permanent.retire f.arranged keep me
  | released _ handles =>
    rw [handles]
    exact permanent.release keep fun id pin => roots id (mem_roots.2 (.inr (.inl pin)))

end Bridge

namespace System

open Bridge

variable {s s' : System} {es : List Event} {o : Options} {v : Value} {h : Handle} {id : ObjectId}

theorem Move.permanent (move : s.Move es s') (sound : s.Sound o) (keep : o.keepHandlesAlive = true)
    (permanent : s.bridge.handles.Permanent) : s'.bridge.handles.Permanent := by
  obtain ⟨log, faithful⟩ := sound.faithful
  rcases move.touches sound with touches | rfl
  · exact touches.permanent faithful (sound.keepAlive.trans keep) sound.bridge_roots permanent
  · exact permanent

theorem Run.permanent (run : s.Run es s') (sound : s.Sound o) (keep : o.keepHandlesAlive = true)
    (permanent : s.bridge.handles.Permanent) : s'.bridge.handles.Permanent := by
  induction run with
  | refl => exact permanent
  | step before move ih => exact move.permanent (before.sound sound) keep ih

theorem Reachable.permanent (reachable : Reachable o s) (keep : o.keepHandlesAlive = true) :
    s.bridge.handles.Permanent := by
  obtain ⟨es, run⟩ := reachable
  exact run.permanent (sound_ofOptions o) keep (HandleTable.permanent_ofOptions _ _)

theorem Reachable.pins_alive (reachable : Reachable o s) :
    ∀ id ∈ s.bridge.handles.pins, s.bridge.heap.isAlive id :=
  fun id pin => reachable.sound.bridge_roots id (Bridge.mem_roots.2 (.inr (.inl pin)))

theorem Reachable.run (reachable : Reachable o s) (run : s.Run es s') : Reachable o s' := by
  obtain ⟨_, before⟩ := reachable
  exact ⟨_, before.trans run⟩

/-- The object behind a handle that resolves is alive in all later states. -/
theorem Run.alive_of_resolves (run : s.Run es s') (reachable : Reachable o s)
    (keep : o.keepHandlesAlive = true) (resolves : s.bridge.Resolves h id) :
    s'.bridge.heap.isAlive id := by
  obtain ⟨w, _, pinned⟩ := resolves
  obtain ⟨x, there, _, _, target⟩ := HandleTable.pin?_eq_some_iff.1 pinned
  obtain ⟨x', there', _, same⟩ := (run.onward reachable.sound).target w x there
  have later := reachable.run run
  rw [← target, ← same]
  exact later.pins_alive _ ((later.permanent keep).held w x' there')

theorem Reachable.releaseUnreachable_eq_zero (reachable : Reachable o s)
    (keep : o.keepHandlesAlive = true) : (releaseUnreachable.run s.bridge).1 = 0 := by
  have released := (reachable.permanent keep).releaseUnreachable_eq
    (reachable.sound.keepAlive.trans keep) reachable.pins_alive
  exact congrArg Prod.fst released

/-- The handle of a value unwraps in all later states to what the value reads back as. -/
theorem Reachable.unwrap_wrap (reachable : Reachable o s) (keep : o.keepHandlesAlive = true)
    (me : ThreadId) (has : s.bridge.heap.Has v)
    (fits : ((wrap me v).run s.bridge).2.handles.InRegion)
    (run : Run { s with bridge := ((wrap me v).run s.bridge).2 } es s') :
    s'.bridge.unwrap ((wrap me v).run s.bridge).1 = .ok (s.bridge.heap.readBack v) := by
  obtain ⟨log, faithful⟩ := reachable.sound.faithful
  have wraps := wrap_wraps me v s.bridge
  have touches := wraps.touches has
  obtain ⟨log', faithful'⟩ := touches.faithful faithful
  rcases (wraps.names faithful has).resolves faithful' fits with word | ⟨id, resolves, stands⟩
  · have plain : s.bridge.heap.Plain v := by
      rintro id rfl
      cases word
    rw [Heap.readBack_of_plain plain]
    exact unwrap_eq_ok_iff.2 (.inl (Handle.immediate?_of_ofImmediate? word))
  · have reachable' := reachable.run (.of_move (.act (.wrap me v has)))
    have alive := run.alive_of_resolves reachable' keep resolves
    have later := run.onward reachable'.sound
    rw [unwrap_of_resolves (later.resolves resolves alive),
      later.read (isAlive_of_resolves resolves) alive, stands.read,
      (touches.onward faithful).readBack has fun id object => touches.alive (has id object)]

/-- What is kept for good. -/
structure KeepsHandles (s : System) : Prop where
  /-- The handle that a value is given here unwraps in all later states to what it was given for. -/
  unwraps : ∀ me v, s.bridge.heap.Has v → ((wrap me v).run s.bridge).2.handles.InRegion →
    ∀ es s', Run { s with bridge := ((wrap me v).run s.bridge).2 } es s' →
      s'.bridge.unwrap ((wrap me v).run s.bridge).1 = .ok (s.bridge.heap.readBack v)
  /-- No handle is found to be dead, by itself or in a collection, -/
  released : (releaseUnreachable.run s.bridge).1 = 0
  collected : s.progress = .idle → ∀ me, ((collect me).run s.bridge).1.handlesReleased = 0
  /-- and no block is given up. -/
  free : s.bridge.handles.freeBlocks = []

/-- Where handles are kept alive, they stand for their values for ever. -/
theorem keepsHandles (reachable : Reachable o s) (keep : o.keepHandlesAlive = true) :
    s.KeepsHandles := by
  constructor
  case unwraps => exact fun me v has fits es s' run => reachable.unwrap_wrap keep me has fits run
  case released => exact reachable.releaseUnreachable_eq_zero keep
  case collected =>
    intro idle me
    obtain ⟨es, s', run, bridge, _⟩ := runMarkers_executes reachable.sound idle me
    have none := (reachable.run run).releaseUnreachable_eq_zero keep
    rw [bridge] at none
    exact none
  case free => exact (reachable.permanent keep).free

/-- An object is wrapped, its thread retires its block and ends, and objects may die. -/
theorem keepsHandles_retired :
    let s : System :=
      { bridge := ((newObject (.data "Point" 16)).run (.ofOptions { keepHandlesAlive := true })).2 }
    let wrapped := ((wrap 0 (.object 0)).run s.bridge).2
    let ended : System := { bridge := (wrapped.retire 0).updateThread 0 fun _ => {} }
    let s' : System := { ended with bridge.heap := ended.bridge.heap.settle ended.roots }
    s.KeepsHandles ∧ s'.bridge.unwrap ((wrap 0 (.object 0)).run s.bridge).1 = .ok (.object 0) := by
  intro s wrapped ended s'
  have made : (ofOptions { keepHandlesAlive := true }).Run _ s :=
    .of_move (.act (.beside (newObject_beside rfl fun _ member => nomatch member)))
  have has : s.bridge.heap.Has (.object 0) := Heap.has_object.2 (by decide)
  have back : s.bridge.heap.readBack (.object 0) = .object 0 := rfl
  have keeps := keepsHandles ⟨_, made⟩ rfl
  have run : Run { bridge := wrapped } _ s' :=
    ((Run.of_move (.act (.retire 0))).step (.act (.clear 0))).step .settle
  have unwraps := keeps.unwraps 0 (.object 0) has (by decide) _ s' run
  rw [back] at unwraps
  exact ⟨keeps, unwraps⟩

/-- The handle of a box does not unwrap to the box. -/
theorem not_unwrap_box : ¬ ∀ o s, o.keepHandlesAlive = true → Reachable o s →
    ∀ me v, s.bridge.heap.Has v → ((wrap me v).run s.bridge).2.handles.InRegion →
      ((wrap me v).run s.bridge).2.unwrap ((wrap me v).run s.bridge).1 = .ok v := by
  intro all
  let o : Options := { keepHandlesAlive := true }
  let boxed : System := { bridge := ((wrap 0 (.float 0x401a000000000000)).run (.ofOptions o)).2 }
  have first : Reachable o boxed :=
    ⟨_, .of_move (.act (.wrap 0 (.float 0x401a000000000000) fun _ object => nomatch object))⟩
  have has : boxed.bridge.heap.Has (.object 0) := Heap.has_object.2 (by decide)
  have back : boxed.bridge.heap.readBack (.object 0) = .float 0x401a000000000000 := rfl
  have itself := all o boxed rfl first 0 (.object 0) has (by decide)
  have number := first.unwrap_wrap rfl 0 has (by decide) .refl
  rw [itself, back] at number
  cases number

end System

end RopeBridge
