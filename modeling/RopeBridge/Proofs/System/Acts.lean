import RopeBridge.Proofs.Bridge.Programs
import RopeBridge.Proofs.Bridge.Resolving
import RopeBridge.Proofs.System.Basic

/-! What single acts do. No act lets an object die, and what it lets others hold is alive: it has
been held before, or the thread that acts holds it. -/
namespace RopeBridge

namespace Event

/-- The events of marker runs. -/
def ofRun : Event → Bool
  | started | attached _ | ended => true
  | _ => false

end Event

namespace CallStack

variable {s : CallStack} {v w : Value}

theorem mem_values_push : v ∈ (s.push w).values ↔ v = w ∨ v ∈ s.values := by
  simp [values, push]

theorem mem_values_keepAlive : v ∈ (s.keepAlive w).values ↔ v = w ∨ v ∈ s.values := by
  simp only [values, keepAlive, List.flatMap_cons, List.mem_append, List.mem_cons]
  grind

theorem mem_values_of_pop (member : v ∈ s.pop.values) : v ∈ s.values := by
  unfold pop at member
  split at member
  next => exact member
  next frame below eq =>
    simp only [values, eq, List.flatMap_cons, List.mem_append] at member ⊢
    exact .inr member

end CallStack

namespace Marking

variable {m : Marking} {v w : Value}

/-- A value that is kept goes behind all that is buffered or queued. -/
theorem flatten_keepObject (m : Marking) (v : Value) :
    (m.keepObject v).queue.flatten ++ (m.keepObject v).kept = m.queue.flatten ++ m.kept ++ [v] := by
  unfold keepObject
  dsimp only
  split <;> simp

theorem queue_keepObject (m : Marking) (v : Value) : m.queue <+: (m.keepObject v).queue := by
  unfold keepObject
  dsimp only
  split
  · exact List.prefix_append _ _
  · exact List.prefix_rfl

theorem mem_values : v ∈ m.values ↔ v ∈ m.queue.flatten ++ m.kept ∨
    v ∈ m.markers.flatMap fun x => x.script.flatMap MarkAct.values := by
  unfold values
  simp only [List.mem_append]
  grind

theorem mem_values_keepObject : w ∈ (m.keepObject v).values ↔ w ∈ m.values ∨ w = v := by
  rw [mem_values, mem_values, flatten_keepObject, Bridge.keepObject_markers]
  simp only [List.mem_append, List.mem_singleton]
  grind

end Marking

namespace Bridge

variable {b b' : Bridge} {me other : ThreadId} {id : ObjectId} {es : List Event}

theorem thread_updateThread (me : ThreadId) (f : Thread → Thread) (b : Bridge) (other : ThreadId) :
    (b.updateThread me f).thread other =
      if me = other ∧ other < b.threads.size then f (b.thread other) else b.thread other := by
  unfold thread updateThread
  simp only [Array.getElem?_modify]
  by_cases here : me = other
  · subst here
    by_cases inside : me < b.threads.size <;> simp [inside]
  · simp [here]

theorem mem_roots : id ∈ b.roots ↔ (∃ entry ∈ b.symbols.entries, entry.2 = id) ∨
    id ∈ b.handles.pins ∨ .object id ∈ b.clients.values ∨ .object id ∈ b.running ∨
    .object id ∈ b.marking.values ∨ ∃ me, .object id ∈ (b.thread me).stack.values := by
  have frames : (∃ t ∈ b.threads, .object id ∈ t.stack.values) ↔
      ∃ me, .object id ∈ (b.thread me).stack.values := by
    constructor
    · rintro ⟨t, among, member⟩
      obtain ⟨me, there⟩ := Array.mem_iff_getElem?.1 among
      refine ⟨me, ?_⟩
      unfold thread
      rwa [there]
    · rintro ⟨me, member⟩
      unfold thread at member
      cases there : b.threads[me]? with
      | none => simp [there, CallStack.values] at member
      | some t => exact ⟨t, Array.mem_of_getElem? there, by simpa [there] using member⟩
  unfold roots
  simp only [List.mem_append, List.mem_map, Value.mem_objects, List.mem_flatMap,
    Array.mem_toList_iff, frames, or_assoc]

/-- What is held in the next bridge was held before, or is alive. -/
structure Rooted (b b' : Bridge) : Prop where
  symbols : ∀ entry ∈ b'.symbols.entries, entry ∈ b.symbols.entries ∨ b'.heap.isAlive entry.2
  pins : ∀ id ∈ b'.handles.pins, id ∈ b.handles.pins ∨ b'.heap.isAlive id
  clients : ∀ v ∈ b'.clients.values, v ∈ b.clients.values ∨ b'.heap.Has v
  running : ∀ v ∈ b'.running, v ∈ b.running ∨ b'.heap.Has v
  marking : ∀ v ∈ b'.marking.values, v ∈ b.marking.values ∨ b'.heap.Has v
  frames : ∀ me, ∀ v ∈ (b'.thread me).stack.values,
    v ∈ (b.thread me).stack.values ∨ b'.heap.Has v

/-- Nothing is held from outside the heap that was not. -/
theorem Rooted.within (b : Bridge) (heap : Heap) : b.Rooted { b with heap } where
  symbols := fun _ => .inl
  pins := fun _ => .inl
  clients := fun _ => .inl
  running := fun _ => .inl
  marking := fun _ => .inl
  frames := fun _ _ => .inl

theorem Rooted.alive (rooted : b.Rooted b')
    (grown : ∀ id, b.heap.isAlive id → b'.heap.isAlive id)
    (roots : ∀ id ∈ b.roots, b.heap.isAlive id) : ∀ id ∈ b'.roots, b'.heap.isAlive id := by
  intro id member
  rcases mem_roots.1 member with ⟨entry, symbol, rfl⟩ | pin | client | running | marked |
    ⟨me, frame⟩
  · rcases rooted.symbols entry symbol with old | new
    · exact grown _ (roots _ (mem_roots.2 (.inl ⟨entry, old, rfl⟩)))
    · exact new
  · rcases rooted.pins id pin with old | new
    · exact grown _ (roots _ (mem_roots.2 (.inr (.inl old))))
    · exact new
  · rcases rooted.clients _ client with old | new
    · exact grown _ (roots _ (mem_roots.2 (.inr (.inr (.inl old)))))
    · exact Heap.has_object.1 new
  · rcases rooted.running _ running with old | new
    · exact grown _ (roots _ (mem_roots.2 (.inr (.inr (.inr (.inl old))))))
    · exact Heap.has_object.1 new
  · rcases rooted.marking _ marked with old | new
    · exact grown _ (roots _ (mem_roots.2 (.inr (.inr (.inr (.inr (.inl old)))))))
    · exact Heap.has_object.1 new
  · rcases rooted.frames me _ frame with old | new
    · exact grown _ (roots _ (mem_roots.2 (.inr (.inr (.inr (.inr (.inr ⟨me, old⟩)))))))
    · exact Heap.has_object.1 new

theorem Act.touches (act : b.Act es b') : b.Touches b' := by
  cases act with
  | beside beside => exact .edited beside.heap beside.handles
  | wrap me v has => exact (wrap_wraps me v b).touches has
  | retire me => exact .retired (retire_heap me b) (retire_handles me b)
  | release => exact .released rfl rfl
  | setMarked owner vs has => exact .marked has rfl rfl
  | addMarker m _ => exact .edited (.refl _) rfl
  | enqueue vs _ => exact .edited (.refl _) rfl
  | keepObject v _ => exact .edited (.refl _) rfl
  | push me block _ => exact .edited (.refl _) rfl
  | keepInFrame me v _ => exact .edited (.refl _) rfl
  | pop me => exact .edited (.refl _) rfl
  | clear me => exact .edited (.refl _) rfl

theorem mem_values_queued {told : Option (List ObjectId)} {v : Value}
    (member : v ∈ (b.queued told).values) :
    v ∈ b.marking.values ∨ ∃ id ∈ told.getD [], v = .object id := by
  cases told with
  | none => exact .inl (by simpa [Marking.values, queued] using member)
  | some pins =>
    simp only [Marking.values, queued, Option.toList_some, List.map_cons, List.map_nil,
      List.flatten_append, List.flatten_cons, List.flatten_nil, List.append_nil, List.mem_append,
      List.mem_map, Option.getD_some] at member ⊢
    grind

/-- What is told of a retired block was held by it. -/
theorem has_of_queued {told : Option (List ObjectId)}
    (pins : ∀ id ∈ told.getD [], id ∈ b.handles.pins)
    (roots : ∀ id ∈ b.roots, b.heap.isAlive id) :
    ∀ v ∈ (b.queued told).values, v ∈ b.marking.values ∨ b.heap.Has v := by
  intro v member
  rcases mem_values_queued member with old | ⟨id, tells, rfl⟩
  · exact .inl old
  · exact .inr (Heap.has_object.2 (roots id (mem_roots.2 (.inr (.inl (pins id tells))))))

theorem Wraps.rooted {v : Value} {h : Handle} (wraps : b.Wraps me v h b') (has : b.heap.Has v)
    (arranged : b.handles.Arranged) (roots : ∀ id ∈ b.roots, b.heap.isAlive id) :
    b.Rooted b' := by
  cases wraps with
  | word _ => exact .within b b.heap
  | found _ _ => exact .within b b.heap
  | @entered object heap w told t _ _ exposes allocates =>
    have g := arranged.allocate_gives me object
    rw [allocates] at g
    refine { Rooted.within b heap with
      pins := fun id member => ?_, marking := fun v member => ?_ }
    · rcases g.passes.pins id member with old | new
      · exact .inl old
      · rw [List.mem_singleton.1 new]
        exact .inr (exposes.alive has)
    · rcases has_of_queued g.passes.pinned roots v member with old | new
      · exact .inl old
      · exact .inr (new.grown exposes.grown)

theorem retire_rooted (me : ThreadId) (arranged : b.handles.Arranged)
    (roots : ∀ id ∈ b.roots, b.heap.isAlive id) : b.Rooted (b.retire me) := by
  have passes := arranged.retireThread_passes me
  rw [retire_eq]
  refine { Rooted.within b b.heap with
    pins := fun id member => ?_, marking := has_of_queued passes.pinned roots }
  exact .inl ((passes.pins id member).resolve_right List.not_mem_nil)

/-- A frame that changes holds nothing that is not alive. -/
theorem updateThread_rooted (me : ThreadId) {f : Thread → Thread}
    (fine : ∀ t, ∀ v ∈ (f t).stack.values, v ∈ t.stack.values ∨ b.heap.Has v) :
    b.Rooted (b.updateThread me f) := by
  refine { Rooted.within b b.heap with frames := fun other v member => ?_ }
  rw [thread_updateThread] at member
  split at member
  · exact fine _ v member
  · exact .inl member

/-- What a thread lets others hold is alive. -/
theorem Act.rooted (act : b.Act es b') (arranged : b.handles.Arranged)
    (roots : ∀ id ∈ b.roots, b.heap.isAlive id) : b.Rooted b' := by
  cases act with
  | beside beside =>
    constructor
    case symbols => exact beside.symbols
    case pins => rw [beside.handles]; exact fun _ => .inl
    case clients => exact beside.clients
    case running => rw [beside.running]; exact fun _ => .inl
    case marking => rw [beside.marking]; exact fun _ => .inl
    case frames => intro me; rw [beside.frames]; exact fun _ => .inl
  | wrap me v has => exact (wrap_wraps me v b).rooted has arranged roots
  | retire me => exact retire_rooted me arranged roots
  | release =>
    have passes := arranged.release_passes b.heap
    refine { Rooted.within b b.heap with pins := fun id member => ?_ }
    exact .inl ((passes.pins id member).resolve_right List.not_mem_nil)
  | setMarked owner vs _ => exact .within b _
  | addMarker m has =>
    refine { Rooted.within b b.heap with marking := fun v member => ?_ }
    simp only [Marking.values, Marking.addMarker, List.flatMap_append, List.flatMap_cons,
      List.flatMap_nil, List.append_nil, List.mem_append] at member ⊢
    grind
  | enqueue vs has =>
    refine { Rooted.within b b.heap with marking := fun v member => ?_ }
    simp only [Marking.values, Marking.enqueue, List.flatten_append, List.flatten_cons,
      List.flatten_nil, List.append_nil, List.mem_append] at member ⊢
    grind
  | keepObject v has =>
    refine { Rooted.within b b.heap with marking := fun w member => ?_ }
    rcases Marking.mem_values_keepObject.1 member with old | rfl
    · exact .inl old
    · exact .inr has
  | push me block has =>
    apply updateThread_rooted me
    intro t v member
    rcases CallStack.mem_values_push.1 member with rfl | old
    · exact .inr has
    · exact .inl old
  | keepInFrame me v has =>
    apply updateThread_rooted me
    intro t w member
    rcases CallStack.mem_values_keepAlive.1 member with rfl | old
    · exact .inr has
    · exact .inl old
  | pop me =>
    apply updateThread_rooted me
    exact fun t v member => .inl (CallStack.mem_values_of_pop member)
  | clear me =>
    apply updateThread_rooted me
    intro t v member
    have nil : v = .nil := by simpa [CallStack.values] using member
    rw [nil]
    exact .inr Heap.has_nil

/-- What is set once and for all, the values held by a marker run, and room in the buffer. -/
structure Steady (b b' : Bridge) : Prop where
  running : b'.running = b.running
  cache : b'.marking.cache = b.marking.cache
  keepAlive : b'.handles.keepAlive = b.handles.keepAlive
  kept : b.marking.kept.length < b.marking.cache → b'.marking.kept.length < b'.marking.cache

theorem Steady.refl (b : Bridge) : b.Steady b := ⟨rfl, rfl, rfl, id⟩

theorem Wraps.steady {v : Value} {h : Handle} (wraps : b.Wraps me v h b')
    (arranged : b.handles.Arranged) : b.Steady b' := by
  cases wraps with
  | word _ => exact .refl b
  | found _ _ => exact .refl b
  | @entered object heap w told t _ _ exposes allocates =>
    have g := arranged.allocate_gives me object
    rw [allocates] at g
    exact { Steady.refl b with keepAlive := g.passes.keepAlive }

theorem keepObject_steady (v : Value) :
    b.Steady { b with marking := b.marking.keepObject v } := by
  constructor
  case running => rfl
  case keepAlive => rfl
  case cache =>
    show (b.marking.keepObject v).cache = _
    unfold Marking.keepObject
    dsimp only
    split <;> rfl
  case kept =>
    intro room
    show (b.marking.keepObject v).kept.length < (b.marking.keepObject v).cache
    unfold Marking.keepObject
    dsimp only
    split
    next => exact Nat.zero_lt_of_lt room
    next full => exact Nat.lt_of_not_le full

theorem Act.steady (act : b.Act es b') (arranged : b.handles.Arranged) : b.Steady b' := by
  cases act with
  | beside beside =>
    constructor
    case running => exact beside.running
    case cache => rw [beside.marking]
    case keepAlive => rw [beside.handles]
    case kept => rw [beside.marking]; exact id
  | wrap me v has => exact (wrap_wraps me v b).steady arranged
  | retire me =>
    rw [retire_eq]
    exact { Steady.refl b with keepAlive := HandleTable.retireThread_keepAlive }
  | release => exact { Steady.refl b with }
  | setMarked owner vs _ => exact { Steady.refl b with }
  | addMarker m _ => exact { Steady.refl b with }
  | enqueue vs _ => exact { Steady.refl b with }
  | keepObject v _ => exact keepObject_steady v
  | push me block _ => exact { Steady.refl b with }
  | keepInFrame me v _ => exact { Steady.refl b with }
  | pop me => exact { Steady.refl b with }
  | clear me => exact { Steady.refl b with }

/-- No act is a part of a marker run. -/
theorem Act.ofRun (act : b.Act es b') {e : Event} (member : e ∈ es) : e.ofRun = false := by
  cases act with
  | wrap me v _ =>
    obtain ⟨i, _, rfl⟩ := List.mem_map.1 member
    rfl
  | retire me =>
    obtain ⟨i, _, rfl⟩ := List.mem_map.1 member
    rfl
  | clear me =>
    obtain ⟨d, _, rfl⟩ := List.mem_map.1 member
    rfl
  | setMarked owner vs _ =>
    cases List.mem_singleton.1 member
    rfl
  | keepObject v _ =>
    unfold Marking.flushes at member
    split at member
    · cases List.mem_singleton.1 member
      rfl
    · exact nomatch member
  | pop me =>
    unfold pops at member
    split at member
    · exact nomatch member
    · cases List.mem_singleton.1 member
      rfl
  | beside _ => exact nomatch member
  | release => exact nomatch member
  | addMarker m _ => exact nomatch member
  | enqueue vs _ => exact nomatch member
  | push me block _ => exact nomatch member
  | keepInFrame me v _ => exact nomatch member

/-- A handle that is marked resolves, or nothing changes. -/
theorem mark_cases (s : MarkSession) (h : Handle) (b : Bridge) :
    mark s h b = s ∨ ∃ id, b.Resolves h id ∧
      mark s h b = { s with marks := s.marks ++ [.object id], seen := h :: s.seen } := by
  unfold mark MarkSession.add
  split
  next => exact .inl rfl
  next =>
    split
    next => exact .inl rfl
    next id found =>
      obtain ⟨w, at_, pinned⟩ := Option.bind_eq_some_iff.1 found
      exact .inr ⟨id, ⟨w, at_, pinned⟩, rfl⟩

theorem previous_mark (s : MarkSession) (h : Handle) (b : Bridge) :
    (mark s h b).previous = s.previous := by
  rcases mark_cases s h b with same | ⟨id, _, new⟩
  · rw [same]
  · rw [new]

/-- A handle that resolves has been seen once it has been marked. -/
theorem mem_seen_mark {h : Handle} (resolves : b.Resolves h id) (s : MarkSession) :
    h ∈ (mark s h b).seen := by
  obtain ⟨i, place⟩ := resolves.block?
  obtain ⟨w, at_, pinned⟩ := resolves
  unfold mark MarkSession.add
  rw [Handle.isObject_of_block? place, at_, Option.bind_some, pinned]
  cases seen : s.seen.contains h with
  | true => simpa using seen
  | false => simp

end Bridge

end RopeBridge
