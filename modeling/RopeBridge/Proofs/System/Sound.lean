import RopeBridge.Proofs.System.Acts

/-! What holds of every system that comes about from a new bridge. Everything that is held is alive,
handles are true to the values they were made for, and what the marker at work has marked is what
the handles that it has seen resolve to. -/
namespace RopeBridge

/-- What a marker has seen is among what it has marked. -/
def Turn.Sound (turn : Turn) (b : Bridge) : Prop :=
  ∀ h ∈ turn.session.seen, ∃ id, .object id ∈ turn.session.marks ∧ b.Resolves h id

theorem Turn.Sound.ask {turn : Turn} {b : Bridge} (sound : turn.Sound b) (h : Handle) :
    (turn.ask b h).Sound b := by
  rcases Bridge.mark_cases turn.session h b with same | ⟨id, resolves, new⟩
  · unfold Turn.Sound Turn.ask
    rw [same]
    exact sound
  · intro h' seen
    simp only [Turn.ask, new] at seen ⊢
    rcases List.mem_cons.1 seen with rfl | before
    · exact ⟨id, List.mem_append_right _ List.mem_cons_self, resolves⟩
    · obtain ⟨id', marked, resolves'⟩ := sound h' before
      exact ⟨id', List.mem_append_left _ marked, resolves'⟩

namespace System

open Bridge

structure Sound (o : Options) (s : System) : Prop where
  whole : s.bridge.heap.Whole
  roots : ∀ id ∈ s.roots, s.bridge.heap.isAlive id
  faithful : ∃ log, s.bridge.handles.Faithful s.bridge.heap log
  turn : ∀ me waiting turn, s.progress = .marking me waiting (some turn) → turn.Sound s.bridge
  idle : s.progress = .idle → s.bridge.running = []
  kept : s.bridge.marking.kept.length < s.bridge.marking.cache
  cache : s.bridge.marking.cache = max o.markingCache 1
  keepAlive : s.bridge.handles.keepAlive = o.keepHandlesAlive

variable {s s' : System} {es : List Event} {o : Options} {id : ObjectId} {v : Value}

theorem mem_roots : id ∈ s.roots ↔ id ∈ s.bridge.roots ∨ .object id ∈ s.progress.held := by
  unfold roots
  rw [List.mem_append, Value.mem_objects]

theorem Sound.arranged (sound : s.Sound o) : s.bridge.handles.Arranged := by
  obtain ⟨log, faithful⟩ := sound.faithful
  exact faithful.arranged

theorem Sound.bridge_roots (sound : s.Sound o) : ∀ id ∈ s.bridge.roots, s.bridge.heap.isAlive id :=
  fun id member => sound.roots id (mem_roots.2 (.inl member))

theorem Sound.has_held (sound : s.Sound o) : ∀ v ∈ s.progress.held, s.bridge.heap.Has v := by
  intro v member id object
  cases Value.object?_eq_some_iff.1 object
  exact sound.roots id (mem_roots.2 (.inr member))

theorem Sound.has_marking (sound : s.Sound o) :
    ∀ v ∈ s.bridge.marking.values, s.bridge.heap.Has v := by
  intro v member id object
  cases Value.object?_eq_some_iff.1 object
  exact sound.bridge_roots id (Bridge.mem_roots.2 (.inr (.inr (.inr (.inr (.inl member))))))

theorem Sound.attach_touches (sound : s.Sound o) {me : ThreadId} {waiting : List Marker}
    {turn : Turn} (working : s.progress = .marking me waiting (some turn)) :
    s.bridge.Touches (s.bridge.attach turn) := by
  refine .marked (fun v member => ?_) rfl rfl
  apply sound.has_held
  rw [working]
  exact List.mem_append_right _ member

/-- Only settling lets objects die. -/
theorem Move.touches (move : s.Move es s') (sound : s.Sound o) : s.bridge.Touches s'.bridge ∨
    s' = { s with bridge.heap := s.bridge.heap.settle s.roots } := by
  cases move with
  | act act => exact .inl act.touches
  | settle => exact .inr rfl
  | start me _ => exact .inl (.edited (.refl _) rfl)
  | drop kept m rest _ _ _ => exact .inl (.edited (.refl _) rfl)
  | enter _ => exact .inl (.edited (.refl _) rfl)
  | begin _ => exact .inl (.edited (.refl _) rfl)
  | mark h _ => exact .inl (.edited (.refl _) rfl)
  | finish working => exact .inl (sound.attach_touches working)
  | fail _ => exact .inl (.edited (.refl _) rfl)
  | leave _ => exact .inl (.edited (.refl _) rfl)

theorem Move.onward (move : s.Move es s') (sound : s.Sound o) : s.bridge.Onward s'.bridge := by
  obtain ⟨log, faithful⟩ := sound.faithful
  rcases move.touches sound with touches | rfl
  · exact touches.onward faithful
  · exact onward_of_settle rfl rfl

theorem Move.faithful (move : s.Move es s') (sound : s.Sound o) :
    ∃ log, s'.bridge.handles.Faithful s'.bridge.heap log := by
  obtain ⟨log, faithful⟩ := sound.faithful
  rcases move.touches sound with touches | rfl
  · exact touches.faithful faithful
  · exact ⟨log, faithful_of_settle rfl rfl faithful⟩

theorem Move.whole (move : s.Move es s') (sound : s.Sound o) : s'.bridge.heap.Whole := by
  rcases move.touches sound with touches | rfl
  · exact touches.whole sound.whole
  · exact Heap.settle_whole _ sound.whole

theorem Sound.roots_of_rooted (sound : s.Sound o) {b : Bridge} (rooted : s.bridge.Rooted b)
    (touches : s.bridge.Touches b) : ∀ id ∈ b.roots, b.heap.isAlive id :=
  rooted.alive (fun _ => touches.alive) sound.bridge_roots

theorem Sound.start_rooted (sound : s.Sound o) : s.bridge.Rooted s.bridge.takeQueue := by
  refine { Rooted.within s.bridge s.bridge.heap with
    running := fun v member => ?_, marking := fun v member => ?_ }
  · rcases List.mem_append.1 member with queued | old
    · exact .inr (sound.has_marking v (Marking.mem_values.2 (.inl (List.mem_append_left _ queued))))
    · exact .inl old
  · left
    rw [Marking.mem_values] at member ⊢
    simp only [takeQueue, List.flatten_nil, List.nil_append] at member
    exact member.imp (List.mem_append_right _) id

theorem drop_rooted {b : Bridge} {kept rest : List Marker} {m : Marker}
    (markers : b.marking.markers = kept ++ m :: rest) :
    b.Rooted { b with marking.markers := kept ++ rest } := by
  refine { Rooted.within b b.heap with marking := fun v member => .inl ?_ }
  rw [Marking.mem_values] at member ⊢
  simp only [markers, List.flatMap_append, List.flatMap_cons, List.mem_append] at member ⊢
  grind

/-- The markers that are about to run have owners that are alive. -/
theorem enterRun_rooted (me : ThreadId) (b : Bridge) :
    b.Rooted (b.enterRun me b.liveMarkers) := by
  refine { Rooted.within b b.heap with
    running := fun v member => ?_, frames := fun other v member => ?_ }
  · rcases List.mem_append.1 member with owner | old
    · obtain ⟨m, live, rfl⟩ := List.mem_map.1 owner
      exact .inr (Heap.has_object.2 (List.mem_filter.1 live).2)
    · exact .inl old
  · unfold enterRun updateStack at member
    rw [thread_updateThread] at member
    split at member
    · rcases CallStack.mem_values_push.1 member with rfl | old
      · exact .inl (by simp [CallStack.values, CallStack.block, thread])
      · exact .inl old
    · exact .inl member

theorem leaveRun_rooted (me : ThreadId) (b : Bridge) : b.Rooted (b.leaveRun me []) := by
  refine { Rooted.within b b.heap with
    running := fun v member => (nomatch member), frames := fun other v member => .inl ?_ }
  unfold leaveRun updateStack at member
  change v ∈ (Bridge.thread (b.updateThread _ _) other).stack.values at member
  rw [thread_updateThread] at member
  split at member
  · exact CallStack.mem_values_of_pop member
  · exact member

theorem has_marked {b : Bridge} (whole : b.heap.Whole) (owner : ObjectId) :
    ∀ v ∈ b.heap.marked owner, b.heap.Has v := by
  intro v member
  unfold Heap.marked at member
  cases there : b.heap.get? owner with
  | none => simp [there] at member
  | some object =>
    rw [there] at member
    exact whole owner object there v (List.mem_append_right _ member)

/-- What others hold from now on, and what the marker at work holds, is alive. -/
theorem Move.rooted (move : s.Move es s') (sound : s.Sound o) :
    (∀ id ∈ s'.bridge.roots, s'.bridge.heap.isAlive id) ∧
      ∀ v ∈ s'.progress.held, s'.bridge.heap.Has v := by
  have none : ∀ v ∈ ([] : List Value), s'.bridge.heap.Has v := fun _ member => nomatch member
  cases move with
  | act act =>
    refine ⟨sound.roots_of_rooted (act.rooted sound.arranged sound.bridge_roots) act.touches, ?_⟩
    intro v member id object
    exact act.touches.alive (sound.has_held v member id object)
  | settle =>
    constructor
    · intro id member
      exact Heap.isAlive_settle_of_root (mem_roots.2 (.inl member)) (sound.bridge_roots id member)
    · intro v member id object
      apply Heap.isAlive_settle_of_root _ (sound.has_held v member id object)
      cases Value.object?_eq_some_iff.1 object
      exact mem_roots.2 (.inr member)
  | start me _ =>
    exact ⟨sound.roots_of_rooted sound.start_rooted (.edited (.refl _) rfl), none⟩
  | drop kept m rest sorting markers _ =>
    refine ⟨sound.roots_of_rooted (drop_rooted markers) (.edited (.refl _) rfl), ?_⟩
    exact sound.has_held
  | @enter me _ =>
    exact ⟨sound.roots_of_rooted (enterRun_rooted me s.bridge) (.edited (.refl _) rfl), none⟩
  | @begin me m waiting _ =>
    refine ⟨sound.bridge_roots, fun v member => ?_⟩
    apply has_marked sound.whole m.owner
    simpa [Progress.held, Turn.ofMarker] using member
  | @mark me waiting turn h working =>
    refine ⟨sound.bridge_roots, fun v member => ?_⟩
    have held : ∀ v ∈ turn.session.previous ++ turn.session.marks, s.bridge.heap.Has v := by
      have held := sound.has_held
      rwa [working] at held
    rcases mark_cases turn.session h s.bridge with same | ⟨id, resolves, new⟩
    · simp only [Progress.held, Turn.ask, same] at member
      exact held v member
    · simp only [Progress.held, Turn.ask, new, ← List.append_assoc] at member
      rcases List.mem_append.1 member with old | last
      · exact held v old
      · rw [List.mem_singleton.1 last]
        exact Heap.has_object.2 (isAlive_of_resolves resolves)
  | finish working =>
    exact ⟨sound.roots_of_rooted (.within s.bridge _) (sound.attach_touches working), none⟩
  | fail _ => exact ⟨sound.bridge_roots, none⟩
  | @leave me _ =>
    exact ⟨sound.roots_of_rooted (leaveRun_rooted me s.bridge) (.edited (.refl _) rfl), none⟩

theorem Move.steady (move : s.Move es s') (sound : s.Sound o) :
    (s'.progress = .idle → s'.bridge.running = []) ∧
      s'.bridge.marking.kept.length < s'.bridge.marking.cache ∧
      s'.bridge.marking.cache = s.bridge.marking.cache ∧
      s'.bridge.handles.keepAlive = s.bridge.handles.keepAlive := by
  have busy : ∀ {p : Progress} {b : Bridge}, p ≠ .idle → p = .idle → b.running = [] :=
    fun busy idle => absurd idle busy
  cases move with
  | act act =>
    have steady := act.steady sound.arranged
    exact ⟨fun idle => steady.running.trans (sound.idle idle), steady.kept sound.kept, steady.cache,
      steady.keepAlive⟩
  | settle => exact ⟨sound.idle, sound.kept, rfl, rfl⟩
  | start me _ => exact ⟨busy nofun, sound.kept, rfl, rfl⟩
  | drop kept m rest sorting _ _ => exact ⟨busy (by simp [sorting]), sound.kept, rfl, rfl⟩
  | enter _ => exact ⟨busy nofun, sound.kept, rfl, rfl⟩
  | begin _ => exact ⟨busy nofun, sound.kept, rfl, rfl⟩
  | mark h _ => exact ⟨busy nofun, sound.kept, rfl, rfl⟩
  | finish _ => exact ⟨busy nofun, sound.kept, rfl, rfl⟩
  | fail _ => exact ⟨busy nofun, sound.kept, rfl, rfl⟩
  | leave _ => exact ⟨fun _ => rfl, sound.kept, rfl, rfl⟩

/-- What a marker at work has marked does not die, so its handles go on resolving. -/
theorem Move.turn (move : s.Move es s') (sound : s.Sound o) {me : ThreadId}
    {waiting : List Marker} {turn : Turn}
    (working : s'.progress = .marking me waiting (some turn)) :
    turn.Sound s'.bridge := by
  have kept : s'.progress = s.progress → turn.Sound s'.bridge := by
    intro same h seen
    obtain ⟨id, marked, resolves⟩ := sound.turn me waiting turn (same ▸ working) h seen
    refine ⟨id, marked, (move.onward sound).resolves resolves ?_⟩
    apply (move.rooted sound).2 (.object id) _ id rfl
    rw [working]
    exact List.mem_append_right _ marked
  cases move with
  | act act => exact kept rfl
  | settle => exact kept rfl
  | drop _ _ _ _ _ _ => exact kept rfl
  | begin _ =>
    cases working
    exact fun _ seen => nomatch seen
  | mark h before =>
    cases working
    exact (sound.turn _ _ _ before).ask h
  | start me _ => cases working
  | enter _ => cases working
  | finish _ => cases working
  | fail _ => cases working
  | leave _ => cases working

theorem Move.sound (move : s.Move es s') (sound : s.Sound o) : s'.Sound o := by
  obtain ⟨roots, held⟩ := move.rooted sound
  obtain ⟨idle, kept, cache, keepAlive⟩ := move.steady sound
  constructor
  case whole => exact move.whole sound
  case roots =>
    intro id member
    rcases mem_roots.1 member with root | marked
    · exact roots id root
    · exact held _ marked id rfl
  case faithful => exact move.faithful sound
  case turn => exact fun me waiting turn working => move.turn sound working
  case idle => exact idle
  case kept => exact kept
  case cache => exact cache.trans sound.cache
  case keepAlive => exact keepAlive.trans sound.keepAlive

theorem sound_ofOptions (o : Options) : (ofOptions o).Sound o := by
  constructor
  case whole => exact fun _ _ there => nomatch there
  case roots =>
    intro id member
    simp [roots, Bridge.roots, ofOptions, Bridge.ofOptions, HandleTable.ofOptions, Marking.ofCache,
      HandleTable.pins, Marking.values, CallStack.values, Progress.held, Value.objects] at member
  case faithful => exact ⟨[], HandleTable.faithful_ofOptions _ _⟩
  case turn =>
    intro me waiting turn working
    cases working
  case idle => exact fun _ => rfl
  case kept => exact Nat.lt_of_lt_of_le Nat.zero_lt_one (Nat.le_max_right _ _)
  case cache => rfl
  case keepAlive => rfl

/-- From a sound system a run leads to a sound one. -/
theorem Run.sound (run : s.Run es s') (sound : s.Sound o) : s'.Sound o := by
  induction run with
  | refl => exact sound
  | step _ move ih => exact move.sound ih

theorem Reachable.sound (reachable : Reachable o s) : s.Sound o := by
  obtain ⟨es, run⟩ := reachable
  exact run.sound (sound_ofOptions o)

theorem Run.onward (run : s.Run es s') (sound : s.Sound o) : s.bridge.Onward s'.bridge := by
  induction run with
  | refl => exact .refl _
  | step before move ih => exact ih.trans (move.onward (before.sound sound))

end System

end RopeBridge
