import RopeBridge.Proofs.System.Sound

/-! What markers have marked. The owner of several markers holds what the last of them to complete
has marked, and no more; a handle goes on resolving while every marker that completes on behalf of
the owner marks it. -/
namespace RopeBridge

/-- The turn of a marker of an object that has not failed. -/
def Event.completion? (owner : ObjectId) : Event → Option Turn
  | .attached turn => if turn.marker.owner = owner then some turn else none
  | _ => none

/-- The completed turns of the markers of an object, in order. -/
def Event.completions (owner : ObjectId) (es : List Event) : List Turn :=
  es.filterMap (Event.completion? owner)

namespace Event

variable {owner : ObjectId} {es es' : List Event} {turn : Turn}

theorem completions_append :
    completions owner (es ++ es') = completions owner es ++ completions owner es' :=
  List.filterMap_append

theorem mem_completions :
    turn ∈ completions owner es ↔ .attached turn ∈ es ∧ turn.marker.owner = owner := by
  unfold completions
  rw [List.mem_filterMap]
  constructor
  · rintro ⟨e, member, completed⟩
    cases e with
    | attached other =>
      obtain ⟨same, eq⟩ := Option.ite_none_right_eq_some.1 completed
      cases eq
      exact ⟨member, same⟩
    | _ => exact nomatch completed
  · rintro ⟨member, same⟩
    exact ⟨.attached turn, member, if_pos same⟩

theorem completions_eq_nil (none : ∀ turn, .attached turn ∉ es) : completions owner es = [] :=
  List.eq_nil_iff_forall_not_mem.2 fun turn member => none turn (mem_completions.1 member).1

end Event

namespace Bridge

variable {b b' : Bridge} {es : List Event} {owner : ObjectId}

theorem Wraps.marked {me : ThreadId} {v : Value} {h : Handle} (wraps : b.Wraps me v h b') :
    b'.heap.marked owner = b.heap.marked owner := by
  cases wraps with
  | word _ => rfl
  | found _ _ => rfl
  | entered _ _ exposes _ => exact exposes.grown.marked owner

/-- What an object has marked on its behalf is only replaced from outside by saying so. -/
theorem Act.marked (act : b.Act es b') (unassigned : .assigned owner ∉ es) :
    b'.heap.marked owner = b.heap.marked owner := by
  cases act with
  | beside beside => exact beside.heap.marked owner
  | wrap me v _ => exact (wrap_wraps me v b).marked
  | retire me => rw [retire_heap]
  | setMarked other vs _ =>
    rw [Heap.marked_setMarked, if_neg]
    rintro ⟨rfl, _⟩
    exact unassigned List.mem_cons_self
  | release => rfl
  | addMarker m _ => rfl
  | enqueue vs _ => rfl
  | keepObject v _ => rfl
  | push me block _ => rfl
  | keepInFrame me v _ => rfl
  | pop me => rfl
  | clear me => rfl

end Bridge

/-- A handle has been seen if it has been asked for while it resolved. -/
theorem Turn.mem_seen_ask {turn : Turn} {b : Bridge} {h h' : Handle} :
    h ∈ (turn.ask b h').session.seen ↔
      h ∈ turn.session.seen ∨ h = h' ∧ ∃ id, b.Resolves h id := by
  show h ∈ (Bridge.mark turn.session h' b).seen ↔ _
  constructor
  · intro seen
    rcases Bridge.mark_cases turn.session h' b with same | ⟨id, resolves, new⟩
    · rw [same] at seen
      exact .inl seen
    · rw [new] at seen
      rcases List.mem_cons.1 seen with rfl | earlier
      · exact .inr ⟨rfl, id, resolves⟩
      · exact .inl earlier
  · rintro (earlier | ⟨rfl, id, resolves⟩)
    · rcases Bridge.mark_cases turn.session h' b with same | ⟨_, _, new⟩
      · rwa [same]
      · rw [new]
        exact List.mem_cons_of_mem _ earlier
    · exact Bridge.mem_seen_mark resolves turn.session

namespace System

open Bridge Event

variable {s s' : System} {es : List Event} {o : Options} {owner : ObjectId} {h : Handle}
  {turn : Turn}

/-- A marker that completes replaces what its owner holds; nothing else does from inside. -/
theorem Move.marked (move : s.Move es s') (alive : s'.bridge.heap.isAlive owner)
    (unassigned : .assigned owner ∉ es) :
    completions owner es = [] ∧ s'.bridge.heap.marked owner = s.bridge.heap.marked owner ∨
      ∃ me waiting turn, s.progress = .marking me waiting (some turn) ∧
        completions owner es = [turn] ∧ turn.marker.owner = owner ∧
        s'.bridge.heap.marked owner = turn.session.marks ∧
        s'.progress = .marking me waiting none := by
  cases move with
  | act act =>
    have none : completions owner es = [] :=
      completions_eq_nil fun _ member => nomatch act.ofRun member
    exact .inl ⟨none, act.marked unassigned⟩
  | settle => exact .inl ⟨rfl, Heap.marked_settle alive⟩
  | @finish me waiting turn working =>
    change (s.bridge.heap.setMarked _ _).isAlive owner = true at alive
    rw [Heap.setMarked, Heap.isAlive_update] at alive
    have marked : (s.bridge.attach turn).heap.marked owner = _ := Heap.marked_setMarked _
    by_cases same : turn.marker.owner = owner
    · rw [if_pos ⟨same, alive⟩] at marked
      refine .inr ⟨me, waiting, turn, working, ?_, same, marked, rfl⟩
      simp [completions, completion?, same]
    · rw [if_neg fun both => same both.1] at marked
      exact .inl ⟨by simp [completions, completion?, same], marked⟩
  | leave _ =>
    refine .inl ⟨completions_eq_nil fun turn => ?_, rfl⟩
    unfold pops
    split <;> simp
  | start _ _ => exact .inl ⟨rfl, rfl⟩
  | drop _ _ _ _ _ _ => exact .inl ⟨rfl, rfl⟩
  | enter _ => exact .inl ⟨rfl, rfl⟩
  | begin _ => exact .inl ⟨rfl, rfl⟩
  | mark _ _ => exact .inl ⟨rfl, rfl⟩
  | fail _ => exact .inl ⟨rfl, rfl⟩

/-- An object that is alive at the end of a run has been alive all the time. -/
theorem Run.alive_before {es' : List Event} {s'' : System} (run : s.Run es s') (sound : s.Sound o)
    (move : s'.Move es' s'') (before : s.bridge.heap.isAlive owner)
    (after : s''.bridge.heap.isAlive owner) : s'.bridge.heap.isAlive owner :=
  (run.onward sound).alive_between (move.onward (run.sound sound)) before after

/-- An object holds what the last of its markers to complete has marked. -/
theorem Run.marked (run : s.Run es s') (sound : s.Sound o)
    (before : s.bridge.heap.isAlive owner) (after : s'.bridge.heap.isAlive owner)
    (unassigned : .assigned owner ∉ es) : s'.bridge.heap.marked owner =
      (completions owner es).getLast?.elim (s.bridge.heap.marked owner) (·.session.marks) := by
  induction run with
  | refl => rfl
  | @step es es' s' s'' run move ih =>
    rw [List.mem_append, not_or] at unassigned
    have between := run.alive_before sound move before after
    rw [completions_append]
    rcases move.marked after unassigned.2 with ⟨none, same⟩ | ⟨_, _, turn, _, one, _, marks, _⟩
    · rw [none, List.append_nil, same]
      exact ih between unassigned.1
    · rw [one, List.getLast?_concat, marks]
      rfl

/-- An object holds what a handle resolves to, and no marker of the object that is at work has asked
for the handle in vain. -/
structure Keeps (s : System) (owner : ObjectId) (h : Handle) : Prop where
  held : ∃ id, .object id ∈ s.bridge.heap.marked owner ∧ s.bridge.Resolves h id
  seen : ∀ me waiting turn, s.progress = .marking me waiting (some turn) →
    turn.marker.owner = owner → h ∈ turn.asked → h ∈ turn.session.seen

/-- What has been marked for an object that is alive does not die. -/
theorem Move.held (move : s.Move es s') (sound : s.Sound o) {id : ObjectId}
    (marked : .object id ∈ s'.bridge.heap.marked owner) (resolves : s.bridge.Resolves h id) :
    s'.bridge.Resolves h id :=
  (move.onward sound).resolves resolves
    (Heap.has_object.1 (has_marked (move.whole sound) owner _ marked))

/-- A marker that completes keeps every handle that it has seen. -/
theorem Move.keeps_of_seen (move : s.Move es s') (sound : s.Sound o)
    (alive : s'.bridge.heap.isAlive owner) (unassigned : .assigned owner ∉ es)
    (completed : turn ∈ completions owner es) (seen : h ∈ turn.session.seen) :
    s'.Keeps owner h := by
  rcases move.marked alive unassigned with ⟨none, _⟩ | ⟨me, waiting, other, working, one, _, marks,
    idle⟩
  · rw [none] at completed
    exact nomatch completed
  · rw [one, List.mem_singleton] at completed
    subst completed
    obtain ⟨id, marked, resolves⟩ := sound.turn me waiting turn working h seen
    rw [← marks] at marked
    refine ⟨⟨id, marked, move.held sound marked resolves⟩, fun _ _ _ working' => ?_⟩
    rw [idle] at working'
    exact nomatch working'

theorem Move.keeps (move : s.Move es s') (sound : s.Sound o) (keeps : s.Keeps owner h)
    (alive : s'.bridge.heap.isAlive owner) (unassigned : .assigned owner ∉ es)
    (asks : ∀ turn ∈ completions owner es, h ∈ turn.asked) : s'.Keeps owner h := by
  rcases move.marked alive unassigned with ⟨_, same⟩ | ⟨me, waiting, turn, working, one, mine, _, _⟩
  · constructor
    case held =>
      obtain ⟨id, marked, resolves⟩ := keeps.held
      rw [← same] at marked
      exact ⟨id, marked, move.held sound marked resolves⟩
    case seen =>
      intro me waiting turn working mine asked
      cases move with
      | act act => exact keeps.seen me waiting turn working mine asked
      | settle => exact keeps.seen me waiting turn working mine asked
      | drop _ _ _ _ _ _ => exact keeps.seen me waiting turn working mine asked
      | begin _ =>
        cases working
        exact nomatch asked
      | @mark me waiting turn h' before =>
        cases working
        -- The handle has been asked for before, or is asked for now, when it resolves.
        apply Turn.mem_seen_ask.2
        rcases List.mem_cons.1 asked with rfl | earlier
        · obtain ⟨id, _, resolves⟩ := keeps.held
          exact .inr ⟨rfl, id, resolves⟩
        · exact .inl (keeps.seen _ _ _ before mine earlier)
      | start _ _ => cases working
      | enter _ => cases working
      | finish _ => cases working
      | fail _ => cases working
      | leave _ => cases working
  · have completed : turn ∈ completions owner es := by simp [one]
    have seen := keeps.seen me waiting turn working mine (asks turn completed)
    exact move.keeps_of_seen sound alive unassigned completed seen

/-- From the first marker on that has seen a handle, the handle is kept for an object while every
marker that completes on behalf of the object asks for it. -/
theorem Run.keeps (run : s.Run es s') (sound : s.Sound o)
    (before : s.bridge.heap.isAlive owner) (after : s'.bridge.heap.isAlive owner)
    (unassigned : .assigned owner ∉ es) {rest : List Turn}
    (completed : completions owner es = turn :: rest) (seen : h ∈ turn.session.seen)
    (asks : ∀ turn ∈ rest, h ∈ turn.asked) : s'.Keeps owner h := by
  induction run generalizing rest with
  | refl => exact nomatch completed
  | @step es es' s' s'' run move ih =>
    rw [List.mem_append, not_or] at unassigned
    rw [completions_append] at completed
    have between := run.alive_before sound move before after
    have sound' := run.sound sound
    rcases List.append_eq_cons_iff.1 completed with ⟨none, first⟩ | ⟨more, first, others⟩
    · have completes : turn ∈ completions owner es' := by simp [first]
      exact move.keeps_of_seen sound' after unassigned.2 completes seen
    · subst others
      have keeps := ih between unassigned.1 first fun t member => asks t (by simp [member])
      exact move.keeps sound' keeps after unassigned.2 fun t member => asks t (by simp [member])

/-- What an object holds when it is alive at the end of a run, and has not been given anything to
hold from outside. -/
structure HoldsMarks (s : System) (es : List Event) (s' : System) (owner : ObjectId) : Prop where
  /-- It is what the last of its markers to complete has marked. -/
  last : s'.bridge.heap.marked owner =
    (completions owner es).getLast?.elim (s.bridge.heap.marked owner) (·.session.marks)
  /-- What the first of its markers to complete has seen is still held and resolves if all others
  have asked for it. -/
  every : ∀ turn rest, completions owner es = turn :: rest → ∀ h ∈ turn.session.seen,
    (∀ turn ∈ rest, h ∈ turn.asked) → ∃ id, .object id ∈ s'.bridge.heap.marked owner ∧
      s'.bridge.Resolves h id ∧ s'.bridge.unwrap h = .ok (s'.bridge.heap.read id)

theorem holdsMarks_run (reachable : Reachable o s) (run : s.Run es s')
    (before : s.bridge.heap.isAlive owner) (after : s'.bridge.heap.isAlive owner)
    (unassigned : .assigned owner ∉ es) : HoldsMarks s es s' owner := by
  have sound := reachable.sound
  constructor
  case last => exact run.marked sound before after unassigned
  case every =>
    intro turn rest completed h seen asks
    have keeps := run.keeps sound before after unassigned completed seen asks
    obtain ⟨id, marked, resolves⟩ := keeps.held
    exact ⟨id, marked, resolves, unwrap_of_resolves resolves⟩

/-- A run begins when the owners of all markers are alive. -/
theorem begin_run (b : Bridge) (me : ThreadId)
    (alive : ∀ m ∈ b.marking.markers, b.heap.isAlive m.owner) :
    System.Run ⟨b, .idle⟩ [.started]
      ⟨b.takeQueue.enterRun me b.marking.markers, .marking me b.marking.markers none⟩ := by
  have live : b.takeQueue.liveMarkers = b.marking.markers := List.filter_eq_self.2 alive
  have enter := Move.enter (s := ⟨b.takeQueue, .sorting me⟩) rfl
  rw [live] at enter
  exact (Run.of_move (.start me rfl)).step enter

/-- A marker asks for some handles, one after the other, and completes. -/
theorem turn_run (b : Bridge) (me : ThreadId) (m : Marker) (waiting : List Marker)
    (hs : List Handle) : System.Run ⟨b, .marking me (m :: waiting) none⟩
      [.attached (hs.foldl (Turn.ask · b) (.ofMarker b m))]
      ⟨b.attach (hs.foldl (Turn.ask · b) (.ofMarker b m)), .marking me waiting none⟩ := by
  have asks : ∀ turn : Turn, System.Run ⟨b, .marking me waiting (some turn)⟩ []
      ⟨b, .marking me waiting (some (hs.foldl (Turn.ask · b) turn))⟩ := by
    induction hs with
    | nil => exact fun _ => .refl
    | cons h rest ih => exact fun turn => (Run.of_move (.mark h rfl)).trans (ih (turn.ask b h))
  have begins := Run.of_move (Move.begin (s := ⟨b, .marking me (m :: waiting) none⟩) rfl)
  exact (begins.trans (asks (.ofMarker b m))).step (.finish rfl)

/-- Of two markers the first marks two handles and the second only one of them. -/
theorem holdsMarks_run_two :
    let one : Marker := { owner := 0, tag := "one", script := [.handle (.ofSlot 0 0)] }
    let two : Marker := { owner := 0, tag := "two", script := [.handle (.ofSlot 0 1)] }
    let made := ((newObject (.data "Holder" 0)).run (.ofOptions {})).2
    let wrapped := ((wrap 0 (.float 2)).run ((wrap 0 (.float 1)).run made).2).2
    let ready := { wrapped with marking := (wrapped.marking.addMarker one).addMarker two }
    let running := ready.takeQueue.enterRun 0 [one, two]
    let turn := [Handle.ofSlot 0 0, .ofSlot 0 1].foldl (Turn.ask · running) (.ofMarker running one)
    let between := running.attach turn
    let turn' := [Handle.ofSlot 0 1].foldl (Turn.ask · between) (.ofMarker between two)
    let done := between.attach turn'
    done.heap.marked 0 = [.object 2] ∧ done.unwrap (.ofSlot 0 1) = .ok (done.heap.read 2) := by
  intro one two made wrapped ready running turn between turn' done
  have makes : (ofOptions {}).Run _ ⟨made, .idle⟩ :=
    .of_move (.act (.beside (.within (Heap.add_edited rfl fun _ member => nomatch member))))
  have wraps : (ofOptions {}).Run _ ⟨wrapped, .idle⟩ :=
    (makes.step (.act (.wrap 0 (.float 1) fun _ object => nomatch object))).step
      (.act (.wrap 0 (.float 2) fun _ object => nomatch object))
  have adds : ∀ b : Bridge, System.Run ⟨b, .idle⟩ []
      ⟨{ b with marking := (b.marking.addMarker one).addMarker two }, .idle⟩ := fun b =>
    (Run.of_move (.act (.addMarker one (by simp [one, MarkAct.values])))).step
      (.act (.addMarker two (by simp [two, MarkAct.values])))
  have alive : ready.heap.isAlive 0 := by decide +kernel
  have reachable : Reachable {} ⟨ready, .idle⟩ := ⟨_, wraps.trans (adds wrapped)⟩
  have registered : ready.marking.markers = [one, two] := rfl
  have begins := begin_run ready 0 (by rw [registered]; simpa [one, two] using alive)
  rw [registered] at begins
  have once := turn_run running 0 one [two] [.ofSlot 0 0, .ofSlot 0 1]
  have twice := turn_run between 0 two [] [.ofSlot 0 1]
  have holds := holdsMarks_run reachable (begins.trans (once.trans twice)) alive
    (by decide +kernel) (by simp)
  have marks : turn'.session.marks = [.object 2] := by decide +kernel
  have last := holds.last.trans marks
  obtain ⟨id, marked, _, unwraps⟩ :=
    holds.every turn [turn'] rfl (.ofSlot 0 1) (by decide +kernel) (by simp [turn', Turn.ask])
  rw [last] at marked
  cases List.mem_singleton.1 marked
  exact ⟨last, unwraps⟩

end System

end RopeBridge
