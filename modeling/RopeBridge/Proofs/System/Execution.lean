import RopeBridge.Proofs.System.Sound

/-! Marker runs and collections as runs of a system. A marker run that no other thread comes across
is one of the ways in which the moves of a run can follow each other. -/
namespace RopeBridge

variable {α β : Type}

namespace System

variable {s s' : System} {es : List Event} {o : Options} {b : Bridge}

/-- A program is carried out by a run of the system. -/
def Executes (s : System) (x : StateM Bridge α) (Q : α → System → Prop) : Prop :=
  ∃ es s', s.Run es s' ∧ s'.bridge = (x.run s.bridge).2 ∧ Q (x.run s.bridge).1 s'

variable {x : StateM Bridge α} {f : α → StateM Bridge β} {Q : α → System → Prop}
  {R : β → System → Prop}

theorem Executes.pure {a : α} (fine : Q a s) : s.Executes (pure a) Q := ⟨[], s, .refl, rfl, fine⟩

theorem Executes.bind (first : s.Executes x Q)
    (next : ∀ a s', Q a s' → s'.Executes (f a) R) : s.Executes (x >>= f) R := by
  obtain ⟨es, s', run, bridge, fine⟩ := first
  obtain ⟨es', s'', further, bridge', result⟩ := next _ s' fine
  rw [bridge] at bridge' result
  exact ⟨es ++ es', s'', run.trans further, bridge', result⟩

theorem Executes.look {f : Bridge → StateM Bridge β} (next : s.Executes (f s.bridge) R) :
    s.Executes (get >>= f) R := next

theorem Executes.change {g : Bridge → Bridge} {f : PUnit → StateM Bridge β} (run : s.Run es s')
    (bridge : s'.bridge = g s.bridge) (next : s'.Executes (f ⟨⟩) R) :
    s.Executes (modify g >>= f) R := by
  obtain ⟨es', s'', further, bridge', result⟩ := next
  rw [bridge] at bridge' result
  exact ⟨es ++ es', s'', run.trans further, bridge', result⟩

/-- Moves that the program knows nothing of may come before it. -/
theorem Executes.after (run : s.Run es s') (bridge : s'.bridge = s.bridge)
    (executes : s'.Executes x Q) : s.Executes x Q := by
  obtain ⟨es', s'', further, bridge', fine⟩ := executes
  rw [bridge] at bridge' fine
  exact ⟨es ++ es', s'', run.trans further, bridge', fine⟩

theorem Executes.mono {Q' : α → System → Prop} (executes : s.Executes x Q)
    (weaker : ∀ a s', Q a s' → Q' a s') : s.Executes x Q' := by
  obtain ⟨es, s', run, bridge, fine⟩ := executes
  exact ⟨es, s', run, bridge, weaker _ _ fine⟩

section

/- Programs that could fail, and do not. -/
variable {ε : Type} {g : α → ExceptT ε (StateM Bridge) β} {S : Except ε α → System → Prop}
  {T : Except ε β → System → Prop}

theorem Executes.lift (executes : s.Executes x fun a s' => S (.ok a) s') :
    s.Executes (liftM x : ExceptT ε (StateM Bridge) α).run S := executes

theorem Executes.succeed (first : s.Executes x Q)
    (next : ∀ a s', Q a s' → s'.Executes (g a).run T) : s.Executes (liftM x >>= g).run T := by
  obtain ⟨es, s', run, bridge, fine⟩ := first
  obtain ⟨es', s'', further, bridge', result⟩ := next _ s' fine
  rw [bridge] at bridge' result
  exact ⟨es ++ es', s'', run.trans further, bridge', result⟩

end

/-- A marker that is registered is at work in a session. -/
structure Working (s : System) (o : Options) (me : ThreadId) (waiting : List Marker) (m : Marker)
    (session : MarkSession) (markers : List Marker) : Prop where
  sound : s.Sound o
  markers : s.bridge.marking.markers = markers
  progress : ∃ asked, s.progress = .marking me waiting (some { marker := m, session, asked })

section

variable {me : ThreadId} {waiting : List Marker} {m : Marker} {session : MarkSession}
  {markers : List Marker} {v : Value} {h : Handle}

theorem Working.act (working : s.Working o me waiting m session markers) (act : s.bridge.Act es b)
    (same : b.marking.markers = s.bridge.marking.markers) :
    ({ s with bridge := b } : System).Working o me waiting m session markers where
  sound := (Move.act act).sound working.sound
  markers := same.trans working.markers
  progress := working.progress

/-- Marking a handle is a move of the marker at work. -/
theorem Working.mark (working : s.Working o me waiting m session markers) (h : Handle) :
    ∃ s', s.Run [] s' ∧ s'.bridge = s.bridge ∧
      s'.Working o me waiting m (Bridge.mark session h s.bridge) markers := by
  obtain ⟨asked, progress⟩ := working.progress
  have move := Move.mark h progress
  exact ⟨_, .of_move move, rfl, move.sound working.sound, working.markers, _, rfl⟩

theorem Working.wrap (working : s.Working o me waiting m session markers)
    (has : s.bridge.heap.Has v) : s.Executes (Bridge.wrap me v) fun _ s' =>
      s'.Working o me waiting m session markers := by
  have act := Bridge.Act.wrap (b := s.bridge) me v has
  refine ⟨_, _, .of_move (.act act), rfl, working.act act ?_⟩
  rw [Bridge.wrap_state, Bridge.wrapperFor_markers]

/-- What the marker at work has found marked is alive until it is done. -/
theorem Working.has_previous (working : s.Working o me waiting m session markers) :
    ∀ v ∈ session.previous, s.bridge.heap.Has v := by
  obtain ⟨asked, progress⟩ := working.progress
  intro v member
  apply working.sound.has_held
  rw [progress]
  exact List.mem_append_left _ member

/-- What its script names is alive as long as it is registered. -/
theorem Working.has_script (working : s.Working o me waiting m session markers)
    (registered : m ∈ markers) {act : MarkAct} (named : act ∈ m.script) :
    ∀ v ∈ act.values, s.bridge.heap.Has v := by
  intro v member
  apply working.sound.has_marking
  rw [← working.markers] at registered
  refine Marking.mem_values.2 (.inr ?_)
  exact List.mem_flatMap.2 ⟨m, registered, List.mem_flatMap.2 ⟨act, named, member⟩⟩

theorem Working.markValue (working : s.Working o me waiting m session markers)
    (has : s.bridge.heap.Has v) : s.Executes (Bridge.markValue me session v) fun session' s' =>
      s'.Working o me waiting m session' markers ∧ session'.previous = session.previous := by
  refine .bind (working.wrap has) fun h s' working' => .look ?_
  obtain ⟨s'', run, bridge, working''⟩ := working'.mark h
  exact ⟨[], s'', run, bridge, working'', Bridge.previous_mark session h s'.bridge⟩

theorem Working.markValues (working : s.Working o me waiting m session markers)
    {vs : List Value} (within : ∀ v ∈ vs, v ∈ session.previous) :
    s.Executes (vs.foldlM (fun session v => Bridge.markValue me session v) session :
      ExceptT String (StateM Bridge) MarkSession).run fun result s' =>
        ∃ session', result = .ok session' ∧ s'.Working o me waiting m session' markers := by
  induction vs generalizing s session with
  | nil => exact .pure ⟨session, rfl, working⟩
  | cons v rest ih =>
    rw [List.foldlM_cons]
    have first := working.markValue (working.has_previous v (within v List.mem_cons_self))
    refine .succeed first fun session' s' ⟨working', previous⟩ => ih working' fun v member => ?_
    rw [previous]
    exact within v (List.mem_cons_of_mem _ member)

/-- An act of a marker goes on in a new session, or fails in the one that it began in. -/
theorem Working.perform (working : s.Working o me waiting m session markers)
    (registered : m ∈ markers) {act : MarkAct} (named : act ∈ m.script) :
    s.Executes (Bridge.perform me m.owner session act).run fun result s' =>
      s'.Working o me waiting m (result.toOption.getD session) markers := by
  have has := working.has_script registered named
  cases act with
  | pointer =>
    obtain ⟨s', run, bridge, working'⟩ := working.mark
      ⟨((s.bridge.heap.get? m.owner).bind Object.pointer?).getD 0⟩
    exact ⟨[], s', run, bridge, working'⟩
  | handle h =>
    obtain ⟨s', run, bridge, working'⟩ := working.mark h
    exact ⟨[], s', run, bridge, working'⟩
  | value v =>
    have marks := working.markValue (has v (by simp [MarkAct.values]))
    exact .lift (marks.mono fun _ _ fine => fine.1)
  | previous =>
    refine (working.markValues fun _ member => member).mono ?_
    rintro _ s' ⟨session', rfl, working'⟩
    exact working'
  | wrap v =>
    have wraps := working.wrap (has v (by simp [MarkAct.values]))
    exact .succeed wraps fun _ _ working' => .pure working'
  | keep v =>
    have act := Bridge.Act.keepObject v (has v (by simp [MarkAct.values]))
    exact ⟨_, _, .of_move (.act act), rfl, working.act act (Bridge.keepObject_markers _ _)⟩
  | queue vs =>
    have act := Bridge.Act.enqueue vs has
    exact ⟨_, _, .of_move (.act act), rfl, working.act act rfl⟩
  | fail reason => exact .pure working

theorem Working.performAll (working : s.Working o me waiting m session markers)
    (registered : m ∈ markers) {script : List MarkAct} (within : ∀ act ∈ script, act ∈ m.script) :
    s.Executes (Bridge.performAll me m.owner session script) fun result s' =>
      s'.Working o me waiting m result.1 markers := by
  induction script generalizing s session with
  | nil => exact .pure working
  | cons act rest ih =>
    refine .bind (working.perform registered (within act List.mem_cons_self)) ?_
    intro result s' working'
    cases result with
    | ok session' => exact ih working' fun act member => within act (List.mem_cons_of_mem _ member)
    | error reason => exact .pure working'

end

/-- Settling a bridge while no marker is at work. -/
theorem settle_run (between : s.progress.held = []) :
    s.Run [] { s with bridge := s.bridge.settle } := by
  have roots : s.roots = s.bridge.roots := by
    unfold roots
    rw [between]
    exact List.append_nil _
  have move := Move.settle (s := s)
  rw [roots] at move
  exact .of_move move

/-- Between two markers: these are left to run. -/
structure Between (s : System) (o : Options) (me : ThreadId) (waiting markers : List Marker) :
    Prop where
  sound : s.Sound o
  markers : s.bridge.marking.markers = markers
  progress : s.progress = .marking me waiting none

variable {me : ThreadId} {m : Marker} {waiting markers : List Marker}

theorem Between.settle (between : s.Between o me waiting markers) :
    ({ s with bridge := s.bridge.settle } : System).Between o me waiting markers where
  sound := by
    have held : s.progress.held = [] := by
      rw [between.progress]
      rfl
    exact (settle_run held).sound between.sound
  markers := between.markers
  progress := between.progress

theorem Between.begin (between : s.Between o me (m :: waiting) markers) :
    ∃ s', s.Run [] s' ∧ s'.bridge = s.bridge ∧
      s'.Working o me waiting m { previous := s.bridge.heap.marked m.owner } markers := by
  have move := Move.begin between.progress
  exact ⟨_, .of_move move, rfl, move.sound between.sound, between.markers, _, rfl⟩

theorem Between.runMarker (between : s.Between o me (m :: waiting) markers)
    (registered : m ∈ markers) : s.Executes (Bridge.runMarker me m) fun _ s' =>
      s'.Between o me waiting markers := by
  obtain ⟨s₁, begins, bridge, working⟩ := between.begin
  have marked : (s₁.bridge.heap.get? m.owner).elim [] (·.marked) =
      s.bridge.heap.marked m.owner := by
    rw [bridge]
    rfl
  refine .after begins bridge (.look ?_)
  rw [marked]
  refine .bind (working.performAll registered fun _ member => member) ?_
  rintro ⟨session, failure⟩ s₂ working'
  obtain ⟨asked, progress⟩ := working'.progress
  cases failure with
  | some reason =>
    have move := Move.fail progress
    exact ⟨_, _, .of_move move, rfl, move.sound working'.sound, working'.markers, rfl⟩
  | none =>
    have move := Move.finish progress
    have between' : System.Between _ o me waiting markers :=
      ⟨move.sound working'.sound, working'.markers, rfl⟩
    exact ⟨_, _, (Run.of_move move).trans (settle_run rfl), rfl, between'.settle⟩

theorem Between.runAll (between : s.Between o me waiting markers) (registered : waiting ⊆ markers) :
    s.Executes (waiting.mapM (Bridge.runMarker me)) fun _ s' => s'.Between o me [] markers := by
  induction waiting generalizing s with
  | nil => exact .pure between
  | cons m rest ih =>
    rw [List.mapM_cons]
    refine .bind (between.runMarker (registered List.mem_cons_self)) fun _ s' between' => ?_
    refine .bind (ih between' fun m member => registered (List.mem_cons_of_mem _ member)) ?_
    exact fun _ s'' done => .pure done

/-- Dropping markers one after the other, each with what dies with it. -/
theorem dropDeadMarkers_run (kept rest : List Marker) (sorting : s.progress = .sorting me)
    (markers : s.bridge.marking.markers = kept ++ rest) :
    s.Run [] { s with bridge := s.bridge.dropDeadMarkers kept rest } := by
  induction rest generalizing kept s with
  | nil =>
    have same : s.bridge.dropDeadMarkers kept [] = s.bridge := by
      rw [List.append_nil] at markers
      unfold Bridge.dropDeadMarkers
      rw [← markers]
    rw [same]
    exact .refl
  | cons m rest ih =>
    unfold Bridge.dropDeadMarkers
    split
    next => exact ih (kept ++ [m]) sorting (by simpa using markers)
    next dead =>
      have drops := Run.of_move (Move.drop kept m rest sorting markers (by simpa using dead))
      have settles := settle_run (s := { s with bridge.marking.markers := kept ++ rest })
        (by simp [sorting, Progress.held])
      exact drops.trans (settles.trans (ih kept sorting rfl))

/-- A marker run, if no other thread comes across it, is a run between two idle states. -/
theorem runMarkers_executes (sound : s.Sound o) (idle : s.progress = .idle) (me : ThreadId) :
    s.Executes (Bridge.runMarkers me) fun _ s' => s'.Sound o ∧ s'.progress = .idle := by
  have none : s.bridge.running = [] := sound.idle idle
  refine .look ?_
  rw [none]
  have start := Move.start me idle
  refine .change (.of_move start) rfl ?_
  have drops := dropDeadMarkers_run (s := ⟨s.bridge.takeQueue, .sorting me⟩) []
    s.bridge.marking.markers rfl rfl
  have sound' := drops.sound (start.sound sound)
  refine .change drops rfl (.look ?_)
  generalize s.bridge.takeQueue.dropDeadMarkers [] s.bridge.marking.markers = b at sound' ⊢
  have enter := Move.enter (s := ⟨b, .sorting me⟩) rfl
  refine .change (.of_move enter) rfl ?_
  have between : System.Between _ o me _ _ := ⟨enter.sound sound', rfl, rfl⟩
  refine .bind (between.runAll fun m member => (List.mem_filter.1 member).1) fun _ s' done => ?_
  have leave := Move.leave done.progress
  refine .change ((Run.of_move leave).trans (settle_run rfl)) rfl (.pure ⟨?_, rfl⟩)
  exact (settle_run rfl).sound (leave.sound done.sound)

end System

end RopeBridge
