import RopeBridge.Proofs.Bridge.Identity
import RopeBridge.Proofs.System.Operations

/-! How long native code holds on to an object. A block holds the objects of its slots until it is
retired; they wait in the queue for the next marker run, and for the end of that run. A value that
is kept waits in the buffer first, and in the frame that it was kept in. -/
namespace RopeBridge

namespace CallStack

/-- The frames from the outside in. -/
def frames (s : CallStack) : List Frame := s.below.reverse ++ [s.top]

/-- The frame at a depth keeps a value. -/
def Keeps (s : CallStack) (d : Nat) (v : Value) : Prop :=
  ∃ frame, s.frames[d]? = some frame ∧ v ∈ frame.kept

variable {s : CallStack} {d : Nat} {v w : Value}

theorem frames_push : (s.push w).frames = s.frames ++ [{ block := w }] := by
  simp [frames, push]

/-- All frames are kept, or the innermost one is left. -/
theorem frames_pop : s.pop = s ∨ s.depth ≠ 0 ∧ s.frames = s.pop.frames ++ [s.top] := by
  unfold pop depth frames
  cases s.below with
  | nil => exact .inl rfl
  | cons frame below => exact .inr ⟨by simp, by simp⟩

theorem length_frames : s.frames.length = s.depth + 1 := by simp [frames, depth]

theorem Keeps.depth (keeps : s.Keeps d v) : d ≤ s.depth := by
  obtain ⟨frame, there, _⟩ := keeps
  have inside := (List.getElem?_eq_some_iff.1 there).1
  rw [length_frames] at inside
  exact Nat.le_of_lt_succ inside

theorem Keeps.mem_values (keeps : s.Keeps d v) : v ∈ s.values := by
  obtain ⟨frame, there, kept⟩ := keeps
  have member := List.mem_of_getElem? there
  simp only [frames, List.mem_append, List.mem_reverse, List.mem_singleton] at member
  exact List.mem_flatMap.2 ⟨frame, List.mem_cons.2 member.symm, List.mem_cons_of_mem _ kept⟩

theorem Keeps.push (keeps : s.Keeps d v) (block : Value) : (s.push block).Keeps d v := by
  obtain ⟨frame, there, kept⟩ := keeps
  refine ⟨frame, ?_, kept⟩
  rw [frames_push, List.getElem?_append_left (List.getElem?_eq_some_iff.1 there).1, there]

/-- A value that is kept is kept by the innermost frame, and all that is kept stays so. -/
theorem keeps_keepAlive : (s.keepAlive w).Keeps d v ↔ s.Keeps d v ∨ d = s.depth ∧ v = w := by
  have last : d = s.below.length ∨ d < s.below.length ∨ s.below.length + 1 ≤ d := by omega
  unfold Keeps frames keepAlive depth
  rcases last with rfl | inside | outside
  · simp
  · have other : d ≠ s.below.length := Nat.ne_of_lt inside
    simp [List.getElem?_append_left, inside, other]
  · have other : d ≠ s.below.length := by omega
    have none : ∀ top : Frame, (s.below.reverse ++ [top])[d]? = none := fun top =>
      List.getElem?_eq_none (by simpa using outside)
    simp [none, other]

/-- A frame keeps what it keeps until it is popped. -/
theorem Keeps.pop (keeps : s.Keeps d v) : s.pop.Keeps d v ∨ s.depth ≠ 0 ∧ d = s.depth := by
  rcases s.frames_pop with same | ⟨inner, frames⟩
  · rw [same]
    exact .inl keeps
  · by_cases last : d = s.depth
    · exact .inr ⟨inner, last⟩
    · have below := Nat.lt_of_le_of_ne keeps.depth last
      have length := congrArg List.length frames
      rw [length_frames, List.length_append, List.length_singleton] at length
      obtain ⟨frame, there, kept⟩ := keeps
      rw [frames, List.getElem?_append_left (by omega)] at there
      exact .inl ⟨frame, there, kept⟩

end CallStack

namespace Bridge

variable {b b' : Bridge} {es es' : List Event} {id : ObjectId} {v : Value} {plan : List Event}

/-- Something holds an object until some events have happened, one after the other. -/
inductive Awaits (b : Bridge) (id : ObjectId) : List Event → Prop
  | block {i : Nat} : b.handles.Holds i id → b.Awaits id [.retired i, .started, .ended]
  | kept : .object id ∈ b.marking.kept → b.Awaits id [.flushed, .started, .ended]
  | queued : .object id ∈ b.marking.queue.flatten → b.Awaits id [.started, .ended]
  | running : .object id ∈ b.running → b.Awaits id [.ended]
  | frame {me : ThreadId} {d : Nat} : (b.thread me).stack.Keeps d (.object id) →
    b.Awaits id [.popped me d]

/-- What is waited for is held. -/
theorem Awaits.mem_roots (awaits : b.Awaits id plan) : id ∈ b.roots := by
  apply Bridge.mem_roots.2
  cases awaits with
  | block holds => exact .inr (.inl holds.mem_pins)
  | kept member =>
    have among := Marking.mem_values.2 (.inl (List.mem_append_right b.marking.queue.flatten member))
    exact .inr (.inr (.inr (.inr (.inl among))))
  | queued member =>
    have among := Marking.mem_values.2 (.inl (List.mem_append_left b.marking.kept member))
    exact .inr (.inr (.inr (.inr (.inl among))))
  | running member => exact .inr (.inr (.inr (.inl member)))
  | @frame me d keeps => exact .inr (.inr (.inr (.inr (.inr ⟨me, keeps.mem_values⟩))))

/-- What is held is held by the same from one bridge to the next, or is passed on by an event. -/
structure Hands (b : Bridge) (es : List Event) (b' : Bridge) : Prop where
  block : ∀ i id, b.handles.Holds i id → b'.handles.Holds i id ∨
    .retired i ∈ es ∧ .object id ∈ b'.marking.queue.flatten
  kept : ∀ v ∈ b.marking.kept, v ∈ b'.marking.kept ∨ .flushed ∈ es ∧ v ∈ b'.marking.queue.flatten
  queued : ∀ v ∈ b.marking.queue.flatten, v ∈ b'.marking.queue.flatten ∨
    .started ∈ es ∧ v ∈ b'.running
  running : ∀ v ∈ b.running, v ∈ b'.running ∨ .ended ∈ es
  frame : ∀ me d v, (b.thread me).stack.Keeps d v →
    (b'.thread me).stack.Keeps d v ∨ .popped me d ∈ es

theorem Hands.refl (b : Bridge) (es : List Event) : b.Hands es b where
  block := fun _ _ => .inl
  kept := fun _ => .inl
  queued := fun _ => .inl
  running := fun _ => .inl
  frame := fun _ _ _ => .inl

/-- An object that is held until some events have happened is held until the rest has happened, when
some of them have. -/
theorem Awaits.hands (awaits : b.Awaits id plan) (hands : b.Hands es b') :
    ∃ done rest, plan = done ++ rest ∧ done.Sublist es ∧ (rest = [] ∨ b'.Awaits id rest) := by
  have single : ∀ {e : Event}, e ∈ es → [e].Sublist es := List.singleton_sublist.2
  have stays : b'.Awaits id plan → ∃ done rest, plan = done ++ rest ∧ done.Sublist es ∧
      (rest = [] ∨ b'.Awaits id rest) := fun still =>
    ⟨[], plan, rfl, List.nil_sublist _, .inr still⟩
  cases awaits with
  | block holds =>
    rcases hands.block _ id holds with still | ⟨event, queued⟩
    · exact stays (.block still)
    · exact ⟨[_], _, rfl, single event, .inr (.queued queued)⟩
  | kept member =>
    rcases hands.kept _ member with still | ⟨event, queued⟩
    · exact stays (.kept still)
    · exact ⟨[_], _, rfl, single event, .inr (.queued queued)⟩
  | queued member =>
    rcases hands.queued _ member with still | ⟨event, running⟩
    · exact stays (.queued still)
    · exact ⟨[_], _, rfl, single event, .inr (.running running)⟩
  | running member =>
    rcases hands.running _ member with still | event
    · exact stays (.running still)
    · exact ⟨[_], [], rfl, single event, .inl rfl⟩
  | frame keeps =>
    rcases hands.frame _ _ _ keeps with still | event
    · exact stays (.frame still)
    · exact ⟨[_], [], rfl, single event, .inl rfl⟩

/-- The blocks that are not filled any more have been retired. -/
theorem mem_retirements {i : Nat} :
    .retired i ∈ b.retirements b' ↔ i ∈ b.handles.filling ∧ i ∉ b'.handles.filling := by
  simp [retirements]

theorem flatten_queued (told : Option (List ObjectId)) :
    (b.queued told).queue.flatten =
      b.marking.queue.flatten ++ (told.getD []).map .object := by
  cases told <;> simp [queued]

/-- What a retired block lets go of goes into the queue. -/
theorem hands_of_passes {told : Option (List ObjectId)} {new : List ObjectId}
    (off : b.handles.keepAlive = false) (passes : b.handles.Passes told new b'.handles)
    (marking : b'.marking = b.queued told) (running : b'.running = b.running)
    (threads : b'.threads = b.threads) : b.Hands (b.retirements b') b' := by
  have queue : b'.marking.queue.flatten = _ := (congrArg (·.queue.flatten) marking).trans
    (flatten_queued told)
  constructor
  case block =>
    intro i id holds
    rcases passes.holds off i id holds with still | ⟨left, tells⟩
    · exact .inl still
    · refine .inr ⟨mem_retirements.2 ⟨holds.1, left⟩, ?_⟩
      rw [queue]
      exact List.mem_append_right _ (List.mem_map_of_mem tells)
  case kept =>
    rw [marking]
    exact fun _ => .inl
  case queued =>
    rw [queue]
    exact fun _ member => .inl (List.mem_append_left _ member)
  case running =>
    rw [running]
    exact fun _ => .inl
  case frame =>
    unfold thread
    rw [threads]
    exact fun _ _ _ => .inl

theorem Wraps.hands {me : ThreadId} {h : Handle} (wraps : b.Wraps me v h b')
    (arranged : b.handles.Arranged) (off : b.handles.keepAlive = false) :
    b.Hands (b.retirements b') b' := by
  cases wraps with
  | word _ => exact .refl b _
  | found _ _ => exact .refl b _
  | @entered object heap w told t _ _ _ allocates =>
    have g := arranged.allocate_gives me object
    rw [allocates] at g
    obtain ⟨keepAlive, pinned, pins, holds⟩ := g.passes
    exact hands_of_passes off ⟨keepAlive, pinned, pins, holds⟩ rfl rfl rfl

theorem retire_hands (me : ThreadId) (arranged : b.handles.Arranged)
    (off : b.handles.keepAlive = false) : b.Hands (b.retirements (b.retire me)) (b.retire me) := by
  rw [retire_eq]
  exact hands_of_passes off (arranged.retireThread_passes me) rfl rfl rfl

/-- What is buffered stays so, or is flushed with the value that fills the buffer. -/
theorem keepObject_hands (w : Value) :
    b.Hands b.marking.flushes { b with marking := b.marking.keepObject w } := by
  constructor
  case block => exact fun _ _ => .inl
  case running => exact fun _ => .inl
  case frame => exact fun _ _ _ => .inl
  case kept =>
    intro v member
    unfold Marking.flushes Marking.keepObject
    by_cases full : b.marking.cache ≤ b.marking.kept.length + 1
    · simp [full, member]
    · simp [full, member]
  case queued =>
    intro v member
    unfold Marking.keepObject
    by_cases full : b.marking.cache ≤ b.marking.kept.length + 1
    · simp only [List.length_append, List.length_singleton, full, if_true, List.flatten_append]
      exact .inl (List.mem_append_left _ member)
    · simp only [List.length_append, List.length_singleton, full, if_false]
      exact .inl member

/-- What a thread does to its own frames. -/
theorem updateThread_hands (me : ThreadId) {f : Thread → Thread}
    (fine : ∀ d v, (b.thread me).stack.Keeps d v →
      (f (b.thread me)).stack.Keeps d v ∨ .popped me d ∈ es) :
    b.Hands es (b.updateThread me f) := by
  refine { Hands.refl b es with frame := fun other d v keeps => ?_ }
  rw [thread_updateThread]
  split
  next here =>
    obtain ⟨rfl, _⟩ := here
    exact fine d v keeps
  next => exact .inl keeps

theorem pop_hands (me : ThreadId) : b.Hands (b.pops me) (b.updateStack me CallStack.pop) := by
  apply updateThread_hands
  intro d v keeps
  rcases keeps.pop with still | ⟨inner, rfl⟩
  · exact .inl still
  · exact .inr (by simp [pops, inner])

theorem Act.hands (act : b.Act es b') (arranged : b.handles.Arranged)
    (off : b.handles.keepAlive = false) : b.Hands es b' := by
  cases act with
  | beside beside =>
    constructor
    case block => rw [beside.handles]; exact fun _ _ => .inl
    case kept => rw [beside.marking]; exact fun _ => .inl
    case queued => rw [beside.marking]; exact fun _ => .inl
    case running => rw [beside.running]; exact fun _ => .inl
    case frame => intro me; rw [beside.frames]; exact fun _ _ => .inl
  | wrap me v _ => exact (wrap_wraps me v b).hands arranged off
  | retire me => exact retire_hands me arranged off
  | release =>
    refine { Hands.refl b [] with block := fun i id holds => .inl ?_ }
    rcases (arranged.release_passes b.heap).holds off i id holds with still | ⟨_, none⟩
    · exact still
    · exact nomatch none
  | setMarked owner vs _ => exact { Hands.refl b _ with }
  | addMarker m _ => exact { Hands.refl b _ with }
  | enqueue vs _ =>
    refine ⟨fun _ _ => .inl, fun _ => .inl, fun v member => .inl ?_, fun _ => .inl,
      fun _ _ _ => .inl⟩
    simp only [Marking.enqueue, List.flatten_append]
    exact List.mem_append_left _ member
  | keepObject v _ => exact keepObject_hands v
  | push me block _ => exact updateThread_hands me fun d v keeps => .inl (keeps.push block)
  | keepInFrame me w _ =>
    apply updateThread_hands
    exact fun d v keeps => .inl (CallStack.keeps_keepAlive.2 (.inl keeps))
  | pop me => exact pop_hands me
  | clear me =>
    apply updateThread_hands
    intro d v keeps
    refine .inr (List.mem_map.2 ⟨d, List.mem_range.2 ?_, rfl⟩)
    exact Nat.lt_succ_of_le keeps.depth

/-- A value that is kept alive is in the innermost frame, and in the buffer or in the batch that it
has filled. -/
theorem keepAlive_awaits {me : ThreadId} (exists_ : me < b.threads.size)
    (pin : b.pinFor v = some (.object id)) :
    (b.keepAlive me v).Awaits id [.popped me (b.thread me).stack.depth] ∧
      (b.marking.flushes = [] ∧ (b.keepAlive me v).Awaits id [.flushed, .started, .ended] ∨
        b.marking.flushes = [.flushed] ∧ (b.keepAlive me v).Awaits id [.started, .ended]) := by
  have same : b.keepAlive me v = { b.updateStack me (·.keepAlive (.object id)) with
      marking := b.marking.keepObject (.object id) } := by
    unfold keepAlive
    rw [pin]
    rfl
  rw [same]
  constructor
  · apply Awaits.frame
    show ((b.updateThread me _).thread me).stack.Keeps _ _
    rw [thread_updateThread, if_pos ⟨rfl, exists_⟩]
    exact CallStack.keeps_keepAlive.2 (.inr ⟨rfl, rfl⟩)
  · by_cases full : b.marking.cache ≤ b.marking.kept.length + 1
    · refine .inr ⟨if_pos full, .queued ?_⟩
      simp [Marking.keepObject, full]
    · refine .inl ⟨if_neg full, .kept ?_⟩
      simp [Marking.keepObject, full]

theorem Wraps.queue_grows {me : ThreadId} {h : Handle} (wraps : b.Wraps me v h b') :
    b.marking.queue <+: b'.marking.queue := by
  cases wraps with
  | word _ => exact List.prefix_rfl
  | found _ _ => exact List.prefix_rfl
  | entered _ _ _ _ => exact List.prefix_append _ _

/-- Batches go to the end of the queue, and only a marker run takes them from it. -/
theorem Act.queue_grows (act : b.Act es b') : b.marking.queue <+: b'.marking.queue := by
  cases act with
  | beside beside => simp only [beside.marking, List.prefix_rfl]
  | wrap me v _ => exact (wrap_wraps me v b).queue_grows
  | retire me =>
    rw [retire_eq]
    exact List.prefix_append _ _
  | enqueue vs _ => exact List.prefix_append _ _
  | keepObject v _ => exact Marking.queue_keepObject _ v
  | release => exact List.prefix_rfl
  | setMarked owner vs _ => exact List.prefix_rfl
  | addMarker m _ => exact List.prefix_rfl
  | push me block _ => exact List.prefix_rfl
  | keepInFrame me v _ => exact List.prefix_rfl
  | pop me => exact List.prefix_rfl
  | clear me => exact List.prefix_rfl

end Bridge

namespace System

open Bridge

variable {s s' : System} {es es' : List Event} {o : Options} {id : ObjectId} {v : Value}
  {plan : List Event}

/-- A marker run begins when none is in progress, and is in progress until it ends. -/
theorem Move.progress (move : s.Move es s') : (.started ∈ es → s.progress = .idle) ∧
    (s'.progress = .idle → s.progress = .idle ∨ .ended ∈ es) := by
  cases move with
  | act act => exact ⟨fun member => (nomatch act.ofRun member), .inl⟩
  | settle => exact ⟨nofun, .inl⟩
  | start _ idle => exact ⟨fun _ => idle, nofun⟩
  | drop _ _ _ _ _ _ => exact ⟨nofun, .inl⟩
  | enter _ => exact ⟨nofun, nofun⟩
  | begin _ => exact ⟨nofun, nofun⟩
  | mark _ _ => exact ⟨nofun, nofun⟩
  | finish _ => exact ⟨fun member => by simp at member, nofun⟩
  | fail _ => exact ⟨nofun, nofun⟩
  | leave _ =>
    refine ⟨fun member => ?_, fun _ => .inr (by simp)⟩
    unfold pops at member
    split at member <;> simp at member

/-- While a marker run is in progress no other begins. -/
theorem Run.not_started (run : s.Run es s') (busy : s.progress ≠ .idle)
    (once : ¬ [Event.ended, .started].Sublist es) :
    .started ∉ es ∧ (s'.progress = .idle → .ended ∈ es) := by
  induction run with
  | refl => exact ⟨List.not_mem_nil, fun idle => absurd idle busy⟩
  | @step es es' s' s'' run move ih =>
    obtain ⟨unstarted, ended⟩ := ih fun within => once (within.trans (List.sublist_append_left _ _))
    obtain ⟨starts, ends⟩ := move.progress
    constructor
    · intro member
      rcases List.mem_append.1 member with before | now
      · exact unstarted before
      · have first := List.singleton_sublist.2 (ended (starts now))
        exact once (first.append (List.singleton_sublist.2 now))
    · intro idle
      rcases ends idle with before | now
      · exact List.mem_append_left _ (ended before)
      · exact List.mem_append_right _ now

theorem Move.queue_grows (move : s.Move es s') (unstarted : .started ∉ es) :
    s.bridge.marking.queue <+: s'.bridge.marking.queue := by
  cases move with
  | act act => exact act.queue_grows
  | start _ _ => exact absurd List.mem_cons_self unstarted
  | settle => exact List.prefix_rfl
  | drop _ _ _ _ _ _ => exact List.prefix_rfl
  | enter _ => exact List.prefix_rfl
  | begin _ => exact List.prefix_rfl
  | mark _ _ => exact List.prefix_rfl
  | finish _ => exact List.prefix_rfl
  | fail _ => exact List.prefix_rfl
  | leave _ => exact List.prefix_rfl

/-- Batches stay in the queue until a marker run begins. -/
theorem Run.queue_grows (run : s.Run es s') (unstarted : .started ∉ es) :
    s.bridge.marking.queue <+: s'.bridge.marking.queue := by
  induction run with
  | refl => exact List.prefix_rfl
  | step _ move ih =>
    rw [List.mem_append, not_or] at unstarted
    exact (ih unstarted.1).trans (move.queue_grows unstarted.2)

theorem Move.hands (move : s.Move es s') (sound : s.Sound o) (off : o.keepHandlesAlive = false) :
    s.bridge.Hands es s'.bridge := by
  cases move with
  | act act => exact act.hands sound.arranged (sound.keepAlive.trans off)
  | start me _ =>
    refine ⟨fun _ _ => .inl, fun _ => .inl, fun v member => .inr ⟨List.mem_cons_self, ?_⟩,
      fun v member => .inl ?_, fun _ _ _ => .inl⟩
    · exact List.mem_append_left _ member
    · exact List.mem_append_right _ member
  | @enter me _ =>
    constructor
    case block => exact fun _ _ => .inl
    case kept => exact fun _ => .inl
    case queued => exact fun _ => .inl
    case running => exact fun v member => .inl (List.mem_append_right _ member)
    case frame =>
      have pushes : s.bridge.Hands []
          (s.bridge.updateStack me fun stack => stack.push stack.block) :=
        updateThread_hands me fun d v keeps => .inl (keeps.push _)
      exact pushes.frame
  | @leave me _ =>
    constructor
    case block => exact fun _ _ => .inl
    case kept => exact fun _ => .inl
    case queued => exact fun _ => .inl
    case running => exact fun _ _ => .inr (by simp)
    case frame =>
      intro other d v keeps
      rcases (pop_hands (b := s.bridge) me).frame other d v keeps with still | popped
      · exact .inl still
      · exact .inr (List.mem_append_left _ popped)
  | settle => exact { Hands.refl s.bridge _ with }
  | drop _ _ _ _ _ _ => exact { Hands.refl s.bridge _ with }
  | begin _ => exact { Hands.refl s.bridge _ with }
  | mark _ _ => exact { Hands.refl s.bridge _ with }
  | finish _ => exact { Hands.refl s.bridge _ with }
  | fail _ => exact { Hands.refl s.bridge _ with }

/-- What is held until some events have happened is held for as long as not all of them have, one
after the other. -/
theorem Run.awaits (run : s.Run es s') (sound : s.Sound o) (off : o.keepHandlesAlive = false)
    (awaits : s.bridge.Awaits id plan) : ∃ done rest, plan = done ++ rest ∧ done.Sublist es ∧
      (rest = [] ∨ s'.bridge.Awaits id rest) := by
  induction run with
  | refl => exact ⟨[], plan, rfl, List.nil_sublist _, .inr awaits⟩
  | @step es es' s' s'' run move ih =>
    obtain ⟨done, rest, rfl, within, none | awaits'⟩ := ih
    · exact ⟨done, rest, rfl, within.trans (List.sublist_append_left _ _), .inl none⟩
    · obtain ⟨done', rest', rfl, within', awaits''⟩ :=
        awaits'.hands (move.hands (run.sound sound) off)
      exact ⟨done ++ done', rest', (List.append_assoc ..).symm, within.append within', awaits''⟩

theorem Run.held (run : s.Run es s') (sound : s.Sound o) (off : o.keepHandlesAlive = false)
    (awaits : s.bridge.Awaits id plan) (early : ¬ plan.Sublist es) : id ∈ s'.roots := by
  obtain ⟨done, rest, rfl, within, rfl | awaits'⟩ := run.awaits sound off awaits
  · rw [List.append_nil] at early
    exact absurd within early
  · exact mem_roots.2 (.inl awaits'.mem_roots)

/-- A wrapper that has just been made is in a block that is being filled and that holds the object
behind the wrapper. -/
theorem Sound.holds_of_wraps (sound : s.Sound o) {b : Bridge} {me : ThreadId} {h : Handle}
    (wraps : s.bridge.Wraps me v h b) (has : s.bridge.heap.Has v)
    (wordless : Handle.ofImmediate? v = none)
    (missing : s.bridge.handles.lookup s.bridge.heap v = none) (fits : b.handles.InRegion) :
    ∃ i id, h.block? = some i ∧ b.handles.Holds i id ∧ b.Resolves h id ∧ b.heap.Stands v id := by
  obtain ⟨log, faithful⟩ := sound.faithful
  obtain ⟨log', faithful'⟩ := (wraps.touches has).faithful faithful
  cases wraps with
  | word word => exact nomatch wordless.symm.trans word
  | found _ found => exact nomatch missing.symm.trans found
  | @entered object heap w told t _ _ exposes allocates =>
    have a := sound.arranged.allocate me object
    have g := sound.arranged.allocate_gives me object
    rw [allocates] at a g
    obtain ⟨i, k, inside, made, holds⟩ := g.place
    have taken : i < t.blocks.size := by
      obtain ⟨_, b, there, _⟩ := holds
      exact HandleTable.lt_size_of_block? there
    have fits' : t.InRegion := fits
    have slot : t.handleOf w = .ofSlot i k := HandleTable.handleOf_of_handle? made
    have pinned := a.pin?_new (exposes.alive has)
    obtain ⟨at_, _⟩ := faithful'.wrapperAt?_of_pin? fits pinned
    refine ⟨i, object, ?_, holds, ⟨w, at_, pinned⟩, exposes.stands⟩
    rw [slot, (Handle.block?_ofSlot (fits'.block taken) inside).1]

/-- How long what has to stay alive for native code is held, from some point of a run on. -/
structure HoldsPins (o : Options) (s : System) : Prop where
  /-- An object that gets a handle is held, and the handle resolves, until the end of the first
  marker run that begins after the block of the handle has been retired. -/
  wrapped : ∀ me v, s.bridge.heap.Has v → Handle.ofImmediate? v = none →
    s.bridge.handles.lookup s.bridge.heap v = none →
    ((wrap me v).run s.bridge).2.handles.InRegion →
    ∃ i id, ((wrap me v).run s.bridge).1.block? = some i ∧
      ((wrap me v).run s.bridge).2.heap.Stands v id ∧
      ∀ es s', Run { s with bridge := ((wrap me v).run s.bridge).2 } es s' →
        ¬ [Event.retired i, .started, .ended].Sublist es →
        id ∈ s'.roots ∧ s'.bridge.Resolves ((wrap me v).run s.bridge).1 id
  /-- What is kept alive is held until its frame has been popped and, besides, the first marker run
  has ended that begins after its batch has left the buffer. -/
  kept : ∀ me v id, me < s.bridge.threads.size → s.bridge.heap.Has v →
    s.bridge.pinFor v = some (.object id) →
    ∀ es s', Run { s with bridge := s.bridge.keepAlive me v } es s' →
      .popped me (s.bridge.thread me).stack.depth ∉ es ∨
        ¬ [Event.flushed, .started, .ended].Sublist (s.bridge.marking.flushes ++ es) →
      id ∈ s'.roots
  /-- What is queued is held until the end of the first marker run that begins, -/
  queued : ∀ id, .object id ∈ s.bridge.marking.queue.flatten → ∀ es s', s.Run es s' →
    ¬ [Event.started, .ended].Sublist es → id ∈ s'.roots
  /-- and a marker run in progress does not take it from the queue. -/
  during : s.progress ≠ .idle → ∀ es s', s.Run es s' → ¬ [Event.ended, .started].Sublist es →
    s.bridge.marking.queue <+: s'.bridge.marking.queue
  /-- The buffer has room, -/
  room : s.bridge.marking.kept.length < max 1 o.markingCache
  /-- and a value that is kept goes behind all that is buffered or queued. -/
  order : ∀ v, (s.bridge.marking.keepObject v).queue.flatten ++
    (s.bridge.marking.keepObject v).kept =
      s.bridge.marking.queue.flatten ++ s.bridge.marking.kept ++ [v]

/-- Nothing that native code relies on is let go of early. -/
theorem holdsPins (reachable : Reachable o s) (off : o.keepHandlesAlive = false) :
    s.HoldsPins o := by
  have sound := reachable.sound
  constructor
  case wrapped =>
    intro me v has wordless missing fits
    obtain ⟨i, id, place, holds, resolves, stands⟩ :=
      sound.holds_of_wraps (wrap_wraps me v s.bridge) has wordless missing fits
    refine ⟨i, id, place, stands, fun es s' run early => ?_⟩
    have sound' := (Move.act (.wrap me v has)).sound sound
    have root := run.held sound' off (.block holds) early
    exact ⟨root, (run.onward sound').resolves resolves ((run.sound sound').roots id root)⟩
  case kept =>
    intro me v id exists_ has pin es s' run early
    have sound' := (keepAlive_run me has).sound sound
    obtain ⟨frame, buffer⟩ := keepAlive_awaits exists_ pin
    rcases early with inside | early
    · exact run.held sound' off frame (mt List.singleton_sublist.1 inside)
    · rcases buffer with ⟨none, kept⟩ | ⟨one, queued⟩
      · rw [none] at early
        exact run.held sound' off kept early
      · rw [one] at early
        exact run.held sound' off queued fun within => early (within.cons_cons _)
  case queued => exact fun id member es s' run early => run.held sound off (.queued member) early
  case during =>
    intro busy es s' run once
    exact run.queue_grows (run.not_started busy once).1
  case room =>
    have room := sound.kept
    rwa [sound.cache, Nat.max_comm] at room
  case order => exact fun v => Marking.flatten_keepObject _ v

/-- An object is wrapped, its thread retires its block, and another thread begins a marker run. -/
theorem holdsPins_retired :
    let made := ((newObject (.data "Point" 16)).run (.ofOptions {})).2
    let h := ((wrap 0 (.object 0)).run made).1
    let wrapped := ((wrap 0 (.object 0)).run made).2
    let started : System := ⟨(wrapped.retire 0).takeQueue, .sorting 1⟩
    0 ∈ started.roots ∧ started.bridge.Resolves h 0 := by
  intro made h wrapped started
  have makes : (ofOptions {}).Run _ ⟨made, .idle⟩ :=
    .of_move (.act (.beside (newObject_beside rfl fun _ member => nomatch member)))
  have has : made.heap.Has (.object 0) := Heap.has_object.2 (by decide)
  have holds := holdsPins ⟨_, makes⟩ rfl
  obtain ⟨i, id, _, stands, later⟩ := holds.wrapped 0 (.object 0) has rfl (by decide) (by decide)
  have same : id = 0 := by
    rcases stands with same | ⟨n, number, _⟩
    · exact (Value.object.inj same).symm
    · exact nomatch number
  subst same
  have run : System.Run ⟨wrapped, .idle⟩ _ started :=
    (Run.of_move (.act (.retire 0))).step (.start 1 rfl)
  refine later _ started run fun within => ?_
  have ended : Event.ended ∈ _ := within.subset (by simp)
  simp [retirements] at ended

end System

end RopeBridge
