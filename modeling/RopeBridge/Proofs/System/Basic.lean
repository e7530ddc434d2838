import RopeBridge.Proofs.Bridge.History
import RopeBridge.Proofs.Handle.Faithful
import RopeBridge.Proofs.Handle.Places

/-! A bridge in use by several threads. Every act of a thread is a move of its own. A marker run
takes many moves, between which any thread may act, and objects may die between any two moves; only
a second run has to wait until the first has ended. The events of a run tell what happened on the
way to the values that are held for native code. -/
namespace RopeBridge

/-- A marker at work: what it has marked so far, and the handles that it has asked for. -/
structure Turn where
  marker : Marker
  session : MarkSession
  asked : List Handle := []

namespace Turn

/-- A marker about to work. What was marked before stays alive until it is done. -/
def ofMarker (b : Bridge) (m : Marker) : Turn where
  marker := m
  session := { previous := b.heap.marked m.owner }

/-- A marker asks for a handle to be marked. -/
def ask (turn : Turn) (b : Bridge) (h : Handle) : Turn :=
  { turn with session := Bridge.mark turn.session h b, asked := h :: turn.asked }

end Turn

inductive Event where
  /-- A block has been retired. -/
  | retired (block : Nat)
  /-- The buffered values have become a batch of the queue. -/
  | flushed
  /-- A thread has left the frame at a depth. -/
  | popped (thread : ThreadId) (depth : Nat)
  /-- What is marked on behalf of an object has been replaced from outside. -/
  | assigned (owner : ObjectId)
  /-- A marker run has begun and has taken over the queue. -/
  | started
  /-- A marker has not failed, and its owner has what it marked. -/
  | attached (turn : Turn)
  /-- A marker run has ended. -/
  | ended

namespace Marking

/-- Whether the next value that is kept fills the buffer. -/
def flushes (m : Marking) : List Event := if m.cache ≤ m.kept.length + 1 then [.flushed] else []

end Marking

namespace Bridge

/-- What happens beside handles, markers and frames: objects are made and change, and so does what
outside code and the symbol table hold. -/
structure Beside (b b' : Bridge) : Prop where
  heap : b.heap.Edited b'.heap
  handles : b'.handles = b.handles
  marking : b'.marking = b.marking
  running : b'.running = b.running
  frames : ∀ me, (b'.thread me).stack = (b.thread me).stack
  clients : ∀ v ∈ b'.clients.values, v ∈ b.clients.values ∨ b'.heap.Has v
  symbols : ∀ entry ∈ b'.symbols.entries, entry ∈ b.symbols.entries ∨ b'.heap.isAlive entry.2

/-- Objects are made and change, and nothing else does. -/
theorem Beside.within {b : Bridge} {heap : Heap} (edited : b.heap.Edited heap) :
    b.Beside { b with heap } where
  heap := edited
  handles := rfl
  marking := rfl
  running := rfl
  frames := fun _ => rfl
  clients := fun _ => .inl
  symbols := fun _ => .inl

theorem Beside.refl (b : Bridge) : b.Beside b := .within (.refl b.heap)

/-- The blocks that are being filled in one bridge and not in the next. -/
def retirements (b b' : Bridge) : List Event :=
  (b.handles.filling.filter fun i => i ∉ b'.handles.filling).map .retired

/-- The frame that a thread leaves when it pops one. The outermost is never popped. -/
def pops (b : Bridge) (me : ThreadId) : List Event :=
  if (b.thread me).stack.depth = 0 then [] else [.popped me (b.thread me).stack.depth]

/-- The frames that a thread leaves when it ends. -/
def unwinds (b : Bridge) (me : ThreadId) : List Event :=
  (List.range ((b.thread me).stack.depth + 1)).map (.popped me)

/-- What a marker has marked takes the place of what its owner held. -/
def attach (b : Bridge) (turn : Turn) : Bridge :=
  { b with heap := b.heap.setMarked turn.marker.owner turn.session.marks }

/-- What a thread may do at any time with values that it holds. -/
inductive Act (b : Bridge) : List Event → Bridge → Prop
  | beside {b' : Bridge} : b.Beside b' → b.Act [] b'
  | wrap (me : ThreadId) (v : Value) : b.heap.Has v →
    b.Act (b.retirements ((wrap me v).run b).2) ((wrap me v).run b).2
  | retire (me : ThreadId) : b.Act (b.retirements (b.retire me)) (b.retire me)
  | release : b.Act [] (releaseUnreachable.run b).2
  | setMarked (owner : ObjectId) (vs : List Value) : (∀ v ∈ vs, b.heap.Has v) →
    b.Act [.assigned owner] { b with heap := b.heap.setMarked owner vs }
  | addMarker (m : Marker) : (∀ v ∈ m.script.flatMap MarkAct.values, b.heap.Has v) →
    b.Act [] { b with marking := b.marking.addMarker m }
  | enqueue (vs : List Value) : (∀ v ∈ vs, b.heap.Has v) →
    b.Act [] { b with marking := b.marking.enqueue vs }
  | keepObject (v : Value) : b.heap.Has v →
    b.Act b.marking.flushes { b with marking := b.marking.keepObject v }
  | push (me : ThreadId) (block : Value) : b.heap.Has block →
    b.Act [] (b.updateStack me (·.push block))
  | keepInFrame (me : ThreadId) (v : Value) : b.heap.Has v →
    b.Act [] (b.updateStack me (·.keepAlive v))
  | pop (me : ThreadId) : b.Act (b.pops me) (b.updateStack me CallStack.pop)
  | clear (me : ThreadId) : b.Act (b.unwinds me) (b.updateThread me fun _ => {})

end Bridge

/-- How far a marker run has come. -/
inductive Progress where
  | idle
  /-- A thread is dropping the markers whose owners have died. -/
  | sorting (me : ThreadId)
  /-- A thread has markers left to run, besides the one at work. -/
  | marking (me : ThreadId) (waiting : List Marker) (turn : Option Turn)

namespace Progress

/-- What the marker at work holds. -/
def held : Progress → List Value
  | marking _ _ (some turn) => turn.session.previous ++ turn.session.marks
  | _ => []

end Progress

structure System where
  bridge : Bridge
  progress : Progress := .idle

namespace System

def ofOptions (o : Options) : System := { bridge := .ofOptions o }

/-- Every object that is held from outside the heap. -/
def roots (s : System) : List ObjectId := s.bridge.roots ++ Value.objects s.progress.held

/-- The moves of a system and the events they cause. -/
inductive Move (s : System) : List Event → System → Prop
  | act {es : List Event} {b : Bridge} : s.bridge.Act es b → s.Move es { s with bridge := b }
  | settle : s.Move [] { s with bridge.heap := s.bridge.heap.settle s.roots }
  | start (me : ThreadId) : s.progress = .idle → s.Move [.started] ⟨s.bridge.takeQueue, .sorting me⟩
  | drop {me : ThreadId} (kept : List Marker) (m : Marker) (rest : List Marker) :
    s.progress = .sorting me → s.bridge.marking.markers = kept ++ m :: rest →
    s.bridge.heap.isAlive m.owner = false →
    s.Move [] { s with bridge.marking.markers := kept ++ rest }
  | enter {me : ThreadId} : s.progress = .sorting me →
    s.Move [] ⟨s.bridge.enterRun me s.bridge.liveMarkers, .marking me s.bridge.liveMarkers none⟩
  | begin {me : ThreadId} {m : Marker} {waiting : List Marker} :
    s.progress = .marking me (m :: waiting) none →
    s.Move [] { s with progress := .marking me waiting (some (.ofMarker s.bridge m)) }
  | mark {me : ThreadId} {waiting : List Marker} {turn : Turn} (h : Handle) :
    s.progress = .marking me waiting (some turn) →
    s.Move [] { s with progress := .marking me waiting (some (turn.ask s.bridge h)) }
  | finish {me : ThreadId} {waiting : List Marker} {turn : Turn} :
    s.progress = .marking me waiting (some turn) →
    s.Move [.attached turn] ⟨s.bridge.attach turn, .marking me waiting none⟩
  | fail {me : ThreadId} {waiting : List Marker} {turn : Turn} :
    s.progress = .marking me waiting (some turn) →
    s.Move [] { s with progress := .marking me waiting none }
  | leave {me : ThreadId} : s.progress = .marking me [] none →
    s.Move (s.bridge.pops me ++ [.ended]) ⟨s.bridge.leaveRun me [], .idle⟩

/-- A finite run and its events, in order. -/
inductive Run (s : System) : List Event → System → Prop
  | refl : s.Run [] s
  | step {es es' : List Event} {s' s'' : System} : s.Run es s' → s'.Move es' s'' →
    s.Run (es ++ es') s''

/-- The systems that come about from a new bridge. -/
def Reachable (o : Options) (s : System) : Prop := ∃ es, (ofOptions o).Run es s

variable {s s' s'' : System} {es es' : List Event} {o : Options}

theorem Run.of_move (move : s.Move es s') : s.Run es s' :=
  show s.Run ([] ++ es) s' from .step .refl move

theorem Run.trans (first : s.Run es s') (second : s'.Run es' s'') : s.Run (es ++ es') s'' := by
  induction second with
  | refl => rwa [List.append_nil]
  | step _ move ih =>
    rw [← List.append_assoc]
    exact ih.step move

end System

end RopeBridge
