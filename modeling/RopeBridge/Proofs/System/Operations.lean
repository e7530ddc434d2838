import RopeBridge.Bridge.Call
import RopeBridge.Proofs.System.Execution

/-! The operations of a bridge as acts of threads. Most happen beside handles, markers and frames;
the others are one act or a few, one after the other. -/
namespace RopeBridge

/-- A symbol is found, or made and entered. -/
theorem SymbolTable.intern_cases (t : SymbolTable) (h : Heap) (name : Rope) (l : Ledger) :
    ((t.intern h name).run l).1.2 = (t, h) ∨ ∃ symbol, ((t.intern h name).run l).1 =
      (h.objects.size, ⟨t.entries ++ [(name, h.objects.size)]⟩, (h.add (.symbol symbol)).2) := by
  unfold intern
  rw [StateT.run_bind]
  generalize (t.lookup name).run l = found
  obtain ⟨found, l'⟩ := found
  cases found with
  | some symbol => exact .inl rfl
  | none => exact .inr ⟨_, rfl⟩

theorem SymbolTable.mem_of_findM? {f : Rope × ObjectId → Query Bool}
    {entries : List (Rope × ObjectId)} {entry : Rope × ObjectId} {l : Ledger}
    (found : ((entries.findM? f).run l).1 = some entry) : entry ∈ entries := by
  induction entries generalizing l with
  | nil => cases found
  | cons first rest ih =>
    rw [List.findM?, StateT.run_bind] at found
    generalize (f first).run l = asked at found
    obtain ⟨same, l'⟩ := asked
    cases same with
    | true =>
      cases found
      exact List.mem_cons_self
    | false => exact List.mem_cons_of_mem _ (ih found)

/-- A symbol that is found is one of the table. -/
theorem SymbolTable.mem_of_lookup {t : SymbolTable} {name : Rope} {l : Ledger} {symbol : ObjectId}
    (found : ((t.lookup name).run l).1 = some symbol) : ∃ entry ∈ t.entries, entry.2 = symbol := by
  unfold lookup at found
  split at found
  next => cases found
  next =>
    rw [StateT.run_bind] at found
    obtain ⟨entry, among, rfl⟩ := Option.map_eq_some_iff.1 found
    exact ⟨entry, mem_of_findM? among, rfl⟩

/-- The symbol of a name is in the table from then on. -/
theorem SymbolTable.mem_intern (t : SymbolTable) (h : Heap) (name : Rope) (l : Ledger) :
    ∃ entry ∈ ((t.intern h name).run l).1.2.1.entries, entry.2 = ((t.intern h name).run l).1.1 := by
  unfold intern
  rw [StateT.run_bind]
  obtain ⟨⟨found, l'⟩, ran⟩ : ∃ looked, (t.lookup name).run l = looked := ⟨_, rfl⟩
  rw [ran]
  cases found with
  | some symbol => exact mem_of_lookup (congrArg Prod.fst ran)
  | none => exact ⟨_, List.mem_append_right _ List.mem_cons_self, rfl⟩

namespace Bridge

variable {α : Type} {b : Bridge} {v : Value}

theorem newObject_beside {payload : Payload} (box : ({ payload } : Object).boxed? = none)
    (elements : ∀ v ∈ ({ payload } : Object).elements, b.heap.Has v) :
    b.Beside ((newObject payload).run b).2 := .within (Heap.add_edited box elements)

theorem share_beside (v : Value) : b.Beside ((share v).run b).2 := .within (Heap.share_edited v)

/-- A program that looks at the bridge first goes on with what it has seen. -/
theorem run_get_bind (f : Bridge → ExceptT Fault (StateM Bridge) α) :
    (get >>= f).run.run b = (f b).run.run b := rfl

/-- What is no array is left alone. -/
theorem push_cases (array v : Value) (b : Bridge) : ((push array v).run.run b).2 = b ∨
    ∃ id, ((push array v).run.run b).2 = { b with heap := b.heap.push id v } := by
  unfold push
  rw [run_get_bind]
  dsimp only
  split
  next id _ _ => exact .inr ⟨id, rfl⟩
  next => exact .inl rfl

theorem push_beside (array : Value) (has : b.heap.Has v) :
    b.Beside ((push array v).run.run b).2 := by
  rcases push_cases array v b with refused | ⟨id, pushed⟩
  · rw [refused]
    exact .refl b
  · rw [pushed]
    exact .within (Heap.push_edited id has)

/-- The owner of a native structure stays one. -/
theorem setPointer_beside {id : ObjectId} {typeName : String} {pointer word : UInt64}
    (data : ∀ o, b.heap.get? id = some o → o.payload = .data typeName pointer) :
    b.Beside { b with heap := b.heap.setPayload id (.data typeName word) } := by
  apply Beside.within
  apply Heap.setPayload_edited id
  · intro o there
    simp [Object.boxed?, data o there]
  · exact fun _ member => absurd member List.not_mem_nil

theorem query_beside (q : Query α) : b.Beside ((query q).run b).2 :=
  { Beside.refl b with }

/-- A string is replaced by another. -/
theorem setString_edited {id : ObjectId} {string : OwnedString} (string' : OwnedString)
    (found : (b.heap.get? id).bind Object.string? = some string) :
    b.heap.Edited (b.heap.setPayload id (.string string')) := by
  apply Heap.setPayload_edited id
  · intro o there
    rw [there, Option.bind_some] at found
    unfold Object.string? at found
    split at found
    next is => simp [Object.boxed?, is]
    next => cases found
  · exact fun _ member => absurd member List.not_mem_nil

/-- A string is put in the place of one, whether the operation on it fails or not. -/
theorem onString_cases (v : Value) (op : StringOp α) (b : Bridge) :
    ((onString v op).run.run b).2 = b ∨ ∃ id string string' ledger finalization,
      (b.heap.get? id).bind Object.string? = some string ∧ ((onString v op).run.run b).2 =
        { b with heap := b.heap.setPayload id (.string string'), ledger, finalization } := by
  unfold onString
  rw [run_get_bind]
  split
  next id string object found =>
    cases Value.object?_eq_some_iff.1 object
    generalize op.run.run ⟨string, b.ledger, b.finalization⟩ = done
    obtain ⟨answer, w⟩ := done
    refine .inr ⟨id, string, w.string, w.ledger, w.finalization, found, ?_⟩
    cases answer <;> rfl
  next => exact .inl rfl

theorem onString_beside (v : Value) (op : StringOp α) :
    b.Beside ((onString v op).run.run b).2 := by
  rcases onString_cases v op b with refused | ⟨id, _, string', _, _, found, done⟩
  · rw [refused]
    exact .refl b
  · rw [done]
    exact { Beside.within (setString_edited string' found) with }

/-- A name is found, or a symbol is made and entered. -/
theorem intern_cases (name : Rope) (b : Bridge) :
    (∃ ledger, ((intern name).run b).2 = { b with ledger }) ∨
      ∃ ledger symbol, ((intern name).run b).2 = { b with
        ledger
        symbols := ⟨b.symbols.entries ++ [(name, b.heap.objects.size)]⟩
        heap := (b.heap.add (.symbol symbol)).2 } := by
  have state : ((intern name).run b).2 = { b with
      ledger := ((b.symbols.intern b.heap name).run b.ledger).2
      symbols := ((b.symbols.intern b.heap name).run b.ledger).1.2.1
      heap := ((b.symbols.intern b.heap name).run b.ledger).1.2.2 } := rfl
  rw [state]
  rcases b.symbols.intern_cases b.heap name b.ledger with known | ⟨symbol, made⟩
  · rw [known]
    exact .inl ⟨_, rfl⟩
  · rw [made]
    exact .inr ⟨_, symbol, rfl⟩

theorem intern_beside (name : Rope) : b.Beside ((intern name).run b).2 := by
  rcases intern_cases name b with ⟨ledger, known⟩ | ⟨ledger, symbol, made⟩
  · rw [known]
    exact { Beside.refl b with }
  · rw [made]
    have adds : b.heap.Edited (b.heap.add (.symbol symbol)).2 :=
      Heap.add_edited rfl fun _ member => absurd member List.not_mem_nil
    refine { Beside.within adds with symbols := ?_ }
    intro entry member
    rcases List.mem_append.1 member with old | new
    · exact .inl old
    · rw [List.mem_singleton.1 new]
      exact .inr (by simp [Heap.isAlive, Heap.get?_add])

/-- Nothing is made if there is no memory for it. -/
theorem newNativeString_cases (byteLength : Nat) (b : Bridge) :
    ((newNativeString byteLength).run.run b).2 = b ∨
      ∃ text finalization, ((newNativeString byteLength).run.run b).2 =
        { b with heap := (b.heap.add (.string (.native text))).2, finalization } := by
  unfold newNativeString
  rw [run_get_bind]
  split
  next => exact .inl rfl
  next text finalization _ => exact .inr ⟨text, finalization, rfl⟩

theorem newNativeString_beside (byteLength : Nat) :
    b.Beside ((newNativeString byteLength).run.run b).2 := by
  rcases newNativeString_cases byteLength b with refused | ⟨text, finalization, made⟩
  · rw [refused]
    exact .refl b
  · rw [made]
    have adds : b.heap.Edited (b.heap.add (.string (.native text))).2 :=
      Heap.add_edited rfl fun _ member => absurd member List.not_mem_nil
    exact { Beside.within adds with }

theorem drain_beside : b.Beside (drain.run b).2 := { Beside.refl b with }

theorem startThread_beside : b.Beside b.startThread.2 := by
  refine { Beside.refl b with frames := fun me => ?_ }
  unfold startThread thread
  simp only [Array.getElem?_push]
  split
  next last => simp [last]
  next => rfl

/-- Whatever a thread has changes, but for its frames. -/
theorem updateThread_beside (me : ThreadId) {f : Thread → Thread}
    (keeps : ∀ t, (f t).stack = t.stack) : b.Beside (b.updateThread me f) := by
  refine { Beside.refl b with frames := fun other => ?_ }
  rw [thread_updateThread]
  split
  next => exact keeps _
  next => rfl

/-- Safepoint actions run beside everything else. -/
theorem withLock_beside (me : ThreadId) (wait : LockWait → α × LockWait) :
    b.Beside ((withLock me wait).run b).2 := by
  let waited := (wait ⟨b.lock, b.contender, (b.thread me).safepoints, []⟩).2
  have queued : b.Beside (b.updateThread me fun t => { t with safepoints := waited.queue }) :=
    updateThread_beside me fun _ => rfl
  exact { queued with }

/-- A level more than there is stops the thread and leaves the lock as it is. -/
theorem unlock_eq (me : ThreadId) (b : Bridge) :
    ∃ lock, ((unlock me).run b).2 = { b with lock } := by
  cases left : b.lock.unlock me with
  | ok lock =>
    refine ⟨lock, ?_⟩
    change (unlock me b).2 = _
    unfold unlock
    rw [left]
  | error overflow =>
    refine ⟨b.lock, ?_⟩
    change (unlock me b).2 = _
    unfold unlock
    rw [left]

theorem unlock_beside (me : ThreadId) : b.Beside ((unlock me).run b).2 := by
  obtain ⟨lock, unlocked⟩ := unlock_eq me b
  rw [unlocked]
  exact { Beside.refl b with }

theorem releaseLock_beside (me : ThreadId) : b.Beside ((releaseLock me).run b).2 :=
  { Beside.refl b with }

/-- A helper is a new thread, which takes the lock if it can. -/
theorem contend_eq (b : Bridge) :
    ∃ lock contender, b.contend = { b.startThread.2 with lock, contender } := by
  unfold contend
  dsimp only
  split
  next lock _ => exact ⟨lock, some b.startThread.1, rfl⟩
  next => exact ⟨b.lock, b.contender, rfl⟩

theorem contend_beside : b.Beside b.contend := by
  obtain ⟨lock, contender, contends⟩ := contend_eq b
  rw [contends]
  exact { startThread_beside with }

theorem dismissContender_eq (b : Bridge) :
    ∃ lock contender, b.dismissContender = { b with lock, contender } := by
  unfold dismissContender
  split
  next helper _ => exact ⟨b.lock.unlocked helper, none, rfl⟩
  next => exact ⟨b.lock, b.contender, rfl⟩

theorem dismissContender_beside : b.Beside b.dismissContender := by
  obtain ⟨lock, contender, dismisses⟩ := dismissContender_eq b
  rw [dismisses]
  exact { Beside.refl b with }

theorem hold_beside {clients : Clients} (has : ∀ v ∈ clients.values, b.heap.Has v) :
    b.Beside { b with clients } :=
  { Beside.refl b with clients := fun v member => .inr (has v member) }

/-- What goes on beside handles, markers and frames. -/
inductive Errand : Type 1
  | ask {α : Type} (q : Query α)
  | concat (left right : Rope)
  | onString {α : Type} (v : Value) (op : StringOp α)
  | newObject (payload : Payload)
  | newNativeString (byteLength : Nat)
  | intern (name : Rope)
  | push (array v : Value)
  | share (v : Value)
  | setPointer (id : ObjectId) (typeName : String) (word : UInt64)
  /-- Finalizers are registered, run or let go of. -/
  | finalize (f : (Owner → Bool) → Finalization → Finalization)
  | startThread
  | withLock {α : Type} (me : ThreadId) (wait : LockWait → α × LockWait)
  | unlock (me : ThreadId)
  | releaseLock (me : ThreadId)
  | contend
  | dismissContender
  | post (me : ThreadId) (action : SafepointAction)
  | count (me : ThreadId) (scans : ScanCounts)
  /-- Outside code lets go of what it held and holds these. -/
  | hold (clients : Clients)

namespace Errand

def perform (b : Bridge) : Errand → Bridge
  | ask q => ((query q).run b).2
  | concat left right => ((Bridge.concat left right).run.run b).2
  | onString v op => ((Bridge.onString v op).run.run b).2
  | newObject payload => ((Bridge.newObject payload).run b).2
  | newNativeString byteLength => ((Bridge.newNativeString byteLength).run.run b).2
  | intern name => ((Bridge.intern name).run b).2
  | push array v => ((Bridge.push array v).run.run b).2
  | share v => ((Bridge.share v).run b).2
  | setPointer id typeName word => { b with heap := b.heap.setPayload id (.data typeName word) }
  | finalize f => { b with finalization := f b.isOwnerAlive b.finalization }
  | startThread => b.startThread.2
  | withLock me wait => ((Bridge.withLock me wait).run b).2
  | unlock me => ((Bridge.unlock me).run b).2
  | releaseLock me => ((Bridge.releaseLock me).run b).2
  | contend => b.contend
  | dismissContender => b.dismissContender
  | post me action =>
    b.updateThread me fun t => { t with safepoints := t.safepoints ++ [action] }
  | count me scans => b.updateThread me fun t => { t with scans }
  | hold clients => { b with clients }

/-- What is put into objects or held is alive. Boxes are made for handles alone, and a pointer is
set in what has one. -/
def Fits (b : Bridge) : Errand → Prop
  | newObject payload => ({ payload } : Object).boxed? = none ∧
      ∀ v ∈ ({ payload } : Object).elements, b.heap.Has v
  | push _ v => b.heap.Has v
  | setPointer id typeName _ =>
    ∃ o pointer, b.heap.get? id = some o ∧ o.payload = .data typeName pointer
  | hold clients => ∀ v ∈ clients.values, b.heap.Has v
  | _ => True

theorem perform_beside (e : Errand) (fits : e.Fits b) : b.Beside (e.perform b) := by
  cases e with
  | ask q => exact query_beside q
  | concat left right => exact { Beside.refl b with }
  | onString v op => exact onString_beside v op
  | newObject payload => exact newObject_beside fits.1 fits.2
  | newNativeString byteLength => exact newNativeString_beside byteLength
  | intern name => exact intern_beside name
  | push array v => exact push_beside array fits
  | share v => exact share_beside v
  | setPointer id typeName word =>
    obtain ⟨o, pointer, there, data⟩ := fits
    exact setPointer_beside fun o' there' => Option.some.inj (there.symm.trans there') ▸ data
  | finalize f => exact { Beside.refl b with }
  | startThread => exact startThread_beside
  | withLock me wait => exact withLock_beside me wait
  | unlock me => exact unlock_beside me
  | releaseLock me => exact releaseLock_beside me
  | contend => exact contend_beside
  | dismissContender => exact dismissContender_beside
  | post me action => exact updateThread_beside me fun _ => rfl
  | count me scans => exact updateThread_beside me fun _ => rfl
  | hold clients => exact hold_beside fits

end Errand

/-- What is asked of a bridge in one go. -/
inductive Operation : Type 1
  | errand (e : Errand)
  | settle
  | wrap (me : ThreadId) (v : Value)
  | wrapperFor (me : ThreadId) (v : Value)
  | symbolHandle (me : ThreadId) (name : String)
  | markValue (me : ThreadId) (session : MarkSession) (v : Value)
  | retire (me : ThreadId)
  | endThread (me : ThreadId)
  | releaseUnreachable
  | setMarked (owner : ObjectId) (vs : List Value)
  | addMarker (m : Marker)
  | enqueue (vs : List Value)
  | keepObject (v : Value)
  | push (me : ThreadId) (block : Value)
  | keepInFrame (me : ThreadId) (v : Value)
  | keepAlive (me : ThreadId) (v : Value)
  | pop (me : ThreadId)
  | enterCall (me : ThreadId) (block : Value)
  | leaveCall (me : ThreadId) (entrance : Entrance)
  | runMarkers (me : ThreadId)
  | collect (me : ThreadId)

namespace Operation

def perform (b : Bridge) : Operation → Bridge
  | errand e => e.perform b
  | settle => b.settle
  | wrap me v => ((Bridge.wrap me v).run b).2
  | wrapperFor me v => ((Bridge.wrapperFor me v).run b).2
  | symbolHandle me name => ((Bridge.symbolHandle me name).run b).2
  | markValue me session v => ((Bridge.markValue me session v).run b).2
  | retire me => b.retire me
  | endThread me => b.endThread me
  | releaseUnreachable => (Bridge.releaseUnreachable.run b).2
  | setMarked owner vs => { b with heap := b.heap.setMarked owner vs }
  | addMarker m => { b with marking := b.marking.addMarker m }
  | enqueue vs => { b with marking := b.marking.enqueue vs }
  | keepObject v => { b with marking := b.marking.keepObject v }
  | push me block => b.updateStack me (·.push block)
  | keepInFrame me v => b.updateStack me (·.keepAlive v)
  | keepAlive me v => b.keepAlive me v
  | pop me => b.updateStack me CallStack.pop
  | enterCall me block => ((Bridge.enterCall me block).run b).2
  | leaveCall me entrance => ((Bridge.leaveCall me entrance).run b).2
  | runMarkers me => ((Bridge.runMarkers me).run b).2
  | collect me => ((Bridge.collect me).run b).2

/-- The values that it names are alive. -/
def Fits (b : Bridge) : Operation → Prop
  | errand e => e.Fits b
  | wrap _ v | wrapperFor _ v | markValue _ _ v | keepObject v | keepInFrame _ v | keepAlive _ v =>
    b.heap.Has v
  | push _ block | enterCall _ block => b.heap.Has block
  | setMarked _ vs | enqueue vs => ∀ v ∈ vs, b.heap.Has v
  | addMarker m => ∀ v ∈ m.script.flatMap MarkAct.values, b.heap.Has v
  | _ => True

end Operation

/-- The bridges that operations one after another lead to from a new one. -/
inductive Performed (o : Options) : Bridge → Prop
  | start : Performed o (ofOptions o)
  | next {b : Bridge} (op : Operation) : Performed o b → op.Fits b → Performed o (op.perform b)

/-- What a value is kept by is alive if the value is. -/
theorem has_pinFor (has : b.heap.Has v) : b.heap.Has ((b.pinFor v).getD v) := by
  cases pin : b.pinFor v with
  | none => exact has
  | some pinned =>
    rw [Option.getD_some]
    unfold pinFor at pin
    split at pin
    next =>
      cases pin
      exact has
    next =>
      obtain ⟨id, found, rfl⟩ := Option.map_eq_some_iff.1 pin
      obtain ⟨w, _, pinned⟩ := Option.bind_eq_some_iff.1 found
      exact Heap.has_object.2 (HandleTable.isAlive_of_pin? pinned)

end Bridge

namespace System

variable {α : Type} {s : System} {es : List Event} {o : Options} {v : Value} {x : StateM Bridge α}

theorem Executes.of_act (act : s.bridge.Act es (x.run s.bridge).2) :
    s.Executes x fun _ s' => s'.progress = s.progress := ⟨es, _, .of_move (.act act), rfl, rfl⟩

theorem Executes.of_beside (beside : s.bridge.Beside (x.run s.bridge).2) :
    s.Executes x fun _ s' => s'.progress = s.progress := .of_act (.beside beside)

/-- A program that ends between marker runs leads there by a run. -/
theorem Executes.run {Q : α → System → Prop} (executes : s.Executes x Q)
    (idle : ∀ a s', Q a s' → s'.progress = .idle) :
    ∃ es, s.Run es ⟨(x.run s.bridge).2, .idle⟩ := by
  obtain ⟨es, ⟨bridge, progress⟩, run, rfl, fine⟩ := executes
  cases (idle _ _ fine : progress = .idle)
  exact ⟨es, run⟩

theorem wrap_executes (me : ThreadId) (has : s.bridge.heap.Has v) :
    s.Executes (Bridge.wrap me v) fun _ s' => s'.progress = s.progress :=
  .of_act (.wrap me v has)

/-- Finding the wrapper of a value is wrapping it. -/
theorem wrapperFor_executes (me : ThreadId) (has : s.bridge.heap.Has v) :
    s.Executes (Bridge.wrapperFor me v) fun _ s' => s'.progress = s.progress := by
  have act := Bridge.Act.wrap (b := s.bridge) me v has
  rw [Bridge.wrap_state] at act
  exact .of_act act

/-- The symbol of a name is held by the table. -/
theorem intern_executes (sound : s.Sound o) (name : Rope) :
    s.Executes (Bridge.intern name) fun symbol s' =>
      s'.bridge.heap.Has symbol ∧ s'.progress = s.progress := by
  have move : s.Move [] { s with bridge := ((Bridge.intern name).run s.bridge).2 } :=
    .act (.beside (Bridge.intern_beside name))
  refine ⟨[], _, .of_move move, rfl, Heap.has_object.2 ?_, rfl⟩
  apply (move.sound sound).bridge_roots
  exact Bridge.mem_roots.2 (.inl (SymbolTable.mem_intern ..))

theorem symbolHandle_executes (sound : s.Sound o) (me : ThreadId) (name : String) :
    s.Executes (Bridge.symbolHandle me name) fun _ s' => s'.progress = s.progress := by
  have asks : s.Executes (Bridge.query (Rope.utf8 name)) fun _ s' =>
      s'.Sound o ∧ s'.progress = s.progress := by
    have move : s.Move [] { s with bridge := ((Bridge.query (Rope.utf8 name)).run s.bridge).2 } :=
      .act (.beside (Bridge.query_beside _))
    exact ⟨[], _, .of_move move, rfl, move.sound sound, rfl⟩
  refine .bind asks fun rope s₁ ⟨sound₁, same₁⟩ => ?_
  refine .bind (intern_executes sound₁ rope) fun symbol s₂ ⟨has, same₂⟩ => ?_
  refine (wrap_executes me has).mono fun _ _ same₃ => ?_
  exact same₃.trans (same₂.trans same₁)

theorem markValue_executes (me : ThreadId) (session : MarkSession) (has : s.bridge.heap.Has v) :
    s.Executes (Bridge.markValue me session v) fun _ s' => s'.progress = s.progress :=
  .bind (wrap_executes me has) fun _ _ same => .look (.pure same)

/-- A thread that ends retires its block and leaves all its frames. -/
theorem endThread_run (me : ThreadId) (s : System) :
    s.Run (s.bridge.retirements (s.bridge.retire me) ++ (s.bridge.retire me).unwinds me)
      { s with bridge := s.bridge.endThread me } :=
  (Run.of_move (.act (.retire me))).step (.act (.clear me))

/-- A value that is kept alive goes into the innermost frame and into the buffer. -/
theorem keepAlive_run (me : ThreadId) (has : s.bridge.heap.Has v) :
    s.Run s.bridge.marking.flushes { s with bridge := s.bridge.keepAlive me v } := by
  have pinned := Bridge.has_pinFor has
  exact (Run.of_move (.act (.keepInFrame me _ pinned))).step (.act (.keepObject _ pinned))

theorem collect_executes (sound : s.Sound o) (idle : s.progress = .idle) (me : ThreadId) :
    s.Executes (Bridge.collect me) fun _ s' => s'.progress = .idle := by
  refine .bind (runMarkers_executes sound idle me) fun _ s₁ ⟨_, idle₁⟩ => ?_
  refine .bind (.of_act .release) fun _ s₂ same₂ => ?_
  refine .bind (.of_beside Bridge.drain_beside) fun _ s₃ same₃ => .pure ?_
  exact (same₃.trans same₂).trans idle₁

theorem enterCall_executes (me : ThreadId) {block : Value} (has : s.bridge.heap.Has block) :
    s.Executes (Bridge.enterCall me block) fun _ s' => s'.progress = s.progress := by
  refine .change (.of_move (.act (.push me block has))) rfl (.look ?_)
  split
  next =>
    refine .bind (.of_beside (Bridge.withLock_beside me _)) ?_
    rintro ⟨acquisition, ran⟩ s' same
    have pops := Run.of_move (.act (.pop me) : s'.Move _ _)
    cases acquisition with
    | taken => exact .pure same
    | interrupted fault => exact .change pops rfl (.pure same)
    | stopped overflow => exact .change pops rfl (.pure same)
    | blocked => exact .change pops rfl (.pure same)
  next => exact .pure rfl

theorem leaveCall_executes (me : ThreadId) (entrance : Bridge.Entrance) (s : System) :
    s.Executes (Bridge.leaveCall me entrance) fun _ s' => s'.progress = s.progress := by
  have pops : ∀ (stop : Option Overflow) (s' : System), s'.progress = s.progress →
      s'.Executes (do modify fun b => b.updateStack me CallStack.pop; return stop) fun _ s'' =>
        s''.progress = s.progress :=
    fun _ _ same => .change (.of_move (.act (.pop me))) rfl (.pure same)
  unfold Bridge.leaveCall
  split
  next => exact .bind (.of_beside (Bridge.unlock_beside me)) pops
  next => exact .bind (.pure rfl) pops

/-- Every operation between marker runs is a run, and so is each that is a marker run itself. -/
theorem operation_run (sound : s.Sound o) (idle : s.progress = .idle) (op : Bridge.Operation)
    (fits : op.Fits s.bridge) : ∃ es, s.Run es ⟨op.perform s.bridge, .idle⟩ := by
  have back : ∀ {α : Type} (_ : α) (s' : System), s'.progress = s.progress → s'.progress = .idle :=
    fun _ _ same => same.trans idle
  have once : ∀ {es : List Event} {b : Bridge}, s.bridge.Act es b → ∃ es, s.Run es ⟨b, .idle⟩ := by
    intro es b act
    rw [← idle]
    exact ⟨es, .of_move (.act act)⟩
  cases op with
  | errand e => exact once (.beside (e.perform_beside fits))
  | settle =>
    have none : s.progress.held = [] := by rw [idle]; rfl
    rw [← idle]
    exact ⟨[], settle_run none⟩
  | wrap me v => exact once (.wrap me v fits)
  | wrapperFor me v => exact (wrapperFor_executes me fits).run back
  | symbolHandle me name => exact (symbolHandle_executes sound me name).run back
  | markValue me session v => exact (markValue_executes me session fits).run back
  | retire me => exact once (.retire me)
  | endThread me =>
    rw [← idle]
    exact ⟨_, endThread_run me s⟩
  | releaseUnreachable => exact once .release
  | setMarked owner vs => exact once (.setMarked owner vs fits)
  | addMarker m => exact once (.addMarker m fits)
  | enqueue vs => exact once (.enqueue vs fits)
  | keepObject v => exact once (.keepObject v fits)
  | push me block => exact once (.push me block fits)
  | keepInFrame me v => exact once (.keepInFrame me v fits)
  | keepAlive me v =>
    rw [← idle]
    exact ⟨_, keepAlive_run me fits⟩
  | pop me => exact once (.pop me)
  | enterCall me block => exact (enterCall_executes me fits).run back
  | leaveCall me entrance => exact (leaveCall_executes me entrance s).run back
  | runMarkers me => exact (runMarkers_executes sound idle me).run fun _ _ ended => ended.2
  | collect me => exact (collect_executes sound idle me).run fun _ _ ended => ended

end System

/-- What operations lead to is what some run leads to, so all that is said of reachable systems
holds of it. -/
theorem Bridge.Performed.reachable {o : Options} {b : Bridge} (performed : Performed o b) :
    System.Reachable o ⟨b, .idle⟩ := by
  induction performed with
  | start => exact ⟨[], .refl⟩
  | next op _ fits ih =>
    obtain ⟨es, run⟩ := System.operation_run ih.sound rfl op fits
    obtain ⟨before, reached⟩ := ih
    exact ⟨before ++ es, reached.trans run⟩

end RopeBridge
