import RopeBridge.Proofs.Bridge.Identity
import RopeBridge.Proofs.Heap.Sharing
import RopeBridge.Proofs.System.Operations

/-! Sharing and wrapping through whole runs. Each move of a system writes to the heap once at most.
An object that has got a handle is shared, so wrapping it again does no more than sharing it, and
both reach all that they should as long as no write lets a shared object hold a private one. -/
namespace RopeBridge

namespace Bridge

/-- Every object with a handle that resolves is shared. -/
def SharesHandled (b : Bridge) : Prop :=
  ∀ id w, b.handles.lookup b.heap (.object id) = some w → b.heap.isShared id

/-- Sharing a value shares all that can be reached from it. -/
def ShareExposes (b : Bridge) : Prop :=
  ∀ v, b.heap.Has v → ((share v).run b).2.heap.Exposed v

/-- Wrapping a value shares all that can be reached from it. -/
def WrapExposes (b : Bridge) : Prop :=
  ∀ me v, b.heap.Has v → ((wrap me v).run b).2.heap.Exposed v

variable {b b' : Bridge} {me : ThreadId} {v : Value} {id : ObjectId} {w : WrapperId}
  {log : List Value}

/-- A value that is found has been found before, or has just been exposed. -/
theorem Touches.lookup_cases (touches : b.Touches b') (f : b.handles.Faithful b.heap log)
    (found : b'.handles.lookup b'.heap v = some w) :
    b.handles.lookup b.heap v = some w ∨
      b.heap.Has v ∧ ∃ object, b.heap.Exposes v object b'.heap := by
  have later := (touches.onward f).later
  obtain ⟨entry, live⟩ := HandleTable.lookup_eq_some_iff.1 found
  cases touches with
  | edited heap handles =>
    rw [handles] at entry live
    exact .inl (HandleTable.lookup_eq_some_iff.2 ⟨entry, f.live_of_later later live⟩)
  | marked has heap handles =>
    rw [handles] at entry live
    exact .inl (HandleTable.lookup_eq_some_iff.2 ⟨entry, f.live_of_later later live⟩)
  | @entered me u object new told t wordless missing has exposes allocates handles =>
    have a := f.arranged.allocate me object
    rw [allocates] at a
    rw [handles, HandleTable.getElem?_enter, a.entries] at entry
    split at entry
    next same =>
      cases Value.rank_injective same
      exact .inr ⟨has, object, exposes⟩
    next =>
      -- A wrapper that an old entry names is not the new one.
      obtain ⟨_, made, _⟩ := f.entry v.rank w entry
      have inside := (List.getElem?_eq_some_iff.1 made).1
      rw [handles] at live
      obtain ⟨x, there, unreleased, alive⟩ := HandleTable.isLive_iff.1 live
      rcases a.wrapper_cases there with ⟨rfl, _⟩ | ⟨_, before⟩
      · exact absurd (a.fresh.trans f.length) (Nat.ne_of_lt inside)
      · have live' := HandleTable.isLive_iff.2 ⟨x, before, unreleased, alive⟩
        exact .inl (HandleTable.lookup_eq_some_iff.2 ⟨entry, f.live_of_later later live'⟩)
  | retired heap handles =>
    rw [handles, HandleTable.retireThread_entries] at entry
    rw [heap, handles, HandleTable.isLive, HandleTable.pin?_retireThread] at live
    exact .inl (HandleTable.lookup_eq_some_iff.2 ⟨entry, live⟩)
  | released heap handles =>
    have kept : b'.handles.entries[v.rank]? =
        b.handles.entries[v.rank]?.filter (b.handles.isLive b.heap) := by
      rw [handles]
      exact Std.TreeMap.getElem?_filter'
    rw [kept, Option.filter_eq_some_iff] at entry
    exact .inl (HandleTable.lookup_eq_some_iff.2 entry)

/-- Wrapping an object does to the heap what sharing it does. -/
theorem Wraps.heap_eq {h : Handle} (wraps : b.Wraps me (.object id) h b')
    (handled : b.SharesHandled) : b'.heap = (b.heap.share (.object id)).2 := by
  cases wraps with
  | word word => exact nomatch word
  | found _ found => rw [Heap.share_of_isShared (handled id _ found)]
  | entered _ _ exposes _ =>
    cases exposes
    rfl

/-- What has been done to the heap is one write. -/
def Writes (b b' : Bridge) : Prop := ∃ w, b'.heap = b.heap.write w

theorem Writes.refl (b : Bridge) : b.Writes b := ⟨.nothing, rfl⟩

theorem push_heap (isArray : b.heap.kindOf id = .array) :
    ((push (.object id) v).run.run b).2.heap = b.heap.push id v := by
  unfold push
  rw [run_get_bind]
  simp only [Value.object?_object, Heap.kind, Value.kind, isArray]
  rfl

/-- An operation that is refused writes nothing. -/
theorem push_writes (array v : Value) : b.Writes ((push array v).run.run b).2 := by
  rcases push_cases array v b with refused | ⟨id, pushed⟩
  · rw [refused]
    exact .refl b
  · rw [pushed]
    exact ⟨.push id v, rfl⟩

theorem onString_writes {α : Type} (v : Value) (op : StringOp α) :
    b.Writes ((onString v op).run.run b).2 := by
  rcases onString_cases v op b with refused | ⟨id, _, string', _, _, _, done⟩
  · rw [refused]
    exact .refl b
  · rw [done]
    exact ⟨.replace id (.string string'), rfl⟩

theorem intern_writes (name : Rope) : b.Writes ((intern name).run b).2 := by
  rcases intern_cases name b with ⟨ledger, known⟩ | ⟨ledger, symbol, made⟩
  · rw [known]
    exact ⟨.nothing, rfl⟩
  · rw [made]
    exact ⟨.make (.symbol symbol), rfl⟩

theorem newNativeString_writes (byteLength : Nat) :
    b.Writes ((newNativeString byteLength).run.run b).2 := by
  rcases newNativeString_cases byteLength b with refused | ⟨text, finalization, made⟩
  · rw [refused]
    exact .refl b
  · rw [made]
    exact ⟨.make (.string (.native text)), rfl⟩

/-- Whatever goes on beside handles, markers and frames writes once at most. -/
theorem Errand.perform_writes (e : Errand) : b.Writes (e.perform b) := by
  cases e with
  | onString v op => exact onString_writes v op
  | newObject payload => exact ⟨.make payload, rfl⟩
  | newNativeString byteLength => exact newNativeString_writes byteLength
  | intern name => exact intern_writes name
  | push array v => exact push_writes array v
  | share v => exact ⟨.share v, rfl⟩
  | setPointer id typeName word => exact ⟨.replace id (.data typeName word), rfl⟩
  | unlock me =>
    obtain ⟨lock, unlocks⟩ := unlock_eq me b
    have heap := congrArg Bridge.heap unlocks
    exact ⟨.nothing, heap⟩
  | contend =>
    obtain ⟨lock, contender, contends⟩ := contend_eq b
    have heap := congrArg Bridge.heap contends
    exact ⟨.nothing, heap⟩
  | dismissContender =>
    obtain ⟨lock, contender, dismisses⟩ := dismissContender_eq b
    have heap := congrArg Bridge.heap dismisses
    exact ⟨.nothing, heap⟩
  | ask q => exact ⟨.nothing, rfl⟩
  | concat left right => exact ⟨.nothing, rfl⟩
  | finalize f => exact ⟨.nothing, rfl⟩
  | startThread => exact ⟨.nothing, rfl⟩
  | withLock me wait => exact ⟨.nothing, rfl⟩
  | releaseLock me => exact ⟨.nothing, rfl⟩
  | post me action => exact ⟨.nothing, rfl⟩
  | count me scans => exact ⟨.nothing, rfl⟩
  | hold clients => exact ⟨.nothing, rfl⟩

theorem Wraps.writes {h : Handle} (wraps : b.Wraps me v h b') : b.Writes b' := by
  cases wraps with
  | word _ => exact .refl b
  | found _ _ => exact .refl b
  | entered _ _ exposes _ =>
    cases exposes with
    | object => exact ⟨.share _, rfl⟩
    | number n => exact ⟨.make (.boxed n), rfl⟩

/-- Every act writes once at most, if what happens beside handles does. -/
theorem Act.writes {es : List Event} (act : b.Act es b')
    (beside : b.Beside b' → b.Writes b') : b.Writes b' := by
  cases act with
  | beside happens => exact beside happens
  | wrap me v _ => exact (wrap_wraps me v b).writes
  | retire me => exact ⟨.nothing, retire_heap me b⟩
  | release => exact ⟨.nothing, rfl⟩
  | setMarked owner vs _ => exact ⟨.assign owner vs, rfl⟩
  | addMarker m _ => exact ⟨.nothing, rfl⟩
  | enqueue vs _ => exact ⟨.nothing, rfl⟩
  | keepObject v _ => exact ⟨.nothing, rfl⟩
  | push me block _ => exact ⟨.nothing, rfl⟩
  | keepInFrame me v _ => exact ⟨.nothing, rfl⟩
  | pop me => exact ⟨.nothing, rfl⟩
  | clear me => exact ⟨.nothing, rfl⟩

theorem shareExposes_iff (whole : b.heap.Whole) : b.ShareExposes ↔ b.heap.Sealed :=
  Heap.exposed_share_iff whole

theorem wrapExposes_iff (whole : b.heap.Whole) (handled : b.SharesHandled) :
    b.WrapExposes ↔ b.heap.Sealed := by
  rw [← shareExposes_iff whole]
  constructor
  · intro exposes v has id object
    cases Value.object?_eq_some_iff.1 object
    have exposed := exposes 0 (.object id) has
    rw [(wrap_wraps 0 (.object id) b).heap_eq handled] at exposed
    exact exposed id rfl
  · intro exposes me v has id object
    cases Value.object?_eq_some_iff.1 object
    rw [(wrap_wraps me (.object id) b).heap_eq handled]
    exact exposes (.object id) has id rfl

end Bridge

namespace System

open Bridge

/-- A run from a new bridge: the systems that it has left behind, each with what the move from it
did to the heap. -/
inductive Course (o : Options) : List (System × Heap.Write) → System → Prop
  | start : Course o [] (ofOptions o)
  | move {log : List (System × Heap.Write)} {es : List Event} {s s' : System} (w : Heap.Write) :
    Course o log s → s.Move es s' → s'.bridge.heap = s.bridge.heap.write w →
    Course o (log ++ [(s, w)]) s'

/-- Every system of a run, the last included. -/
def visited (log : List (System × Heap.Write)) (s : System) : List System := log.map (·.1) ++ [s]

/-- A write of the run has let a shared object hold a private one. -/
def Breached (log : List (System × Heap.Write)) : Prop :=
  ∃ entry ∈ log, entry.1.bridge.heap.Breaches entry.2

variable {s s' : System} {es : List Event} {o : Options} {log : List (System × Heap.Write)}
  {w : Heap.Write}

/-- Every move writes once at most, those of a marker run included. -/
theorem Move.writes (move : s.Move es s')
    (beside : s.bridge.Beside s'.bridge → s.bridge.Writes s'.bridge) :
    s.bridge.Writes s'.bridge := by
  cases move with
  | act act => exact act.writes beside
  | settle => exact ⟨.settle s.roots, rfl⟩
  | @finish me waiting turn _ => exact ⟨.assign turn.marker.owner turn.session.marks, rfl⟩
  | start me _ => exact ⟨.nothing, rfl⟩
  | drop _ _ _ _ _ _ => exact ⟨.nothing, rfl⟩
  | enter _ => exact ⟨.nothing, rfl⟩
  | begin _ => exact ⟨.nothing, rfl⟩
  | mark h _ => exact ⟨.nothing, rfl⟩
  | fail _ => exact ⟨.nothing, rfl⟩
  | leave _ => exact ⟨.nothing, rfl⟩

/-- A run goes on with every move whose act, if it happens beside handles, writes once at most. -/
theorem Course.goes_on (course : Course o log s) (move : s.Move es s')
    (beside : s.bridge.Beside s'.bridge → s.bridge.Writes s'.bridge) :
    ∃ w, Course o (log ++ [(s, w)]) s' := by
  obtain ⟨w, written⟩ := move.writes beside
  exact ⟨w, course.move w move written⟩

/-- A run goes on with whatever is done beside handles, markers and frames. -/
theorem Course.errand (course : Course o log s) (e : Errand) (fits : e.Fits s.bridge) :
    ∃ w, Course o (log ++ [(s, w)]) { s with bridge := e.perform s.bridge } :=
  course.goes_on (.act (.beside (e.perform_beside fits))) fun _ => e.perform_writes

theorem Course.reachable (course : Course o log s) : Reachable o s := by
  induction course with
  | start => exact ⟨[], .refl⟩
  | move w _ move _ ih =>
    obtain ⟨es, run⟩ := ih
    exact ⟨_, run.step move⟩

/-- A move keeps objects shared that have got handles. -/
theorem Move.sharesHandled (move : s.Move es s') (sound : s.Sound o)
    (written : s'.bridge.heap = s.bridge.heap.write w) (handled : s.bridge.SharesHandled) :
    s'.bridge.SharesHandled := by
  intro id u found
  obtain ⟨log', faithful'⟩ := move.faithful sound
  obtain ⟨log, faithful⟩ := sound.faithful
  have alive : s'.bridge.heap.isAlive id := by
    obtain ⟨other, pinned, same | ⟨n, number, _⟩⟩ := faithful'.stands_of_lookup found
    · cases same
      exact HandleTable.isAlive_of_pin? pinned
    · exact nomatch number
  have old : s.bridge.handles.lookup s.bridge.heap (.object id) = some u →
      s'.bridge.heap.isShared id := by
    intro found
    rw [written] at alive ⊢
    exact Heap.isShared_write (handled id u found) alive
  rcases move.touches sound with touches | rfl
  · rcases touches.lookup_cases faithful found with before | ⟨has, object, exposes⟩
    · exact old before
    · generalize s'.bridge.heap = heap at exposes
      cases exposes
      exact Heap.isShared_share rfl (has id rfl)
  · obtain ⟨entry, live⟩ := HandleTable.lookup_eq_some_iff.1 found
    have live' := faithful.live_of_later (Heap.settle_later _) live
    exact old (HandleTable.lookup_eq_some_iff.2 ⟨entry, live'⟩)

theorem Course.sharesHandled (course : Course o log s) : s.bridge.SharesHandled := by
  induction course with
  | start =>
    intro id u found
    obtain ⟨_, made, _⟩ := (HandleTable.faithful_ofOptions _ _).entry _ u
      (HandleTable.lookup_eq_some_iff.1 found).1
    exact nomatch made
  | move w course move written ih => exact move.sharesHandled course.reachable.sound written ih

theorem visited_move : visited (log ++ [(s, w)]) s' = visited log s ++ [s'] := by
  simp [visited]

theorem mem_visited_self : s ∈ visited log s := List.mem_append_right _ List.mem_cons_self

theorem breached_move : Breached (log ++ [(s, w)]) ↔ Breached log ∨ s.bridge.heap.Breaches w := by
  simp only [Breached, List.mem_append, List.mem_singleton, or_and_right, exists_or,
    exists_eq_left]

/-- What holds of the last system of every run holds of all that a run visits. -/
theorem Course.visits {P : System → Prop} (course : Course o log s)
    (holds : ∀ {log s}, Course o log s → P s) : ∀ t ∈ visited log s, P t := by
  induction course with
  | start =>
    intro t member
    rw [List.mem_singleton.1 member]
    exact holds .start
  | move w course move written ih =>
    rw [visited_move, List.forall_mem_append, List.forall_mem_singleton]
    exact ⟨ih, holds (course.move w move written)⟩

/-- The heaps of a run are sealed up to the first breach, which breaks the seal. -/
theorem Course.sealed_iff (course : Course o log s) :
    (∀ t ∈ visited log s, t.bridge.heap.Sealed) ↔ ¬ Breached log := by
  induction course with
  | start =>
    have empty : (ofOptions o).bridge.heap.Sealed := fun id isShared => by
      obtain ⟨_, there, _⟩ := Heap.isShared_iff.1 isShared
      exact nomatch there
    simp [visited, Breached, empty]
  | @move log es s s' w course move written ih =>
    have sound := course.reachable.sound
    rw [visited_move, List.forall_mem_append, List.forall_mem_singleton, breached_move, not_or, ih]
    refine and_congr_right fun intact => ?_
    have seals := ih.2 intact s mem_visited_self
    have whole := move.whole sound
    rw [written] at whole ⊢
    exact ⟨fun seals' breaches => Heap.not_sealed_of_breaches breaches seals',
      seals.write sound.whole whole⟩

/-- Throughout a run sharing a value shares all that can be reached from it, and so does wrapping
it, if, and only if, no write of the run lets a shared object hold a private one. -/
theorem exposes_iff_unbreached (course : Course o log s) :
    ((∀ t ∈ visited log s, t.bridge.ShareExposes) ↔ ¬ Breached log) ∧
      ((∀ t ∈ visited log s, t.bridge.WrapExposes) ↔ ¬ Breached log) := by
  have whole := course.visits fun course => course.reachable.sound.whole
  have handled := course.visits fun course => course.sharesHandled
  rw [← course.sealed_iff]
  constructor
  · exact forall₂_congr fun t member => shareExposes_iff (whole t member)
  · exact forall₂_congr fun t member => wrapExposes_iff (whole t member) (handled t member)

/-- An array gets a handle, and then a private object is pushed to it. Up to the push all is well;
after it neither wrapping the array again nor sharing it reaches the new element. -/
theorem exposes_iff_unbreached_pushed :
    let new := ofOptions {}
    let made : System := ⟨((newObject (.array #[])).run new.bridge).2, .idle⟩
    let wrapped : System := ⟨((wrap 0 (.object 0)).run made.bridge).2, .idle⟩
    let joined : System := ⟨((newObject (.data "Point" 0)).run wrapped.bridge).2, .idle⟩
    let pushed : System := ⟨((push (.object 0) (.object 1)).run.run joined.bridge).2, .idle⟩
    let before : List (System × Heap.Write) := [(new, .make (.array #[])),
      (made, .share (.object 0)), (wrapped, .make (.data "Point" 0))]
    let log := before ++ [(joined, .push 0 (.object 1))]
    (∀ t ∈ visited before joined, t.bridge.WrapExposes) ∧
      (¬ ∀ t ∈ visited log pushed, t.bridge.WrapExposes) ∧
      ¬ ∀ t ∈ visited log pushed, t.bridge.ShareExposes := by
  intro new made wrapped joined pushed before log
  have makes : Course {} _ made :=
    Course.start.move (.make (.array #[])) (.act (.beside (newObject_beside rfl nofun))) rfl
  have shared := (wrap_wraps 0 (.object 0) made.bridge).heap_eq makes.sharesHandled
  have wraps : Course {} _ wrapped :=
    makes.move (.share (.object 0)) (.act (.wrap 0 (.object 0) (Heap.has_object.2 rfl))) shared
  have joins : Course {} before joined :=
    wraps.move (.make (.data "Point" 0)) (.act (.beside (newObject_beside rfl nofun))) rfl
  have array : wrapped.bridge.heap = ⟨#[some ⟨.array #[], true, []⟩]⟩ := by
    have isPrivate : made.bridge.heap.isPrivate 0 = true := rfl
    rw [shared, Heap.share, Value.object?_object, Option.toList_some, Heap.shareAll,
      if_pos isPrivate]
    show ((made.bridge.heap.markShared 0).shareAll []).2 = _
    rw [Heap.shareAll]
    rfl
  have both : joined.bridge.heap =
      ⟨#[some ⟨.array #[], true, []⟩, some ⟨.data "Point" 0, false, []⟩]⟩ := by
    show (wrapped.bridge.heap.add _).2 = _
    rw [array]
    rfl
  have breaches : joined.bridge.heap.Breaches (.push 0 (.object 1)) := by
    rw [both]
    exact ⟨rfl, rfl, 1, List.mem_cons_self, rfl⟩
  have has : joined.bridge.heap.Has (.object 1) := Heap.has_object.2 (by rw [both]; rfl)
  have pushes : Course {} log pushed :=
    joins.move (.push 0 (.object 1)) (.act (.beside (push_beside (.object 0) has)))
      (push_heap breaches.1)
  have intact : ¬ Breached before := by simp [Breached, before, Heap.Breaches]
  have breached : Breached log := breached_move.2 (.inr breaches)
  obtain ⟨shares, wraps⟩ := exposes_iff_unbreached pushes
  exact ⟨(exposes_iff_unbreached joins).2.2 intact, fun all => wraps.1 all breached,
    fun all => shares.1 all breached⟩

end System

end RopeBridge
