import RopeBridge.Proofs.System.Acts

/-! What a marker asks for. Each handle that it wants marked is an attempt, which succeeds if the
handle is that of an object and resolves at that moment. A marker that does not fail has marked
what is behind the distinct handles of its successful attempts, in the order of their first success;
on the way it lets no object die and adds to the queue at its end only. -/
namespace RopeBridge

/-- A handle to be marked, and the object that it resolves to just then. -/
structure Attempt where
  handle : Handle
  pin : Option ObjectId

namespace Attempt

/-- The handle and the object of an attempt that succeeds. -/
def success? (a : Attempt) : Option (Handle × ObjectId) :=
  if a.handle.isObject then a.pin.map fun id => (a.handle, id) else none

/-- The objects behind the distinct handles that have resolved, in the order of their first
success. -/
def recorded (attempts : List Attempt) : List Value :=
  ((attempts.filterMap success?).eraseDupsBy fun a a' => a.1 == a'.1).map fun a => .object a.2

end Attempt

namespace MarkSession

def take (s : MarkSession) (a : Attempt) : MarkSession :=
  match a.success? with
  | none => s
  | some (h, id) =>
    if h ∈ s.seen then s else { s with marks := s.marks ++ [.object id], seen := h :: s.seen }

variable {s : MarkSession}

/-- What has been seen before is not marked again. -/
theorem marks_foldl_take (attempts : List Attempt) : (attempts.foldl take s).marks =
    s.marks ++ (((attempts.filterMap Attempt.success?).filter (·.1 ∉ s.seen)).eraseDupsBy
      fun a a' => a.1 == a'.1).map fun a => .object a.2 := by
  induction attempts generalizing s with
  | nil => simp
  | cons a rest ih =>
    rw [List.foldl_cons, ih, List.filterMap_cons]
    unfold take
    cases a.success? with
    | none => rfl
    | some success =>
      obtain ⟨h, id⟩ := success
      by_cases seen : h ∈ s.seen
      · simp [seen]
      · simp [seen, List.eraseDupsBy_cons]

theorem marks_foldl_take_nil {previous : List Value} (attempts : List Attempt) :
    (attempts.foldl take { previous }).marks = Attempt.recorded attempts := by
  rw [marks_foldl_take, List.filter_eq_self.2 (by simp)]
  rfl

end MarkSession

namespace Bridge

def attempt (b : Bridge) (h : Handle) : Attempt where
  handle := h
  pin := (b.handles.wrapperAt? h).bind (b.handles.pin? b.heap)

/-- Values that are marked one after the other, each by the handle that it is given. -/
def valueAttempts (me : ThreadId) (b : Bridge) : List Value → List Attempt
  | [] => []
  | v :: rest =>
    let marked := (wrap me v).run b
    marked.2.attempt marked.1 :: marked.2.valueAttempts me rest

def actAttempts (me : ThreadId) (owner : ObjectId) (s : MarkSession) (b : Bridge) :
    MarkAct → List Attempt
  | .pointer => [b.attempt ⟨((b.heap.get? owner).bind Object.pointer?).getD 0⟩]
  | .handle h => [b.attempt h]
  | .value v => b.valueAttempts me [v]
  | .previous => b.valueAttempts me s.previous
  | .wrap _ | .keep _ | .queue _ | .fail _ => []

/-- What a marker asks for, up to the first act that fails. -/
def attempts (me : ThreadId) (owner : ObjectId) (s : MarkSession) (b : Bridge) :
    List MarkAct → List Attempt
  | [] => []
  | act :: rest =>
    b.actAttempts me owner s act ++
      match (perform me owner s act).run.run b with
      | (.ok s, b) => b.attempts me owner s rest
      | (.error _, _) => []

variable {me : ThreadId} {owner : ObjectId} {b b' b'' : Bridge} {s s' : MarkSession}
  {act : MarkAct} {script acts : List MarkAct}

theorem mark_eq_take (s : MarkSession) (h : Handle) (b : Bridge) :
    mark s h b = s.take (b.attempt h) := by
  unfold mark MarkSession.add MarkSession.take Attempt.success? attempt
  cases h.isObject with
  | false => simp
  | true =>
    cases (b.handles.wrapperAt? h).bind (b.handles.pin? b.heap) with
    | none => simp
    | some id => simp

/-- What a part of a marker run leaves as it is. Objects may die; what is marked on behalf of the
objects that it spares and that live on is the same. -/
structure Undisturbed (spared : ObjectId → Prop) (b b' : Bridge) : Prop where
  threads : b'.threads = b.threads
  running : b'.running = b.running
  markers : b'.marking.markers = b.marking.markers
  queue : b.marking.queue <+: b'.marking.queue
  size : b.heap.objects.size ≤ b'.heap.objects.size
  dead : ∀ o, o < b.heap.objects.size → b'.heap.isAlive o → b.heap.isAlive o
  marked : ∀ o, spared o → o < b.heap.objects.size → b'.heap.isAlive o →
    b'.heap.marked o = b.heap.marked o

variable {spared spared' : ObjectId → Prop}

theorem Undisturbed.refl (b : Bridge) : b.Undisturbed spared b := by
  constructor
  case threads => rfl
  case running => rfl
  case markers => rfl
  case queue => exact List.prefix_rfl
  case size => exact Nat.le_refl _
  case dead => exact fun _ _ alive => alive
  case marked => exact fun _ _ _ _ => rfl

theorem Undisturbed.trans (first : b.Undisturbed spared b') (second : b'.Undisturbed spared b'') :
    b.Undisturbed spared b'' := by
  constructor
  case threads => exact second.threads.trans first.threads
  case running => exact second.running.trans first.running
  case markers => exact second.markers.trans first.markers
  case queue => exact first.queue.trans second.queue
  case size => exact Nat.le_trans first.size second.size
  case dead =>
    intro o inside alive
    apply first.dead o inside
    exact second.dead o (Nat.lt_of_lt_of_le inside first.size) alive
  case marked =>
    intro o spares inside alive
    have inside' := Nat.lt_of_lt_of_le inside first.size
    rw [second.marked o spares inside' alive]
    exact first.marked o spares inside (second.dead o inside' alive)

theorem Undisturbed.mono (undisturbed : b.Undisturbed spared b')
    (fewer : ∀ o, spared' o → spared o) : b.Undisturbed spared' b' :=
  { undisturbed with marked := fun o spares => undisturbed.marked o (fewer o spares) }

theorem Undisturbed.of_grown {heap : Heap} {handles : HandleTable} {marking : Marking}
    (grown : b.heap.Grown heap) (markers : marking.markers = b.marking.markers)
    (queue : b.marking.queue <+: marking.queue) :
    b.Undisturbed spared { b with heap, handles, marking } where
  threads := rfl
  running := rfl
  markers := markers
  queue := queue
  size := grown.later.size
  dead := grown.later.dead
  marked := fun o _ _ _ => grown.marked o

theorem Wraps.undisturbed {v : Value} {h : Handle} (wraps : b.Wraps me v h b') :
    b.Undisturbed spared b' := by
  cases wraps with
  | word _ => exact .refl b
  | found _ _ => exact .refl b
  | entered _ _ exposes _ => exact .of_grown exposes.grown rfl (List.prefix_append _ _)

/-- Values that are marked one after the other. -/
def markValues (me : ThreadId) (s : MarkSession) (vs : List Value) :
    StateM Bridge (Except String MarkSession) :=
  (vs.foldlM (fun s v => markValue me s v) s : ExceptT String (StateM Bridge) MarkSession).run

theorem markValues_cons (v : Value) (rest : List Value) : (markValues me s (v :: rest)).run b =
    (markValues me ((markValue me s v).run b).1 rest).run ((markValue me s v).run b).2 := by
  unfold markValues
  rw [List.foldlM_cons]
  rfl

theorem markValues_takes (vs : List Value) (s : MarkSession) (b : Bridge) :
    ((markValues me s vs).run b).1 = .ok ((b.valueAttempts me vs).foldl MarkSession.take s) := by
  induction vs generalizing s b with
  | nil => rfl
  | cons v rest ih =>
    rw [markValues_cons, ih, valueAttempts, List.foldl_cons, ← mark_eq_take]
    rfl

theorem markValues_undisturbed (vs : List Value) (s : MarkSession) (b : Bridge) :
    b.Undisturbed spared ((markValues me s vs).run b).2 := by
  induction vs generalizing s b with
  | nil => exact .refl b
  | cons v rest ih =>
    rw [markValues_cons]
    exact (wrap_wraps me v b).undisturbed.trans (ih _ _)

theorem perform_takes (ok : ((perform me owner s act).run.run b).1 = .ok s') :
    s' = (b.actAttempts me owner s act).foldl MarkSession.take s := by
  cases act with
  | pointer =>
    cases ok
    exact mark_eq_take s _ b
  | handle h =>
    cases ok
    exact mark_eq_take s h b
  | value v =>
    cases ok
    exact mark_eq_take s _ _
  | previous =>
    cases (markValues_takes s.previous s b).symm.trans ok
    rfl
  | wrap v =>
    cases ok
    rfl
  | keep v =>
    cases ok
    rfl
  | queue vs =>
    cases ok
    rfl
  | fail reason => cases ok

theorem perform_undisturbed (me : ThreadId) (owner : ObjectId) (s : MarkSession) (act : MarkAct)
    (b : Bridge) : b.Undisturbed spared ((perform me owner s act).run.run b).2 := by
  cases act with
  | pointer => exact .refl b
  | handle h => exact .refl b
  | value v => exact (wrap_wraps me v b).undisturbed
  | previous => exact markValues_undisturbed s.previous s b
  | wrap v => exact (wrap_wraps me v b).undisturbed
  | keep v => exact .of_grown (.refl _) (keepObject_markers _ _) (Marking.queue_keepObject _ _)
  | queue vs => exact .of_grown (.refl _) rfl (List.prefix_append _ _)
  | fail reason => exact .refl b

section

variable {result : Except String MarkSession} {reason : String}

theorem performAll_ok (performed : (perform me owner s act).run.run b = (.ok s', b')) :
    (performAll me owner s (act :: script)).run b = (performAll me owner s' script).run b' := by
  rw [performAll, StateT.run_bind, performed]
  rfl

theorem performAll_error (performed : (perform me owner s act).run.run b = (.error reason, b')) :
    (performAll me owner s (act :: script)).run b = ((s, some reason), b') := by
  rw [performAll, StateT.run_bind, performed]
  rfl

end

/-- A marker that does not fail has taken all that it asked for. -/
theorem performAll_takes (completed : ((performAll me owner s script).run b).1 = (s', none)) :
    s' = (b.attempts me owner s script).foldl MarkSession.take s := by
  induction script generalizing s b with
  | nil =>
    cases completed
    rfl
  | cons act rest ih =>
    cases performed : (perform me owner s act).run.run b with
    | mk result b' =>
      cases result with
      | error reason =>
        rw [performAll_error performed] at completed
        cases completed
      | ok s₁ =>
        rw [performAll_ok performed] at completed
        rw [attempts, List.foldl_append, performed]
        rw [← perform_takes (congrArg Prod.fst performed)]
        exact ih completed

theorem performAll_undisturbed (me : ThreadId) (owner : ObjectId) (s : MarkSession)
    (script : List MarkAct) (b : Bridge) :
    b.Undisturbed spared ((performAll me owner s script).run b).2 := by
  induction script generalizing s b with
  | nil => exact .refl b
  | cons act rest ih =>
    have first : b.Undisturbed spared _ := perform_undisturbed me owner s act b
    cases performed : (perform me owner s act).run.run b with
    | mk result b' =>
      rw [performed] at first
      cases result with
      | error reason =>
        rw [performAll_error performed]
        exact first
      | ok s' =>
        rw [performAll_ok performed]
        exact first.trans (ih s' b')

/-- What the first acts of a marker leave is not disturbed by the others. -/
theorem performAll_append_undisturbed (me : ThreadId) (owner : ObjectId) (s : MarkSession)
    (acts rest : List MarkAct) (b : Bridge) : ((performAll me owner s acts).run b).2.Undisturbed
      spared ((performAll me owner s (acts ++ rest)).run b).2 := by
  induction acts generalizing s b with
  | nil => exact performAll_undisturbed me owner s rest b
  | cons act more ih =>
    rw [List.cons_append]
    cases performed : (perform me owner s act).run.run b with
    | mk result b' =>
      cases result with
      | error reason =>
        rw [performAll_error performed, performAll_error performed]
        exact .refl b'
      | ok s' =>
        rw [performAll_ok performed, performAll_ok performed]
        exact ih s' b'

end Bridge

end RopeBridge
