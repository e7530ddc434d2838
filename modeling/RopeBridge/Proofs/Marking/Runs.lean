import Mathlib.Data.List.Basic
import RopeBridge.Proofs.Marking.Attempts

/-! What a marker run does. It drops markers whose owners have died, and a marker that is dropped
may take with it what has kept the owner of another one alive. Every marker whose owner has outlived
that runs once, in order, whether or not others fail; what it marks takes the place of what its
owner held. Of the batches that were queued none is left, and all that are queued meanwhile stay. -/
namespace RopeBridge

namespace Heap

/-- Objects have died, and nothing else has happened. -/
def Fades (h h' : Heap) : Prop := ∀ id o, h'.get? id = some o → h.get? id = some o

/-- The markers whose owners are alive. -/
def living (h : Heap) (markers : List Marker) : List Marker :=
  markers.filter fun m => h.isAlive m.owner

variable {h h' h'' : Heap} {id : ObjectId} {m : Marker} {markers rest : List Marker}

@[simp] theorem living_nil : h.living [] = [] := rfl

theorem living_cons_of_alive (alive : h.isAlive m.owner) :
    h.living (m :: rest) = m :: h.living rest := List.filter_cons_of_pos alive

theorem living_cons_of_dead (dead : ¬ h.isAlive m.owner) : h.living (m :: rest) = h.living rest :=
  List.filter_cons_of_neg dead

theorem living_living : h.living (h.living markers) = h.living markers := by
  unfold living
  simp

theorem Fades.refl (h : Heap) : h.Fades h := fun _ _ there => there

theorem Fades.trans (first : h.Fades h') (second : h'.Fades h'') : h.Fades h'' :=
  fun id o there => first id o (second id o there)

theorem settle_fades (h : Heap) (roots : List ObjectId) : h.Fades (h.settle roots) :=
  fun _ _ there => get?_settle there

theorem Fades.alive (fades : h.Fades h') (alive : h'.isAlive id) : h.isAlive id := by
  obtain ⟨o, there⟩ := isAlive_iff.1 alive
  exact isAlive_of_get? (fades id o there)

theorem Fades.marked (fades : h.Fades h') (alive : h'.isAlive id) : h'.marked id = h.marked id := by
  obtain ⟨o, there⟩ := isAlive_iff.1 alive
  unfold Heap.marked
  rw [there, fades id o there]

theorem Fades.living (fades : h.Fades h') (markers : List Marker) :
    (h'.living markers).Sublist (h.living markers) := by
  apply List.monotone_filter_right
  intro m alive
  exact fades.alive alive

/-- If none of the owners has died, all are still alive. -/
theorem Fades.living_eq (fades : h.Fades h')
    (spared : ∀ m ∈ markers, h.isAlive m.owner → h'.isAlive m.owner) :
    h'.living markers = h.living markers := by
  apply List.filter_congr
  intro m member
  exact Bool.eq_iff_iff.2 ⟨fades.alive, spared m member⟩

end Heap

namespace Bridge

variable {b b' b'' : Bridge} {me : ThreadId} {spared : ObjectId → Prop}

/-- What dropping the markers of dead owners leaves of those that are looked through. -/
structure Sifts (kept rest : List Marker) (b b' : Bridge) : Prop where
  threads : b'.threads = b.threads
  running : b'.running = b.running
  queue : b'.marking.queue = b.marking.queue
  heap : b.heap.Fades b'.heap
  markers : ∃ left, b'.marking.markers = kept ++ left ∧
    left.Sublist (b.heap.living rest) ∧ (b'.heap.living rest).Sublist left

theorem dropDeadMarkers_sifts (kept rest : List Marker) (b : Bridge) :
    Sifts kept rest b (b.dropDeadMarkers kept rest) := by
  induction rest generalizing kept b with
  | nil => exact ⟨rfl, rfl, rfl, .refl _, [], by simp [dropDeadMarkers]⟩
  | cons m rest ih =>
    unfold dropDeadMarkers
    split
    next alive =>
      obtain ⟨threads, running, queue, heap, left, markers, fewer, more⟩ := ih (kept ++ [m]) b
      refine ⟨threads, running, queue, heap, m :: left, by simpa using markers, ?_, ?_⟩
      · rw [Heap.living_cons_of_alive alive]
        exact fewer.cons_cons m
      · -- The owner may still die of what is dropped later; the marker is kept all the same.
        unfold Heap.living
        rw [List.filter_cons]
        split
        · exact more.cons_cons m
        · exact more.cons m
    next dead =>
      have fades := Heap.settle_fades b.heap
        { b with marking := { b.marking with markers := kept ++ rest } }.roots
      obtain ⟨threads, running, queue, heap, left, markers, fewer, more⟩ := ih kept
        (settle { b with marking := { b.marking with markers := kept ++ rest } })
      have fades' := fades.trans heap
      refine ⟨threads, running, queue, fades', left, markers, ?_, ?_⟩
      · rw [Heap.living_cons_of_dead dead]
        exact fewer.trans (fades.living rest)
      · rw [Heap.living_cons_of_dead fun alive => dead (fades'.alive alive)]
        exact more

/-- The bridge once a run has dropped markers. -/
def sorted (b : Bridge) : Bridge := b.takeQueue.dropDeadMarkers [] b.marking.markers

theorem sorted_sifts (b : Bridge) : Sifts [] b.marking.markers b.takeQueue b.sorted :=
  dropDeadMarkers_sifts _ _ _

/-- The markers that run are those whose owners have outlived the dropping. -/
theorem liveMarkers_sorted (b : Bridge) :
    b.sorted.liveMarkers = b.sorted.heap.living b.marking.markers := by
  obtain ⟨left, markers, fewer, more⟩ := b.sorted_sifts.markers
  have within : (b.sorted.heap.living left).Sublist (b.sorted.heap.living b.marking.markers) :=
    (fewer.trans List.filter_sublist).filter _
  have beyond : (b.sorted.heap.living b.marking.markers).Sublist (b.sorted.heap.living left) := by
    rw [← Heap.living_living]
    exact more.filter _
  unfold liveMarkers
  rw [markers, List.nil_append]
  exact within.antisymm beyond

theorem settle_undisturbed (b : Bridge) : b.Undisturbed spared b.settle where
  threads := rfl
  running := rfl
  markers := rfl
  queue := List.prefix_rfl
  size := (Heap.settle_later _).size
  dead := (Heap.settle_later _).dead
  marked := fun _ _ _ alive => Heap.marked_settle alive

/-- What a marker has marked takes the place of what its owner held. -/
def setMarked (owner : ObjectId) (vs : List Value) (b : Bridge) : Bridge :=
  settle { b with heap := b.heap.setMarked owner vs }

theorem marked_setMarked {owner : ObjectId} {vs : List Value}
    (alive : (b.setMarked owner vs).heap.isAlive owner) :
    (b.setMarked owner vs).heap.marked owner = vs := by
  have before := (Heap.settle_fades _ _).alive alive
  rw [Heap.setMarked, Heap.isAlive_update] at before
  refine (Heap.marked_settle alive).trans ?_
  exact (Heap.marked_setMarked vs).trans (if_pos ⟨rfl, before⟩)

theorem setMarked_undisturbed (owner : ObjectId) (vs : List Value) (b : Bridge) :
    b.Undisturbed (· ≠ owner) (b.setMarked owner vs) := by
  refine Undisturbed.trans ?_ (settle_undisturbed { b with heap := b.heap.setMarked owner vs })
  constructor
  case threads => rfl
  case running => rfl
  case markers => rfl
  case queue => exact List.prefix_rfl
  case size => simp [Heap.setMarked, Heap.update]
  case dead =>
    intro o _ alive
    rwa [Heap.setMarked, Heap.isAlive_update] at alive
  case marked =>
    intro o other _ _
    rw [Heap.marked_setMarked, if_neg fun both => other both.1.symm]

section

variable {m : Marker} {s : MarkSession} {reason : String}

theorem runMarker_completed
    (ran : (performAll me m.owner { previous := b.heap.marked m.owner } m.script).run b =
      ((s, none), b')) :
    ((runMarker me m).run b).1.failure = none ∧
      ((runMarker me m).run b).2 = b'.setMarked m.owner s.marks := by
  unfold Heap.marked at ran
  simp only [runMarker, StateT.run_bind, StateT.run_get, pure_bind, ran]
  exact ⟨rfl, rfl⟩

theorem runMarker_failed
    (ran : (performAll me m.owner { previous := b.heap.marked m.owner } m.script).run b =
      ((s, some reason), b')) :
    ((runMarker me m).run b).1.failure = some reason ∧ ((runMarker me m).run b).2 = b' := by
  unfold Heap.marked at ran
  simp only [runMarker, StateT.run_bind, StateT.run_get, pure_bind, ran]
  exact ⟨rfl, rfl⟩

end

end Bridge

/-- A marker that runs, and the bridge as it finds it. -/
structure Stint where
  marker : Marker
  found : Bridge

namespace Stint

open Bridge

variable {spared : ObjectId → Prop} (me : ThreadId) (stint : Stint)

def session : MarkSession := { previous := stint.found.heap.marked stint.marker.owner }

/-- The bridge after some acts of the marker. -/
def after (acts : List MarkAct) : Bridge :=
  ((performAll me stint.marker.owner stint.session acts).run stint.found).2

def attempts : List Attempt :=
  stint.found.attempts me stint.marker.owner stint.session stint.marker.script

def report : MarkerReport := ((runMarker me stint.marker).run stint.found).1

/-- The bridge that the marker leaves. -/
def leaves : Bridge := ((runMarker me stint.marker).run stint.found).2

/-- The batches that are queued while the marker runs. -/
def queued : List (List Value) :=
  (stint.leaves me).marking.queue.drop stint.found.marking.queue.length

variable {me stint}

theorem completed_or_failed (me : ThreadId) (stint : Stint) :
    (stint.report me).failure = none ∧ stint.leaves me =
      (stint.after me stint.marker.script).setMarked stint.marker.owner
        (Attempt.recorded (stint.attempts me)) ∨
    (∃ reason, (stint.report me).failure = some reason) ∧
      stint.leaves me = stint.after me stint.marker.script := by
  unfold report leaves after
  cases ran : (performAll me stint.marker.owner stint.session stint.marker.script).run
      stint.found with
  | mk result b =>
    obtain ⟨s, failure⟩ := result
    cases failure with
    | none =>
      obtain ⟨completed, left⟩ := runMarker_completed ran
      refine .inl ⟨completed, left.trans ?_⟩
      rw [performAll_takes (congrArg Prod.fst ran)]
      exact congrArg (b.setMarked _) (MarkSession.marks_foldl_take_nil _)
    | some reason =>
      obtain ⟨failed, left⟩ := runMarker_failed ran
      exact .inr ⟨⟨reason, failed⟩, left⟩

theorem after_undisturbed (me : ThreadId) (stint : Stint) (acts : List MarkAct) :
    stint.found.Undisturbed spared (stint.after me acts) :=
  performAll_undisturbed _ _ _ _ _

theorem leaves_undisturbed (me : ThreadId) (stint : Stint) :
    stint.found.Undisturbed (· ≠ stint.marker.owner) (stint.leaves me) := by
  have worked : stint.found.Undisturbed (· ≠ stint.marker.owner) _ :=
    stint.after_undisturbed me stint.marker.script
  rcases stint.completed_or_failed me with ⟨_, left⟩ | ⟨_, left⟩
  · rw [left]
    exact worked.trans (setMarked_undisturbed _ _ _)
  · rwa [left]

/-- What is queued on the way is in the queue that the marker leaves. -/
theorem after_queue {acts : List MarkAct} (first : acts <+: stint.marker.script) :
    (stint.after me acts).marking.queue <+: (stint.leaves me).marking.queue := by
  obtain ⟨rest, script⟩ := first
  have onward : (stint.after me acts).Undisturbed (fun _ => True)
      (stint.after me stint.marker.script) := by
    rw [← script]
    exact performAll_append_undisturbed _ _ _ _ _ _
  rcases stint.completed_or_failed me with ⟨_, left⟩ | ⟨_, left⟩
  · rw [left]
    exact onward.queue
  · rw [left]
    exact onward.queue

end Stint

namespace Bridge

variable {b b' : Bridge} {me : ThreadId} {spared : ObjectId → Prop} {markers : List Marker}
  {stint : Stint}

/-- Markers that run one after the other. -/
def stints (me : ThreadId) (b : Bridge) : List Marker → List Stint
  | [] => []
  | m :: rest => ⟨m, b⟩ :: (Stint.leaves me ⟨m, b⟩).stints me rest

def afterMarkers (me : ThreadId) (b : Bridge) (markers : List Marker) : Bridge :=
  markers.foldl (fun b m => Stint.leaves me ⟨m, b⟩) b

theorem mapM_runMarker (me : ThreadId) (b : Bridge) (markers : List Marker) :
    (markers.mapM (runMarker me)).run b =
      ((b.stints me markers).map (·.report me), b.afterMarkers me markers) := by
  induction markers generalizing b with
  | nil => rfl
  | cons m rest ih =>
    rw [List.mapM_cons]
    exact congrArg (fun ran => (Stint.report me ⟨m, b⟩ :: ran.1, ran.2)) (ih _)

theorem map_marker_stints (me : ThreadId) (b : Bridge) (markers : List Marker) :
    (b.stints me markers).map (·.marker) = markers := by
  induction markers generalizing b with
  | nil => rfl
  | cons m rest ih => exact congrArg (m :: ·) (ih _)

theorem stints_split (member : stint ∈ b.stints me markers) :
    ∃ before after, markers = before ++ stint.marker :: after ∧
      stint.found = b.afterMarkers me before ∧
      b.afterMarkers me markers = (stint.leaves me).afterMarkers me after := by
  induction markers generalizing b with
  | nil => cases member
  | cons m rest ih =>
    cases member with
    | head => exact ⟨[], rest, rfl, rfl, rfl⟩
    | tail _ later =>
      obtain ⟨before, after, split, found, ends⟩ := ih later
      exact ⟨m :: before, after, congrArg (m :: ·) split, found, ends⟩

theorem afterMarkers_undisturbed (markers : List Marker) (b : Bridge)
    (others : ∀ m ∈ markers, ¬ spared m.owner) :
    b.Undisturbed spared (b.afterMarkers me markers) := by
  induction markers generalizing b with
  | nil => exact .refl b
  | cons m rest ih =>
    have first : b.Undisturbed spared (Stint.leaves me ⟨m, b⟩) := by
      apply (Stint.leaves_undisturbed me ⟨m, b⟩).mono
      rintro o spares rfl
      exact others m List.mem_cons_self spares
    exact first.trans (ih _ fun m member => others m (List.mem_cons_of_mem _ member))

/-- The queue after some markers is what it was, and what each of them has queued. -/
theorem queue_afterMarkers (me : ThreadId) (b : Bridge) (markers : List Marker) :
    (b.afterMarkers me markers).marking.queue =
      b.marking.queue ++ (b.stints me markers).flatMap (·.queued me) := by
  induction markers generalizing b with
  | nil => simp [afterMarkers, stints]
  | cons m rest ih =>
    have first := List.prefix_iff_eq_append.1 (Stint.leaves_undisturbed me ⟨m, b⟩).queue
    rw [stints, List.flatMap_cons, ← List.append_assoc]
    exact (ih _).trans (congrArg (· ++ _) first.symm)

/-- The bridge as the first marker of a run finds it. -/
def begun (me : ThreadId) (b : Bridge) : Bridge := b.sorted.enterRun me b.sorted.liveMarkers

/-- The bridge as the last marker of a run leaves it. -/
def ended (me : ThreadId) (b : Bridge) : Bridge :=
  (b.begun me).afterMarkers me b.sorted.liveMarkers

/-- The markers that a run runs. -/
def runStints (me : ThreadId) (b : Bridge) : List Stint :=
  (b.begun me).stints me b.sorted.liveMarkers

/-- What a marker run of a thread does to a bridge, and what it reports. -/
structure MarkerRun (me : ThreadId) (b : Bridge) (told : List MarkerReport) (b' : Bridge) :
    Prop where
  /-- Only markers of owners that are alive at the start are kept. -/
  kept : b'.marking.markers.Sublist (b.heap.living b.marking.markers)
  /-- No marker is dropped whose owner outlives the dropping. -/
  keeps : (b.sorted.heap.living b.marking.markers).Sublist b'.marking.markers
  /-- If no owner dies of the dropping, the markers of dead owners are dropped, and all others
  run. -/
  exactly : (∀ m ∈ b.marking.markers, b.heap.isAlive m.owner → b.sorted.heap.isAlive m.owner) →
    b'.marking.markers = b.heap.living b.marking.markers ∧
      (b.runStints me).map (·.marker) = b'.marking.markers
  runs : (b.runStints me).map (·.marker) = b.sorted.heap.living b.marking.markers
  reports : told = (b.runStints me).map (·.report me)
  count : told.length = (b.sorted.heap.living b.marking.markers).length
  /-- The only marker of an object that lives on replaces what the object holds, unless it fails. -/
  marked : ∀ stint ∈ b.runStints me,
    b.marking.markers.countP (fun m => m.owner = stint.marker.owner) = 1 →
    b'.heap.isAlive stint.marker.owner → b'.heap.marked stint.marker.owner =
      if (stint.report me).failure = none then Attempt.recorded (stint.attempts me)
      else b.heap.marked stint.marker.owner
  /-- What is queued in the end has been queued by the markers that have run. -/
  queue : b'.marking.queue = (b.runStints me).flatMap (·.queued me)
  running : b'.running = b.running
  /-- Between any two acts the block is that of the caller, the values that were queued at the
  start are held, and what is queued stays queued. -/
  during : ∀ stint ∈ b.runStints me, ∀ acts, acts <+: stint.marker.script →
    ((stint.after me acts).thread me).stack.block = (b.thread me).stack.block ∧
      b.marking.queue.flatten ⊆ (stint.after me acts).running ∧
      (stint.after me acts).marking.queue <+: b'.marking.queue
  stack : ∀ t, (b'.thread t).stack = (b.thread t).stack

theorem runMarkers_run (me : ThreadId) (b : Bridge) : (runMarkers me).run b =
    ((b.runStints me).map (·.report me), settle (leaveRun me b.running (b.ended me))) := by
  have all := mapM_runMarker me (b.begun me) b.sorted.liveMarkers
  exact congrArg (fun ran => (ran.1, settle (leaveRun me b.running ran.2))) all

/-- An object with a single marker has no other among those that run. -/
theorem only_marker {m : Marker} {before after : List Marker}
    (single : b.marking.markers.countP (fun m' => m'.owner = m.owner) = 1)
    (split : b.sorted.liveMarkers = before ++ m :: after) :
    ∀ m' ∈ before ++ after, m'.owner ≠ m.owner := by
  have within : b.sorted.liveMarkers.Sublist b.marking.markers := by
    rw [liveMarkers_sorted]
    exact List.filter_sublist
  have count := within.countP_le (p := fun m' => m'.owner = m.owner)
  rw [single, split, List.countP_append, List.countP_cons_of_pos (by simp)] at count
  have others : (before ++ after).countP (fun m' => m'.owner = m.owner) = 0 := by
    rw [List.countP_append]
    omega
  intro m' member
  simpa using List.countP_eq_zero.1 others m' member

theorem queue_subset_running (me : ThreadId) (b : Bridge) :
    b.marking.queue.flatten ⊆ (b.begun me).running := by
  intro v queued
  apply List.mem_append_right
  rw [b.sorted_sifts.running]
  exact List.mem_append_left _ queued

theorem thread_of_threads {b b' : Bridge} (threads : b'.threads = b.threads) (t : ThreadId) :
    b'.thread t = b.thread t := by
  unfold thread
  rw [threads]

/-- The bridge with the frame of a run pushed. -/
def framed (me : ThreadId) (b : Bridge) : Bridge :=
  b.updateStack me fun stack => stack.push stack.block

theorem threads_begun (me : ThreadId) (b : Bridge) :
    (b.begun me).threads = (b.framed me).threads := by
  let push (t : Thread) : Thread := { t with stack := t.stack.push t.stack.block }
  exact congrArg (·.modify me push) b.sorted_sifts.threads

theorem block_framed (me : ThreadId) (b : Bridge) :
    ((b.framed me).thread me).stack.block = (b.thread me).stack.block := by
  unfold framed updateStack
  rw [thread_updateThread]
  split <;> rfl

theorem stack_pop_framed (me : ThreadId) (b : Bridge) (t : ThreadId) :
    (((b.framed me).updateStack me CallStack.pop).thread t).stack = (b.thread t).stack := by
  unfold framed updateStack
  have size : ∀ f, (b.updateThread me f).threads.size = b.threads.size := fun _ => Array.size_modify
  rw [thread_updateThread, thread_updateThread, size]
  by_cases own : me = t ∧ t < b.threads.size
  · rw [if_pos own, if_pos own]
    rfl
  · rw [if_neg own, if_neg own]

/-- What the other markers of a run spare is not disturbed before a marker begins, nor after it. -/
theorem runStints_course (member : stint ∈ b.runStints me) :
    ∃ before after, b.sorted.liveMarkers = before ++ stint.marker :: after ∧
      ∀ spared : ObjectId → Prop, (∀ m ∈ before ++ after, ¬ spared m.owner) →
        (b.begun me).Undisturbed spared stint.found ∧
          (stint.leaves me).Undisturbed spared (b.ended me) := by
  obtain ⟨before, after, split, found, ends⟩ := stints_split member
  refine ⟨before, after, split, fun spared others => ⟨?_, ?_⟩⟩
  · rw [found]
    exact afterMarkers_undisturbed before _ fun m member => others m (List.mem_append_left _ member)
  · rw [ended, ends]
    exact afterMarkers_undisturbed after _ fun m member => others m (List.mem_append_right _ member)

/-- The marker of an object with a single one decides what the object holds in the end. -/
theorem marked_runStints (member : stint ∈ b.runStints me)
    (single : b.marking.markers.countP (fun m => m.owner = stint.marker.owner) = 1)
    (alive : (b.ended me).heap.isAlive stint.marker.owner) :
    (b.ended me).heap.marked stint.marker.owner =
      if (stint.report me).failure = none then Attempt.recorded (stint.attempts me)
      else b.heap.marked stint.marker.owner := by
  obtain ⟨before, after, split, course⟩ := runStints_course member
  obtain ⟨first, last⟩ := course (· = stint.marker.owner) (only_marker single split)
  have ran : stint.marker ∈ b.sorted.liveMarkers := by
    rw [split]
    exact List.mem_append_right _ List.mem_cons_self
  have inside : stint.marker.owner < (b.begun me).heap.objects.size :=
    Heap.lt_size_of_isAlive (List.mem_filter.1 ran).2
  -- An owner that is alive in the end has been alive all along.
  have inside' := Nat.lt_of_lt_of_le inside first.size
  have middle := stint.leaves_undisturbed me
  have inside'' := Nat.lt_of_lt_of_le inside' middle.size
  have alive' := last.dead _ inside'' alive
  rw [last.marked _ rfl inside'' alive]
  rcases stint.completed_or_failed me with ⟨completed, left⟩ | ⟨⟨reason, failed⟩, left⟩
  · rw [if_pos completed]
    rw [left] at alive' ⊢
    exact marked_setMarked alive'
  · have found : stint.found.Undisturbed (· = stint.marker.owner) (stint.leaves me) := by
      rw [left]
      exact stint.after_undisturbed me _
    have fades := b.sorted_sifts.heap
    rw [if_neg (by simp [failed]), (first.trans found).marked _ rfl inside alive']
    exact fades.marked (List.mem_filter.1 ran).2

theorem ended_undisturbed (me : ThreadId) (b : Bridge) :
    (b.begun me).Undisturbed (fun _ => False) (b.ended me) :=
  afterMarkers_undisturbed _ _ fun _ _ => id

theorem markers_runMarkers (me : ThreadId) (b : Bridge) :
    ((runMarkers me).run b).2.marking.markers = b.sorted.marking.markers := by
  rw [runMarkers_run]
  exact (b.ended_undisturbed me).markers

theorem runMarkers_does (me : ThreadId) (b : Bridge) :
    b.MarkerRun me ((runMarkers me).run b).1 ((runMarkers me).run b).2 := by
  obtain ⟨left, markers, fewer, more⟩ := b.sorted_sifts.markers
  have remaining := (markers_runMarkers me b).trans markers
  rw [runMarkers_run] at remaining ⊢
  have all := b.ended_undisturbed me
  have runs : (b.runStints me).map (·.marker) = b.sorted.heap.living b.marking.markers :=
    (map_marker_stints _ _ _).trans b.liveMarkers_sorted
  have threads : (b.ended me).threads = (b.framed me).threads :=
    all.threads.trans (threads_begun me b)
  have ends := Heap.settle_fades (b.ended me).heap (leaveRun me b.running (b.ended me)).roots
  constructor
  case kept => exact remaining ▸ fewer
  case keeps => exact remaining ▸ more
  case exactly =>
    intro spared
    have same := b.sorted_sifts.heap.living_eq spared
    rw [runs, same]
    rw [same] at more
    have left : left = _ := fewer.antisymm more
    exact ⟨remaining.trans left, left.symm.trans remaining.symm⟩
  case runs => exact runs
  case reports => rfl
  case count => rw [← runs, List.length_map, List.length_map]
  case marked =>
    intro stint member single alive
    exact (ends.marked alive).trans (marked_runStints member single (ends.alive alive))
  case queue =>
    have taken : (b.begun me).marking.queue = [] := b.sorted_sifts.queue
    refine (queue_afterMarkers me (b.begun me) b.sorted.liveMarkers).trans ?_
    rw [taken]
    rfl
  case running => rfl
  case during =>
    intro stint member acts first
    obtain ⟨_, _, _, course⟩ := runStints_course member
    obtain ⟨before, after⟩ := course (fun _ => False) fun _ _ => id
    have reached := before.trans (stint.after_undisturbed me acts)
    refine ⟨?_, ?_, (stint.after_queue first).trans after.queue⟩
    · rw [thread_of_threads (reached.threads.trans (threads_begun me b))]
      exact block_framed me b
    · rw [reached.running]
      exact queue_subset_running me b
  case stack =>
    intro t
    let pop (t : Thread) : Thread := { t with stack := t.stack.pop }
    have popped : ((b.ended me).updateStack me CallStack.pop).threads =
        ((b.framed me).updateStack me CallStack.pop).threads :=
      congrArg (·.modify me pop) threads
    rw [← stack_pop_framed me b t]
    exact congrArg (·.stack) (thread_of_threads popped t)

/-- Of two objects with a marker each, the first has died; nothing but the action of its marker
holds the second. -/
def bequest : Bridge :=
  let (_, b) := (newObject (.data "First" 0)).run (.ofOptions {})
  let (heir, b) := (newObject (.data "Second" 0)).run b
  settle { b with
    marking := (b.marking.addMarker ⟨0, "one", [.value heir]⟩).addMarker ⟨1, "two", []⟩ }

theorem heap_bequest : bequest.heap = ⟨#[none, some { payload := .data "Second" 0 }]⟩ := by
  show Heap.settle ⟨#[some { payload := .data "First" 0 }, some { payload := .data "Second" 0 }]⟩
    [1] = _
  rw [Heap.settle, Heap.settle]
  rfl

theorem markers_sorted_bequest : bequest.sorted.marking.markers = [] := by
  have dies : Heap.settle ⟨#[none, some { payload := .data "Second" 0 }]⟩ [] = ⟨#[none, none]⟩ := by
    rw [Heap.settle, Heap.settle]
    rfl
  have one : ¬ bequest.takeQueue.heap.isAlive 0 := by
    change ¬ bequest.heap.isAlive 0
    rw [heap_bequest]
    decide
  let rest : Bridge := settle { bequest.takeQueue with
    marking := { bequest.takeQueue.marking with markers := [⟨1, "two", []⟩] } }
  have two : ¬ rest.heap.isAlive 1 := by
    change ¬ (Heap.settle bequest.heap []).isAlive 1
    rw [heap_bequest, dies]
    decide
  have first : bequest.sorted = rest.dropDeadMarkers [] [⟨1, "two", []⟩] := if_neg one
  have second : rest.dropDeadMarkers [] [⟨1, "two", []⟩] = _ := if_neg two
  rw [first, second]
  rfl

/-- Also a marker is dropped whose owner is alive at the start and dies of the dropping. -/
theorem not_drops_exactly : ¬ ∀ me b, ((runMarkers me).run b).2.marking.markers =
    b.heap.living b.marking.markers := by
  intro exactly
  have living : bequest.heap.living bequest.marking.markers = [⟨1, "two", []⟩] := by
    rw [heap_bequest]
    rfl
  have same := exactly 0 bequest
  rw [markers_runMarkers, markers_sorted_bequest, living] at same
  cases same

end Bridge

end RopeBridge
