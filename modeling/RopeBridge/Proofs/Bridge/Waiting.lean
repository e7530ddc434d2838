import RopeBridge.Proofs.Bridge.Calls
import RopeBridge.Proofs.Lock.Safepoints

/-! Polls and waits, each done in one go, are runs of a thread at its safepoints during which nobody
posts and the thread that is asked to lets go of the lock. So what holds of every run holds of them.
A call that does not get the lock leaves nothing behind but the work of its wait. -/
namespace RopeBridge

/-- A poll runs what is queued and what its actions post, in that order, and leaves the rest. -/
theorem Safepoint.ran_append_left (queue : List SafepointAction) :
    (poll queue).ran ++ (poll queue).left =
      queue ++ (poll queue).ran.flatMap SafepointAction.posts := by
  induction queue using poll.induct with
  | case1 => simp [poll]
  | case2 a queue reason fails => simp [poll, fails]
  | case3 a queue ends ih => simpa [poll, ends] using ih

/-- A poll without a failure leaves nothing queued. -/
theorem Safepoint.left_of_poll {queue : List SafepointAction}
    (well : (poll queue).failure = none) : (poll queue).left = [] := by
  induction queue using poll.induct with
  | case1 => simp [poll]
  | case2 a queue reason fails => simp [poll, fails] at well
  | case3 a queue ends ih =>
    simp only [poll, ends] at well ⊢
    exact ih well

namespace Watch

variable {w w' w'' : Watch} {me : ThreadId} {task : Task} {first : Option Fault} {point : Point}
  {before : List (Task × Except Overflow (Option Fault))} {lock : ExtensionLock} {v : LockWait}

/-- A step of the thread, or a change of the lock. -/
def Turn.isStep : Turn → Bool
  | go | change _ => true
  | begin _ | post _ => false

/-- From one state to another while nobody posts. -/
def Leads (me : ThreadId) (w w' : Watch) : Prop :=
  ∃ turns : List Turn, (∀ turn ∈ turns, turn.isStep) ∧ w.run me turns = w'

theorem Leads.refl (me : ThreadId) (w : Watch) : Leads me w w := ⟨[], by simp, rfl⟩

theorem Leads.trans (first : Leads me w w') (second : Leads me w' w'') : Leads me w w'' := by
  obtain ⟨turns, steps, rfl⟩ := first
  obtain ⟨turns', steps', rfl⟩ := second
  refine ⟨turns ++ turns', ?_, List.foldl_append ..⟩
  intro turn member
  rcases List.mem_append.1 member with member | member
  · exact steps turn member
  · exact steps' turn member

theorem leads_go (w : Watch) (me : ThreadId) : Leads me w (w.go me) :=
  ⟨[.go], by simp [Turn.isStep], rfl⟩

theorem Leads.go (leads : Leads me (w.go me) w') : Leads me w w' := (leads_go w me).trans leads

/-! A poll. -/

/-- What is left when a poll has come to its end. -/
def polled (w : Watch) (p : Safepoint.Poll) : Watch :=
  let w := { w with
    queue := p.left, ran := w.ran ++ p.ran, since := w.since ++ p.ran
    posted := w.posted ++ p.ran.flatMap SafepointAction.posts, count := w.count + p.ran.length }
  match p.failure with
  | none => w.rest
  | some fault => w.fail fault

/-- An action posts what it has to. -/
theorem leads_posts {a : SafepointAction} {due : List SafepointAction}
    (inside : w.point = .inside a due) :
    Leads me w { w with
      queue := w.queue ++ due, posted := w.posted ++ due, point := .inside a [] } := by
  induction due generalizing w with
  | nil => simpa [← inside] using Leads.refl me w
  | cons b due ih =>
    apply Leads.go
    rw [go_post inside]
    simpa [post] using ih (w := { w.post b with point := .inside a due }) rfl

/-- The first action of the queue is taken and runs. -/
theorem leads_inside {a : SafepointAction} {queue : List SafepointAction} (point : w.point = .pop)
    (queued : w.queue = a :: queue) :
    Leads me w { w with
      queue := queue ++ a.posts, posted := w.posted ++ a.posts, ran := w.ran ++ [a]
      since := w.since ++ [a], point := .inside a [] } := by
  apply Leads.go
  rw [go_pop point queued]
  exact leads_posts rfl

theorem polled_empty (empty : w.queue = []) : w.polled ⟨[], [], none⟩ = w.rest := by
  cases w
  cases empty
  simp [polled]

/-- What the thread does from here to the end of a poll is what the poll does at once. -/
theorem leads_polled (me : ThreadId) (point : w.point = .pop) :
    Leads me w (w.polled (Safepoint.poll w.queue)) := by
  generalize queued : w.queue = queue
  induction queue using Safepoint.poll.induct generalizing w with
  | case1 =>
    apply Leads.go
    rw [go_empty point queued, Safepoint.poll, polled_empty queued]
    exact .refl me _
  | case2 a queue reason fails =>
    have fault : a.fault? = some (.interrupted reason) := by simp [SafepointAction.fault?, fails]
    refine (leads_inside point queued).trans (.go ?_)
    rw [go_fail rfl fault]
    simp only [Safepoint.poll, fails, polled, List.flatMap_cons, List.flatMap_nil, List.append_nil]
    -- failing forgets where the thread was and how far it had counted
    exact .refl me _
  | case3 a queue well ih =>
    have fault : a.fault? = none := by simp [SafepointAction.fault?, well]
    refine (leads_inside point queued).trans (.go ?_)
    rw [go_next rfl fault]
    have further := @ih { w with
      queue := queue ++ a.posts, posted := w.posted ++ a.posts, ran := w.ran ++ [a]
      since := w.since ++ [a], point := .pop, count := w.count + 1 } rfl rfl
    simpa [Safepoint.poll, well, polled, point, Nat.add_assoc, Nat.add_comm 1] using further

/-! Where a thread stands with its task. -/

/-- How the tasks so far have ended. -/
def told (w : Watch) : List (Task × Except Overflow (Option Fault)) :=
  w.returns.map fun r => (r.task, r.ending)

structure At (w : Watch) (point : Point) (task : Task) (first : Option Fault)
    (before : List (Task × Except Overflow (Option Fault))) : Prop where
  point : w.point = point
  task : w.task = task
  first : w.first = first
  told : w.told = before

/-- Where a thread stands after a poll or a try at the lock: it goes on waiting, or it is done, or,
retaking the lock, it has yet to store its levels or to try again. -/
def Stands (w : Watch) (task : Task) (first : Option Fault)
    (before : List (Task × Except Overflow (Option Fault))) : Acquisition → Prop
  | .blocked => w.At .attempt task first before ∧ w.queue = []
  | .taken =>
    match task with
    | .reacquire levels => w.At (.store levels) task first before
    | _ => w.At .idle task none (before ++ [(task, .ok none)])
  | .interrupted fault =>
    match task with
    | .reacquire _ => w.At .attempt task (first.or (some fault)) before
    | _ => w.At .idle task none (before ++ [(task, .ok (some fault))])
  | .stopped overflow => w.At .idle task none (before ++ [(task, .error overflow)])

theorem leave_at (w : Watch) (ending : Except Overflow (Option Fault)) (count : Nat)
    (lock : ExtensionLock) :
    (w.leave ending count lock).At .idle w.task none (w.told ++ [(w.task, ending)]) :=
  ⟨rfl, rfl, rfl, by simp [leave, told]⟩

theorem At.change (stands : w.At point task first before) :
    At { w with lock } point task first before :=
  ⟨stands.point, stands.task, stands.first, stands.told⟩

/-- A change of the lock does not move the thread. -/
theorem Stands.change {outcome : Acquisition} (stands : w.Stands task first before outcome) :
    Stands { w with lock } task first before outcome := by
  cases outcome with
  | blocked => exact ⟨stands.1.change, stands.2⟩
  | stopped => exact At.change (w := w) stands
  | taken | interrupted => cases task <;> exact At.change (w := w) stands

theorem At.grant (stands : w.At point task first before) (waits : task ≠ .poll) :
    (w.grant lock).Stands task first before .taken := by
  obtain ⟨_, _, _, _, _, kind, _, _, _, _⟩ := w
  obtain ⟨-, rfl, rfl, rfl⟩ := stands
  cases kind with
  | poll => exact absurd rfl waits
  | acquire => exact leave_at ..
  | reacquire levels => exact ⟨rfl, rfl, rfl, rfl⟩

theorem At.rest (stands : w.At point task first before) (empty : w.queue = []) :
    w.rest.Stands task first before (if task = .poll then .taken else .blocked) := by
  obtain ⟨_, _, _, _, _, kind, _, _, _, _⟩ := w
  obtain ⟨-, rfl, rfl, rfl⟩ := stands
  cases kind with
  | poll => exact leave_at ..
  | acquire | reacquire => exact ⟨⟨rfl, rfl, rfl, rfl⟩, empty⟩

theorem At.fail {fault : Fault} (stands : w.At point task first before) :
    (w.fail fault).Stands task first before (.interrupted fault) := by
  obtain ⟨_, _, _, _, _, kind, _, _, _, _⟩ := w
  obtain ⟨-, rfl, rfl, rfl⟩ := stands
  cases kind with
  | poll | acquire => exact leave_at ..
  | reacquire levels => exact ⟨rfl, rfl, rfl, rfl⟩

/-! The lock and the actions. -/

structure Mirrors (w : Watch) (v : LockWait) : Prop where
  lock : w.lock = v.lock
  queue : w.queue = v.queue
  ran : w.ran = v.ran

theorem Mirrors.grant (mirrors : w.Mirrors v) : (w.grant lock).Mirrors { v with lock } := by
  unfold Watch.grant
  split <;> exact ⟨rfl, mirrors.queue, mirrors.ran⟩

theorem Mirrors.rest (mirrors : w.Mirrors v) : w.rest.Mirrors v := by
  unfold Watch.rest
  split <;> exact ⟨mirrors.lock, mirrors.queue, mirrors.ran⟩

theorem Mirrors.fail {fault : Fault} (mirrors : w.Mirrors v) : (w.fail fault).Mirrors v := by
  unfold Watch.fail
  split <;> exact ⟨mirrors.lock, mirrors.queue, mirrors.ran⟩

theorem leads_let_go (free : w.point = .idle ∨ w.lock.owner ≠ some me) (leaver : Option ThreadId) :
    Leads me w { w with lock := leaver.elim w.lock w.lock.unlocked } := by
  cases leaver with
  | none => exact .refl me w
  | some other =>
    refine ⟨[.change (w.lock.unlocked other)], by simp [Turn.isStep], if_pos ?_⟩
    exact free.imp isIdle_iff.2 fun out => ⟨out, ExtensionLock.owner_unlocked_ne out other⟩

/-- How a task stands after a poll. -/
def pollOutcome (task : Task) : Option Fault → Acquisition
  | some fault => .interrupted fault
  | none => if task = .poll then .taken else .blocked

theorem Mirrors.polled (mirrors : w.Mirrors v) (p : Safepoint.Poll) :
    (w.polled p).Mirrors { v with queue := p.left, ran := v.ran ++ p.ran } := by
  unfold Watch.polled
  have moved : Mirrors { w with
      queue := p.left, ran := w.ran ++ p.ran, since := w.since ++ p.ran
      posted := w.posted ++ p.ran.flatMap SafepointAction.posts, count := w.count + p.ran.length }
      { v with queue := p.left, ran := v.ran ++ p.ran } :=
    ⟨mirrors.lock, rfl, congrArg (· ++ p.ran) mirrors.ran⟩
  cases p.failure with
  | none => exact moved.rest
  | some fault => exact moved.fail

theorem At.polled (stands : w.At point task first before) {p : Safepoint.Poll}
    (left : p.failure = none → p.left = []) :
    (w.polled p).Stands task first before (pollOutcome task p.failure) := by
  unfold Watch.polled
  cases failed : p.failure with
  | none => exact At.rest ⟨stands.point, stands.task, stands.first, stands.told⟩ (left failed)
  | some fault => exact At.fail ⟨stands.point, stands.task, stands.first, stands.told⟩

theorem Stands.idle {failure : Option Fault}
    (stands : w.Stands .poll first before (pollOutcome .poll failure)) : w.point = .idle := by
  cases failure <;> exact At.point stands

/-- A poll, as a task of its own or during a wait. -/
theorem poll_leads (stands : w.At .pop task first before) (mirrors : w.Mirrors v)
    (free : task = .poll ∨ w.lock.owner ≠ some me) :
    ∃ w', Leads me w w' ∧ w'.Mirrors v.poll.2 ∧
      w'.Stands task first before (pollOutcome task v.poll.1) := by
  have leads := leads_polled me stands.point
  rw [mirrors.queue] at leads
  have mirrors' := mirrors.polled (Safepoint.poll v.queue)
  have stands' := stands.polled (p := Safepoint.poll v.queue) Safepoint.left_of_poll
  -- whoever is asked to leave does so now
  have free' : (w.polled (Safepoint.poll v.queue)).point = .idle ∨
      (w.polled (Safepoint.poll v.queue)).lock.owner ≠ some me := by
    rcases free with rfl | out
    · exact .inl stands'.idle
    · exact .inr (by rwa [mirrors'.lock, ← mirrors.lock])
  refine ⟨_, leads.trans (leads_let_go free' (if (Safepoint.poll v.queue).ran.any (·.releases)
    then v.contender else none)), ⟨?_, mirrors'.queue, mirrors'.ran⟩, stands'.change⟩
  rw [mirrors'.lock]
  rfl

/-- An attempt that gets the lock. -/
theorem leads_taken (stands : w.At .attempt task first before) (waits : task ≠ .poll)
    (mirrors : w.Mirrors v) (now : v.lock.tryAcquire me = .ok (some lock)) :
    Leads me w (w.grant lock) ∧ (w.grant lock).Mirrors { v with lock } ∧
      (w.grant lock).Stands task first before .taken := by
  refine ⟨.go ?_, mirrors.grant, stands.grant waits⟩
  rw [go_attempt stands.point, look, mirrors.lock, now]
  exact .refl me _

/-- An attempt in which the thread stops. -/
theorem leads_stopped {overflow : Overflow} (stands : w.At .attempt task first before)
    (mirrors : w.Mirrors v) (now : v.lock.tryAcquire me = .error overflow) :
    ∃ w', Leads me w w' ∧ w'.Mirrors v ∧ w'.Stands task first before (.stopped overflow) := by
  have ended := leave_at w (.error overflow) 0 w.lock
  rw [stands.told, stands.task] at ended
  refine ⟨w.leave (.error overflow) 0 w.lock, .go ?_, ?_, ended⟩
  · rw [go_attempt stands.point, look, show w.lock.tryAcquire me = _ from mirrors.lock ▸ now]
    exact .refl me _
  · exact ⟨mirrors.lock, mirrors.queue, mirrors.ran⟩

/-- Two attempts that miss. -/
theorem leads_missed (stands : w.At .attempt task first before)
    (missed : w.lock.tryAcquire me = .ok none) :
    ∃ w', Leads me w w' ∧ w'.At .pop task first before ∧ w'.lock = w.lock ∧
      w'.queue = w.queue ∧ w'.ran = w.ran := by
  refine ⟨{ w with point := .pop }, .go (.go ?_), ?_, rfl, rfl, rfl⟩
  · rw [go_attempt stands.point, look_missed missed, go_retry rfl]
    exact look_missed (w := { w with point := .retry }) missed .pop ▸ .refl me _
  · exact ⟨rfl, stands.task, stands.first, stands.told⟩

/-- A wait for the lock, up to the point where nothing is left that could end it. -/
theorem acquire_leads (stands : w.At .attempt task first before) (waits : task ≠ .poll)
    (mirrors : w.Mirrors v) :
    ∃ w', Leads me w w' ∧ w'.Mirrors (v.acquire me).2 ∧
      w'.Stands task first before (v.acquire me).1 := by
  unfold LockWait.acquire
  cases now : v.lock.tryAcquire me with
  | error overflow => exact leads_stopped stands mirrors now
  | ok got =>
    cases got with
    | some lock => exact ⟨_, leads_taken stands waits mirrors now⟩
    | none =>
      have missed : w.lock.tryAcquire me = .ok none := mirrors.lock ▸ now
      obtain ⟨w₁, leads₁, stands₁, lock, queue, ran⟩ := leads_missed stands missed
      have mirrors₁ : w₁.Mirrors v :=
        ⟨lock.trans mirrors.lock, queue.trans mirrors.queue, ran.trans mirrors.ran⟩
      obtain ⟨w₂, leads₂, mirrors₂, stands₂⟩ :=
        poll_leads stands₁ mirrors₁ (.inr (lock ▸ ExtensionLock.owner_of_missed missed))
      have leads := leads₁.trans leads₂
      generalize v.poll = p at mirrors₂ stands₂
      obtain ⟨failure, v'⟩ := p
      cases failure with
      | some fault => exact ⟨w₂, leads, mirrors₂, stands₂⟩
      | none =>
        simp only [pollOutcome, if_neg waits] at stands₂
        cases later : v'.lock.tryAcquire me with
        | error overflow =>
          obtain ⟨w₃, leads₃, rest⟩ := leads_stopped stands₂.1 mirrors₂ later
          simpa only [later] using ⟨w₃, leads.trans leads₃, rest⟩
        | ok got =>
          cases got with
          | none => simpa only [later] using ⟨w₂, leads, mirrors₂, stands₂⟩
          | some lock =>
            obtain ⟨leads₃, rest⟩ := leads_taken stands₂.1 waits mirrors₂ later
            simpa only [later] using ⟨_, leads.trans leads₃, rest⟩

/-- Where a retake stands before it stores its levels. -/
def Insists (w : Watch) (levels : Nat)
    (before : List (Task × Except Overflow (Option Fault))) : Acquisition → Prop
  | .blocked => w.point = .attempt ∧ w.told = before ∧ w.queue = []
  | .stopped overflow => w.point = .idle ∧ w.told = before ++ [(.reacquire levels, .error overflow)]
  | .taken => w.At (.store levels) (.reacquire levels) none before
  | .interrupted fault => w.At (.store levels) (.reacquire levels) (some fault) before

/-- A wait that goes on past failures. -/
theorem insist_leads (me : ThreadId) {levels : Nat}
    (stands : w.At .attempt (.reacquire levels) first before) (mirrors : w.Mirrors v) :
    ∃ w', Leads me w w' ∧ w'.Mirrors (v.insist me first).2 ∧
      w'.Insists levels before (v.insist me first).1 := by
  have waits : Task.reacquire levels ≠ .poll := by simp
  fun_induction LockWait.insist v me first generalizing w with
  | case1 v first v' taken =>
    obtain ⟨w', leads, mirrors', stands'⟩ := acquire_leads stands waits mirrors
    rw [taken] at mirrors' stands'
    refine ⟨w', leads, mirrors', ?_⟩
    cases first <;> exact stands'
  | case2 v first v' blocked =>
    obtain ⟨w', leads, mirrors', stands'⟩ := acquire_leads stands waits mirrors
    rw [blocked] at mirrors' stands'
    exact ⟨w', leads, mirrors', stands'.1.point, stands'.1.told, stands'.2⟩
  | case3 v first overflow v' stopped =>
    obtain ⟨w', leads, mirrors', stands'⟩ := acquire_leads stands waits mirrors
    rw [stopped] at mirrors' stands'
    exact ⟨w', leads, mirrors', At.point stands', At.told stands'⟩
  | case4 v first fault v' interrupted ih =>
    obtain ⟨w', leads, mirrors', stands'⟩ := acquire_leads stands waits mirrors
    rw [interrupted] at mirrors' stands'
    obtain ⟨w'', leads', rest⟩ := ih stands' mirrors'
    exact ⟨w'', leads.trans leads', rest⟩

/-- How a task that nobody has posted to ends, or that it waits with nothing left to run. -/
def Ends (w : Watch) (task : Task) : Acquisition → Prop
  | .taken => w.point = .idle ∧ w.told = [(task, .ok none)]
  | .interrupted fault => w.point = .idle ∧ w.told = [(task, .ok (some fault))]
  | .stopped overflow => w.point = .idle ∧ w.told = [(task, .error overflow)]
  | .blocked => w.point = .attempt ∧ w.told = [] ∧ w.queue = []

theorem Stands.ends {outcome : Acquisition} (stops : task.stops)
    (stands : w.Stands task first [] outcome) : w.Ends task outcome := by
  cases outcome with
  | blocked => exact ⟨stands.1.point, stands.1.told, stands.2⟩
  | stopped => exact ⟨At.point stands, At.told stands⟩
  | taken | interrupted =>
    cases task with
    | poll | acquire => exact ⟨At.point stands, At.told stands⟩
    | reacquire levels => cases stops

end Watch

/-- A task that is done in one go. -/
def LockWait.answer (v : LockWait) (me : ThreadId) : Task → Acquisition × LockWait
  | .poll => (Watch.pollOutcome .poll v.poll.1, v.poll.2)
  | .acquire => v.acquire me
  | .reacquire levels => v.reacquire me levels

namespace Watch

variable {w : Watch} {me : ThreadId} {v : LockWait}

theorem leads_stored {levels : Nat} {failure : Option Fault}
    (stands : w.At (.store levels) (.reacquire levels) failure []) (mirrors : w.Mirrors v) :
    ∃ w', Leads me w w' ∧ w'.Mirrors { v with lock := { v.lock with count := levels } } ∧
      w'.point = .idle ∧ w'.told = [(.reacquire levels, .ok failure)] := by
  have leads := leads_go w me
  have ended := leave_at w (.ok w.first) 0 { w.lock with count := levels }
  rw [go_store stands.point, stands.first] at leads
  rw [stands.told, stands.task, stands.first] at ended
  refine ⟨_, leads, ⟨?_, mirrors.queue, mirrors.ran⟩, ended.point, ended.told⟩
  rw [← mirrors.lock]
  rfl

/-- A thread that has begun to retake the lock comes to the end of it. -/
theorem reacquire_leads {levels : Nat} (stands : w.At .attempt (.reacquire levels) none [])
    (positive : levels ≠ 0) (mirrors : w.Mirrors v) :
    ∃ w', Leads me w w' ∧ w'.Mirrors (v.reacquire me levels).2 ∧
      w'.Ends (.reacquire levels) (v.reacquire me levels).1 := by
  obtain ⟨w', leads, mirrors', insists⟩ := insist_leads me stands mirrors
  unfold LockWait.reacquire
  rw [if_neg positive]
  generalize v.insist me none = tried at mirrors' insists
  obtain ⟨outcome, v'⟩ := tried
  cases outcome with
  | blocked | stopped => exact ⟨w', leads, mirrors', insists⟩
  | taken | interrupted =>
    obtain ⟨w'', leads', stored⟩ := leads_stored insists mirrors'
    exact ⟨w'', leads.trans leads', stored⟩

/-- Whatever is done in one go is a run. -/
theorem answer_leads (me : ThreadId) (lock : ExtensionLock) (contender : Option ThreadId)
    (queue : List SafepointAction) (task : Task) :
    ∃ w, Leads me ((start lock queue).begin task) w ∧
      w.Mirrors (LockWait.answer ⟨lock, contender, queue, []⟩ me task).2 ∧
      w.Ends task (LockWait.answer ⟨lock, contender, queue, []⟩ me task).1 := by
  have mirrors {w : Watch} (lock' : w.lock = lock) (queue' : w.queue = queue) (ran : w.ran = []) :
      w.Mirrors ⟨lock, contender, queue, []⟩ := ⟨lock', queue', ran⟩
  cases task with
  | poll =>
    have stands : ((start lock queue).begin .poll).At .pop .poll none [] := ⟨rfl, rfl, rfl, rfl⟩
    obtain ⟨w, leads, mirrors', stands'⟩ := poll_leads stands (mirrors rfl rfl rfl) (.inl rfl)
    exact ⟨w, leads, mirrors', stands'.ends rfl⟩
  | acquire =>
    have stands : ((start lock queue).begin .acquire).At .attempt .acquire none [] :=
      ⟨rfl, rfl, rfl, rfl⟩
    obtain ⟨w, leads, mirrors', stands'⟩ := acquire_leads stands (by simp) (mirrors rfl rfl rfl)
    exact ⟨w, leads, mirrors', stands'.ends rfl⟩
  | reacquire levels =>
    by_cases zero : levels = 0
    · subst zero
      exact ⟨_, .refl me _, ⟨rfl, rfl, rfl⟩, rfl, rfl⟩
    · have begun : (start lock queue).begin (.reacquire levels) =
          { start lock queue with task := .reacquire levels, point := .attempt } := if_neg zero
      rw [begun]
      exact reacquire_leads ⟨rfl, rfl, rfl, rfl⟩ zero (mirrors rfl rfl rfl)

end Watch

namespace Bridge

variable {me : ThreadId} {b : Bridge} {block : Value} {α : Type}

/-- A thread of the bridge on its way to the lock. -/
def waiting (b : Bridge) (me : ThreadId) : LockWait :=
  ⟨b.lock, b.contender, (b.thread me).safepoints, []⟩

/-- The bridge after the thread has waited: nothing but the lock, who contends for it and the queue of
the thread has changed. -/
def waited (b : Bridge) (me : ThreadId) (w : LockWait) : Bridge :=
  { b.updateThread me fun t => { t with safepoints := w.queue } with
    lock := w.lock, contender := w.contender }

theorem updateThread_updateThread (f g : Thread → Thread) :
    (b.updateThread me f).updateThread me g = b.updateThread me (g ∘ f) := by
  have same : (b.threads.modify me f).modify me g = b.threads.modify me (g ∘ f) := by
    apply Array.ext_getElem?
    intro i
    simp only [Array.getElem?_modify]
    split <;> simp
  simp only [updateThread, same]

theorem waiting_updateStack (f : CallStack → CallStack) :
    (b.updateStack me f).waiting me = b.waiting me := by
  have safepoints : ((b.updateStack me f).thread me).safepoints = (b.thread me).safepoints := by
    rw [updateStack, thread_updateThread]
    split <;> rfl
  simp only [waiting, safepoints]
  rfl

/-- The frame of a call that does not get in is popped as if it had not been pushed. -/
theorem waited_pop (w : LockWait) :
    ((b.updateStack me (·.push block)).waited me w).updateStack me CallStack.pop = b.waited me w := by
  have threads : (((b.updateStack me (·.push block)).updateThread me fun t =>
      { t with safepoints := w.queue }).updateStack me CallStack.pop) =
        b.updateThread me fun t => { t with safepoints := w.queue } := by
    rw [updateStack, updateStack, updateThread_updateThread, updateThread_updateThread]
    rfl
  exact congrArg (fun b : Bridge => { b with lock := w.lock, contender := w.contender }) threads

theorem acquireLock_run (b : Bridge) (me : ThreadId) :
    (acquireLock me).run b = ((((b.waiting me).acquire me).1, ((b.waiting me).acquire me).2.ran),
      b.waited me ((b.waiting me).acquire me).2) := rfl

/-- A call that wants the lock and does not get it. -/
theorem enterCall_refused (wanted : (b.options.extensionLock && !b.lock.isHeldBy me) = true)
    (out : ((b.waiting me).acquire me).1 ≠ .taken) :
    (enterCall me block).run b = (⟨((b.waiting me).acquire me).1, false,
      ((b.waiting me).acquire me).2.ran⟩, b.waited me ((b.waiting me).acquire me).2) := by
  have looked : (enterCall me block).run b = (if b.options.extensionLock && !b.lock.isHeldBy me
      then _ else _ : StateM Bridge Entrance).run (b.updateStack me (·.push block)) := rfl
  have waited := acquireLock_run (b.updateStack me (·.push block)) me
  rw [waiting_updateStack] at waited
  rw [looked, if_pos wanted, StateT.run_bind, waited]
  generalize (b.waiting me).acquire me = tried at out ⊢
  obtain ⟨outcome, w⟩ := tried
  cases outcome with
  | taken => exact absurd rfl out
  | interrupted | blocked | stopped => exact congrArg (Prod.mk _) (waited_pop w)

/-- What a call that does not get the lock answers is for `refused` to say, of a bridge on which only
the wait has left its mark. -/
theorem callWith_refused (block : Value) (refused body : Entrance → StateM Bridge α)
    (wanted : (b.options.extensionLock && !b.lock.isHeldBy me) = true)
    (out : ((b.waiting me).acquire me).1 ≠ .taken) :
    (callWith (fun x => x) me block refused body).run b =
      (refused ⟨((b.waiting me).acquire me).1, false, ((b.waiting me).acquire me).2.ran⟩).run
        (b.waited me ((b.waiting me).acquire me).2) := by
  rw [callWith, StateT.run_bind, enterCall_refused wanted out]
  generalize (b.waiting me).acquire me = tried at out ⊢
  obtain ⟨outcome, w⟩ := tried
  cases outcome with
  | taken => exact absurd rfl out
  | interrupted | blocked | stopped => rfl

theorem waited_stack (b : Bridge) (me : ThreadId) (w : LockWait) :
    ((b.waited me w).thread me).stack = (b.thread me).stack :=
  (updateThread_same (b := b) (f := fun t => { t with safepoints := w.queue }) fun _ => rfl).stack

end Bridge

namespace LockWait

variable {v : LockWait} {me : ThreadId}

theorem poll_lock (stay : ∀ a ∈ v.poll.2.ran, a.releases = false) : v.poll.2.lock = v.lock := by
  have none : (Safepoint.poll v.queue).ran.any (·.releases) = false := by
    rw [List.any_eq_false]
    intro a member
    simp [stay a (List.mem_append_right _ member)]
  simp [poll, none]

/-- A wait that does not get the lock does nothing to it, unless an action has the contender leave. -/
theorem acquire_lock (v : LockWait) (me : ThreadId) (out : (v.acquire me).1 ≠ .taken)
    (stay : ∀ a ∈ (v.acquire me).2.ran, a.releases = false) : (v.acquire me).2.lock = v.lock := by
  have same := poll_lock (v := v)
  unfold acquire at out stay ⊢
  cases now : v.lock.tryAcquire me with
  | error overflow => rfl
  | ok got =>
    cases got with
    | some lock => simp [now] at out
    | none =>
      simp only [now] at out stay ⊢
      generalize v.poll = p at *
      obtain ⟨failure, w⟩ := p
      cases failure with
      | some fault => exact same stay
      | none =>
        cases later : w.lock.tryAcquire me with
        | error overflow =>
          simp only [later] at stay ⊢
          exact same stay
        | ok got =>
          cases got with
          | some lock => simp [later] at out
          | none =>
            simp only [later] at stay ⊢
            exact same stay

end LockWait

namespace Watch

/-- A state that a thread can come to, from any lock and any queue, while others do what they like. -/
def Reached (me : ThreadId) (w : Watch) : Prop :=
  ∃ lock queue turns, (start lock queue).run me turns = w

theorem Reached.sound {w : Watch} {me : ThreadId} (reached : Reached me w) : w.Sound me := by
  obtain ⟨lock, queue, turns, rfl⟩ := reached
  exact (start_sound lock queue me).run turns

/-- What holds of a thread at its safepoints. -/
structure Heeded (me : ThreadId) : Prop where
  /-- Every action that was posted has run or is queued, in the order of posting. -/
  order : ∀ w, Reached me w → w.ran ++ w.queue = w.posted
  /-- What has run has run in some task, and once. -/
  once : ∀ w, Reached me w → w.returns.flatMap Return.ran ++ w.since = w.ran
  /-- What a task has left queued comes next in the order of posting. -/
  left : ∀ w, Reached me w → ∀ old r later, w.returns = old ++ r :: later →
    old.flatMap Return.ran ++ r.ran ++ r.left <+: w.posted
  right : ∀ w, Reached me w → ∀ r ∈ w.returns, r.Right me
  /-- Whatever another thread does at the lock is among the changes that are reckoned with. -/
  others : ∀ (w : Watch) (c : Contention), c.Sound → w.lock = c.lock → ∀ other ≠ me, ∀ step,
    w.turn me (.change (c.advance other step).lock) = { w with lock := (c.advance other step).lock }
  /-- Alone, a poll answers for what was queued and for what its actions post. -/
  polled : ∀ queue, (Safepoint.poll queue).ran ++ (Safepoint.poll queue).left =
    queue ++ (Safepoint.poll queue).ran.flatMap SafepointAction.posts
  /-- While another thread keeps the lock, no wait gets it or does anything to it. -/
  barred : ∀ w, Reached me w → ∀ other turns, w.lock.owner = some other → other ≠ me →
    (∀ lock, Turn.change lock ∈ turns → lock.owner = some other) →
    (w.run me turns).lock = (turns.filterMap Turn.change?).getLast?.getD w.lock ∧
      ∃ new, (w.run me turns).returns = w.returns ++ new ∧ ∀ r ∈ new, r.lock = r.found ∧
        (∃ failure, r.ending = .ok failure) ∧ (r.task = .acquire → r.ending ≠ .ok none) ∧
        ∀ levels, r.task = .reacquire levels → levels = 0
  /-- What the bridge does in one go is a run. -/
  answers : ∀ lock contender queue task, ∃ turns : List Turn, (∀ turn ∈ turns, turn.isStep) ∧
    ((start lock queue).run me (.begin task :: turns)).Mirrors
      (LockWait.answer ⟨lock, contender, queue, []⟩ me task).2 ∧
    ((start lock queue).run me (.begin task :: turns)).Ends task
      (LockWait.answer ⟨lock, contender, queue, []⟩ me task).1
  /-- A call that does not get the lock leaves the stack as it was, and the lock unless an action has
  the contender leave. -/
  refused : ∀ (b : Bridge) (α : Type) (block : Value)
    (refused body : Bridge.Entrance → StateM Bridge α) (w : LockWait) (outcome : Acquisition),
    (b.options.extensionLock && !b.lock.isHeldBy me) = true →
    (b.waiting me).acquire me = (outcome, w) → outcome ≠ .taken →
    (Bridge.callWith (fun x => x) me block refused body).run b =
        (refused ⟨outcome, false, w.ran⟩).run (b.waited me w) ∧
      ((b.waited me w).thread me).stack = (b.thread me).stack ∧
      ((∀ a ∈ w.ran, a.releases = false) → (b.waited me w).lock = b.lock)

/-- A thread answers its safepoints once each and in order, and a wait that is given up leaves no
trace. -/
theorem heeded (me : ThreadId) : Heeded me := by
  constructor
  case order => exact fun w reached => reached.sound.order
  case once => exact fun w reached => reached.sound.once
  case left => exact fun w reached => reached.sound.left
  case right => exact fun w reached => reached.sound.returns
  case others =>
    intro w c sound same other different step
    rcases other_cases sound different step with kept | free
    · simp only [turn, kept, ← same, ite_self]
    · exact if_pos (.inr (same ▸ free))
  case polled => exact Safepoint.ran_append_left
  case barred =>
    intro w reached other turns held different keeps
    obtain ⟨lock, new, returns, found⟩ := reached.sound.kept held different keeps
    refine ⟨lock, new, returns, fun r member => ?_⟩
    have right := (reached.sound.run turns).returns r
      (returns ▸ List.mem_append_right _ member)
    exact right.barred (found r member) different
  case answers =>
    intro lock contender queue task
    obtain ⟨_, ⟨turns, steps, rfl⟩, mirrors, ends⟩ := answer_leads me lock contender queue task
    exact ⟨turns, steps, mirrors, ends⟩
  case refused =>
    intro b α block refused body w outcome wanted waited out
    have run := Bridge.callWith_refused block refused body wanted (by rwa [waited])
    rw [waited] at run
    refine ⟨run, b.waited_stack me w, fun stay => ?_⟩
    have lock := LockWait.acquire_lock (b.waiting me) me (by rwa [waited])
    rw [waited] at lock
    exact lock stay

end Watch

/-- Retaking no level does not take the lock. -/
theorem LockWait.not_reacquire_owner : ¬ ∀ (v : LockWait) (me : ThreadId) (levels : Nat),
    (v.reacquire me levels).1 = .taken → (v.reacquire me levels).2.lock.owner = some me := by
  intro owns
  exact nomatch owns ⟨{}, none, [], []⟩ 0 0 rfl

end RopeBridge
