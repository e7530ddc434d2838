import RopeBridge.Proofs.Lock.Waits

/-! A thread that answers its safepoints while other threads post to it and use the lock, their steps
interleaved in any order. A step of the thread is what it does while it has the queue or the lock to
itself: it takes the first action, posts one, looks whether the lock is to be had. Whatever the order,
every action that was posted has run once, in the order of posting, or is still queued, and each poll
and each wait returns as it should. -/
namespace RopeBridge

namespace SafepointAction

def fault? (a : SafepointAction) : Option Fault := a.failure.map .interrupted

/-- The failure of the first action that fails. -/
def firstFault (actions : List SafepointAction) : Option Fault := actions.findSome? fault?

@[simp] theorem firstFault_nil : firstFault [] = none := rfl

@[simp] theorem firstFault_concat (actions : List SafepointAction) (a : SafepointAction) :
    firstFault (actions ++ [a]) = (firstFault actions).or a.fault? := by
  simp only [firstFault, List.findSome?_append, List.findSome?_singleton]

theorem firstFault_eq_none_iff {actions : List SafepointAction} :
    firstFault actions = none ↔ ∀ a ∈ actions, a.failure = none := by
  simp [firstFault, fault?]

end SafepointAction

open SafepointAction (firstFault)

/-- What a thread answers safepoints for. -/
inductive Task where
  | poll
  /-- A wait for the lock that ends with the first failure. -/
  | acquire
  | reacquire (levels : Nat)
deriving DecidableEq

/-- Whether a failure ends the task. -/
def Task.stops : Task → Bool
  | poll | acquire => true
  | reacquire _ => false

/-- What a thread does next. -/
inductive Point where
  /-- Nothing of the kind. -/
  | idle
  | attempt
  /-- A second attempt, after some time. -/
  | retry
  /-- Take the first action, if there is one. -/
  | pop
  /-- Run the rest of an action, which has these to post. -/
  | inside (action : SafepointAction) (due : List SafepointAction)
  | store (levels : Nat)

/-- What a thread has to show for a task that is over. -/
structure Return where
  task : Task
  /-- With or without a failure, or not at all, as the thread has stopped. -/
  ending : Except Overflow (Option Fault)
  /-- The number of actions that a poll tells. -/
  count : Nat
  /-- The actions that have run since the task began. -/
  ran : List SafepointAction
  /-- The queue at the end. -/
  left : List SafepointAction
  /-- The lock as the last step found it and as it left it. -/
  found : ExtensionLock
  lock : ExtensionLock

/-- The lock, the queue of one thread, and what the thread is doing. -/
structure Watch where
  lock : ExtensionLock
  queue : List SafepointAction
  /-- Every action posted so far, in order. -/
  posted : List SafepointAction
  ran : List SafepointAction := []
  point : Point := .idle
  task : Task := .poll
  /-- The actions that have run since the task began. -/
  since : List SafepointAction := []
  /-- A failure to be told once the lock has been taken. -/
  first : Option Fault := none
  /-- How many actions of the poll in progress have run to their end. -/
  count : Nat := 0
  returns : List Return := []

namespace Watch

/-- A thread with a queue, and no task yet. -/
def start (lock : ExtensionLock) (queue : List SafepointAction) : Watch :=
  { lock, queue, posted := queue }

def post (w : Watch) (a : SafepointAction) : Watch :=
  { w with queue := w.queue ++ [a], posted := w.posted ++ [a] }

def leave (w : Watch) (ending : Except Overflow (Option Fault)) (count : Nat)
    (lock : ExtensionLock) : Watch :=
  { w with
    lock, point := .idle, since := [], first := none, count := 0
    returns := w.returns ++ [⟨w.task, ending, count, w.since, w.queue, w.lock, lock⟩] }

/-- Takes up a task. Retaking no level is over at once. -/
def begin (w : Watch) (task : Task) : Watch :=
  match task with
  | .poll => { w with task, point := .pop }
  | .acquire => { w with task, point := .attempt }
  | .reacquire levels =>
    if levels = 0 then { w with task }.leave (.ok none) 0 w.lock
    else { w with task, point := .attempt }

/-- With the lock taken. -/
def grant (w : Watch) (lock : ExtensionLock) : Watch :=
  match w.task with
  | .reacquire levels => { w with lock, point := .store levels }
  | _ => w.leave (.ok none) 0 lock

/-- Looks whether the lock is to be had, and goes on elsewhere if it is not. -/
def look (w : Watch) (me : ThreadId) (elsewhere : Point) : Watch :=
  match w.lock.tryAcquire me with
  | .ok (some lock) => w.grant lock
  | .ok none => { w with point := elsewhere }
  | .error overflow => w.leave (.error overflow) 0 w.lock

/-- No action is left. -/
def rest (w : Watch) : Watch :=
  if w.task = .poll then w.leave (.ok none) w.count w.lock
  else { w with point := .attempt, count := 0 }

/-- An action has failed. -/
def fail (w : Watch) (fault : Fault) : Watch :=
  if w.task.stops then w.leave (.ok (some fault)) 0 w.lock
  else { w with point := .attempt, count := 0, first := w.first.or (some fault) }

/-- The next step of thread `me`. -/
def go (w : Watch) (me : ThreadId) : Watch :=
  match w.point with
  | .idle => w
  | .attempt => w.look me .retry
  | .retry => w.look me .pop
  | .pop =>
    match w.queue with
    | [] => w.rest
    | a :: queue => { w with
        queue, ran := w.ran ++ [a], since := w.since ++ [a], point := .inside a a.posts }
  | .inside a (b :: due) => { w.post b with point := .inside a due }
  | .inside a [] =>
    match a.fault? with
    | none => { w with point := .pop, count := w.count + 1 }
    | some fault => w.fail fault
  | .store levels => w.leave (.ok w.first) 0 { w.lock with count := levels }

section

variable {w : Watch} {me : ThreadId} {a b : SafepointAction} {due queue : List SafepointAction}

theorem go_idle (point : w.point = .idle) : w.go me = w := by simp only [go, point]

theorem go_attempt (point : w.point = .attempt) : w.go me = w.look me .retry := by
  simp only [go, point]

theorem go_retry (point : w.point = .retry) : w.go me = w.look me .pop := by simp only [go, point]

theorem go_empty (point : w.point = .pop) (empty : w.queue = []) : w.go me = w.rest := by
  simp only [go, point, empty]

theorem go_pop (point : w.point = .pop) (found : w.queue = a :: queue) :
    w.go me = { w with
      queue, ran := w.ran ++ [a], since := w.since ++ [a], point := .inside a a.posts } := by
  simp only [go, point, found]

theorem go_post (point : w.point = .inside a (b :: due)) :
    w.go me = { w.post b with point := .inside a due } := by simp only [go, point]

theorem go_next (point : w.point = .inside a []) (ends : a.fault? = none) :
    w.go me = { w with point := .pop, count := w.count + 1 } := by simp only [go, point, ends]

theorem go_fail {fault : Fault} (point : w.point = .inside a []) (ends : a.fault? = some fault) :
    w.go me = w.fail fault := by simp only [go, point, ends]

theorem go_store {levels : Nat} (point : w.point = .store levels) :
    w.go me = w.leave (.ok w.first) 0 { w.lock with count := levels } := by
  simp only [go, point]

end

def isIdle (w : Watch) : Bool := w.point matches .idle

inductive Turn where
  | begin (task : Task)
  | go
  /-- Some thread posts an action. -/
  | post (a : SafepointAction)
  /-- The lock is taken or let go of, by another thread or by this one between its tasks. -/
  | change (lock : ExtensionLock)

/-- What the lock is changed to. -/
def Turn.change? : Turn → Option ExtensionLock
  | change lock => some lock
  | _ => none

/-- The lock may change to `lock` without the thread's doing: during a task nobody takes it from the
thread or takes it for the thread. -/
def Free (w : Watch) (me : ThreadId) (lock : ExtensionLock) : Prop :=
  w.isIdle ∨ w.lock.owner ≠ some me ∧ lock.owner ≠ some me

instance (w : Watch) (me : ThreadId) (lock : ExtensionLock) : Decidable (w.Free me lock) :=
  inferInstanceAs (Decidable (_ ∨ _))

def turn (w : Watch) (me : ThreadId) : Turn → Watch
  | .begin task => if w.isIdle then w.begin task else w
  | .go => w.go me
  | .post a => w.post a
  | .change lock => if w.Free me lock then { w with lock } else w

def run (w : Watch) (me : ThreadId) (turns : List Turn) : Watch := turns.foldl (·.turn me ·) w

end Watch

/-- What a task comes to, by how it ends and by its kind. A thread stops only if it has had as many
levels as can be counted before it ran an action. -/
def Return.Outcome (me : ThreadId) (r : Return) : Prop :=
  match r.ending, r.task with
  | .error overflow, task => r.lock = r.found ∧ r.ran = [] ∧ task ≠ .poll ∧
    r.found.tryAcquire me = .error overflow
  | .ok none, .poll => r.lock = r.found ∧ r.count = r.ran.length ∧ r.left = []
  | .ok (some _), .poll => r.lock = r.found
  | .ok none, .acquire => r.found.tryAcquire me = .ok (some r.lock)
  | .ok (some _), .acquire => r.lock = r.found ∧ r.found.owner ≠ some me
  | .ok _, .reacquire 0 => r.lock = r.found ∧ r.ran = []
  | .ok _, .reacquire levels => r.lock = ⟨some me, levels⟩ ∧ r.found.owner = some me

/-- What is promised of a task that is over. -/
structure Return.Right (me : ThreadId) (r : Return) : Prop where
  /-- It fails as the first of its actions that failed, and only if there is one. -/
  failure : ∀ failure, r.ending = .ok failure → failure = firstFault r.ran
  /-- If a failure ends the task, no action is run behind it. -/
  last : r.task.stops → ∀ a ∈ r.ran.dropLast, a.failure = none
  outcome : r.Outcome me

namespace Watch

variable {w : Watch} {me : ThreadId} {earlier : List SafepointAction} {lock : ExtensionLock}
  {ending : Except Overflow (Option Fault)} {count : Nat}

@[simp] theorem isIdle_iff : w.isIdle = true ↔ w.point = .idle := by
  unfold isIdle
  split <;> simp_all

/-- What a task knows when it has run these actions to their end. -/
structure Progress (task : Task) (first : Option Fault) (count : Nat)
    (actions : List SafepointAction) : Prop where
  failed : firstFault actions = first
  stops : task.stops → first = none
  counted : task = .poll → count = actions.length
  positive : task ≠ .reacquire 0

abbrev Under (w : Watch) (actions : List SafepointAction) : Prop :=
  Progress w.task w.first w.count actions

/-- A task that waits for the lock does not have it. -/
def Out (w : Watch) (me : ThreadId) : Prop := w.task ≠ .poll → w.lock.owner ≠ some me

/-- What is known at each point. -/
def Fits (w : Watch) (me : ThreadId) : Prop :=
  match w.point with
  | .idle => w.since = [] ∧ w.first = none ∧ w.count = 0
  | .attempt => w.Under w.since ∧ w.task ≠ .poll ∧ (w.lock.owner = some me → w.since = [])
  | .retry => w.Under w.since ∧ w.task ≠ .poll ∧ w.Out me
  | .pop => w.Under w.since ∧ w.Out me
  | .inside a _ => ∃ earlier, w.since = earlier ++ [a] ∧ w.Under earlier ∧ w.Out me
  | .store levels => w.Under w.since ∧ w.task = .reacquire levels ∧ w.lock.owner = some me

/-- Nothing has been lost, run twice or run out of order, and what has been returned is right. -/
structure Sound (w : Watch) (me : ThreadId) : Prop where
  order : w.ran ++ w.queue = w.posted
  once : w.returns.flatMap Return.ran ++ w.since = w.ran
  /-- What a task has left queued comes next in the order of posting. -/
  left : ∀ old r later, w.returns = old ++ r :: later →
    old.flatMap Return.ran ++ r.ran ++ r.left <+: w.posted
  returns : ∀ r ∈ w.returns, r.Right me
  fits : w.Fits me

theorem start_sound (lock : ExtensionLock) (queue : List SafepointAction) (me : ThreadId) :
    (start lock queue).Sound me := by
  constructor <;> simp [start, Fits]

/-- What has become of the actions so far. -/
def account (w : Watch) : List (List SafepointAction) × List Return :=
  ([w.ran, w.queue, w.posted, w.since], w.returns)

/-- A step to a point that fits, if it leaves the account of actions as it was. -/
theorem Sound.moved {w' : Watch} (sound : w.Sound me) (same : w'.account = w.account)
    (fits : w'.Fits me) : w'.Sound me := by
  simp only [account, Prod.mk.injEq, List.cons.injEq, and_true] at same
  obtain ⟨⟨ran, queue, posted, since⟩, returns⟩ := same
  constructor
  case order => rw [ran, queue, posted, sound.order]
  case once => rw [ran, since, returns, sound.once]
  case left => rw [returns, posted]; exact sound.left
  case returns => exact returns ▸ sound.returns
  case fits => exact fits

theorem Sound.leave (sound : w.Sound me)
    (right : Return.Right me ⟨w.task, ending, count, w.since, w.queue, w.lock, lock⟩) :
    (w.leave ending count lock).Sound me := by
  constructor
  case order => exact sound.order
  case once => simpa [Watch.leave] using sound.once
  case left =>
    intro old r later split
    rcases List.eq_nil_or_concat later with rfl | ⟨later, last, rfl⟩
    · -- the task that ends now has left what is still queued
      obtain ⟨rfl, rfl⟩ := List.append_inj' split rfl |>.imp_right List.singleton_inj.1
      rw [sound.once, sound.order]
      exact List.prefix_refl _
    · rw [List.concat_eq_append, ← List.cons_append, ← List.append_assoc] at split
      exact sound.left old r later (List.append_inj' split rfl).1
  case returns =>
    simp only [Watch.leave, List.mem_append, List.mem_singleton]
    rintro r (old | rfl)
    · exact sound.returns r old
    · exact right
  case fits => exact ⟨rfl, rfl, rfl⟩

theorem Sound.post (sound : w.Sound me) (a : SafepointAction) : (w.post a).Sound me := by
  constructor
  case order => exact (List.append_assoc ..).symm.trans (congrArg (· ++ [a]) sound.order)
  case once => exact sound.once
  case left => exact fun old r later split => (sound.left old r later split).trans ⟨[a], rfl⟩
  case returns => exact sound.returns
  case fits => exact sound.fits

/-! What a task that is over has to show for itself. -/

theorem Progress.spotless {task : Task} {first : Option Fault} {actions : List SafepointAction}
    (progress : Progress task first count actions) (stops : task.stops) :
    ∀ a ∈ actions, a.failure = none := by
  rw [← SafepointAction.firstFault_eq_none_iff, progress.failed, progress.stops stops]

/-- A task that a failure would have ended has met none. -/
theorem Progress.right_done (under : w.Under w.since) (stops : w.task.stops)
    (outcome : Return.Outcome me ⟨w.task, .ok none, count, w.since, w.queue, w.lock, lock⟩) :
    Return.Right me ⟨w.task, .ok none, count, w.since, w.queue, w.lock, lock⟩ := by
  constructor
  case failure =>
    rintro failure ⟨⟩
    exact ((under.failed).trans (under.stops stops)).symm
  case last => exact fun _ a member => under.spotless stops a (List.dropLast_subset _ member)
  case outcome => exact outcome

/-- A task that a failure ends has met it in its last action. -/
theorem Progress.right_failed {a : SafepointAction} {fault : Fault} (under : w.Under earlier)
    (since : w.since = earlier ++ [a]) (fails : a.fault? = some fault) (stops : w.task.stops)
    (out : w.Out me) :
    Return.Right me ⟨w.task, .ok (some fault), 0, w.since, w.queue, w.lock, w.lock⟩ := by
  constructor
  case failure =>
    rintro failure ⟨⟩
    rw [since, SafepointAction.firstFault_concat, under.failed, under.stops stops, fails]
    rfl
  case last =>
    intro _ b member
    rw [since, List.dropLast_concat] at member
    exact under.spotless stops b member
  case outcome =>
    cases task : w.task with
    | poll => simp [Return.Outcome]
    | acquire => simpa [Return.Outcome] using out (by simp [task])
    | reacquire levels => simp [task, Task.stops] at stops

theorem Progress.right_stored {levels : Nat} (under : w.Under w.since)
    (task : w.task = .reacquire levels) (mine : w.lock.owner = some me) :
    Return.Right me ⟨w.task, .ok w.first, 0, w.since, w.queue, w.lock,
      { w.lock with count := levels }⟩ := by
  constructor
  case failure =>
    rintro failure ⟨⟩
    exact under.failed.symm
  case last => simp [task, Task.stops]
  case outcome =>
    obtain ⟨n, rfl⟩ : ∃ n, levels = n + 1 :=
      Nat.exists_eq_succ_of_ne_zero (fun zero => under.positive (zero ▸ task))
    simp [Return.Outcome, task, mine]

/-- A thread that stops has not run an action since the task began. -/
theorem Progress.right_stopped {overflow : Overflow} (waits : w.task ≠ .poll)
    (stopped : w.lock.tryAcquire me = .error overflow) (since : w.since = []) :
    Return.Right me ⟨w.task, .error overflow, 0, w.since, w.queue, w.lock, w.lock⟩ := by
  constructor
  case failure => nofun
  case last => simp [since]
  case outcome => exact ⟨rfl, since, waits, stopped⟩

/-! Steps of the thread itself. -/

theorem Sound.grant {lock : ExtensionLock} (sound : w.Sound me) (under : w.Under w.since)
    (waits : w.task ≠ .poll) (taken : w.lock.tryAcquire me = .ok (some lock)) :
    (w.grant lock).Sound me := by
  unfold Watch.grant
  split
  next levels task =>
    refine sound.moved rfl ?_
    exact ⟨under, task, ExtensionLock.owner_of_taken taken⟩
  next other =>
    have task : w.task = .acquire := by
      cases task : w.task with
      | poll => exact absurd task waits
      | acquire => rfl
      | reacquire levels => exact absurd task (other levels)
    have stops : w.task.stops := by rw [task]; rfl
    exact sound.leave (under.right_done stops (by simpa [Return.Outcome, task] using taken))

theorem look_missed (missed : w.lock.tryAcquire me = .ok none) (elsewhere : Point) :
    w.look me elsewhere = { w with point := elsewhere } := by
  rw [Watch.look, missed]

theorem Sound.look {elsewhere : Point} (sound : w.Sound me) (under : w.Under w.since)
    (waits : w.task ≠ .poll) (since : w.lock.owner = some me → w.since = [])
    (fits : w.Out me → Fits { w with point := elsewhere } me) :
    (w.look me elsewhere).Sound me := by
  unfold Watch.look
  split
  next lock taken => exact sound.grant under waits taken
  next missed => exact sound.moved rfl (fits fun _ => ExtensionLock.owner_of_missed missed)
  next overflow stopped =>
    have mine := (ExtensionLock.tryAcquire_eq_error_iff.1 stopped).1
    exact sound.leave (Progress.right_stopped waits stopped (since mine))

theorem Sound.rest (sound : w.Sound me) (under : w.Under w.since) (out : w.Out me)
    (empty : w.queue = []) : w.rest.Sound me := by
  unfold Watch.rest
  split
  next poll =>
    have stops : w.task.stops := by rw [poll]; rfl
    refine sound.leave (under.right_done stops ?_)
    simp [Return.Outcome, poll, empty, under.counted poll]
  next waits =>
    refine sound.moved rfl ⟨?_, waits, fun mine => absurd mine (out waits)⟩
    exact ⟨under.failed, under.stops, fun poll => absurd poll waits, under.positive⟩

theorem Sound.fail {a : SafepointAction} {fault : Fault} (sound : w.Sound me)
    (under : w.Under earlier) (since : w.since = earlier ++ [a]) (fails : a.fault? = some fault)
    (out : w.Out me) : (w.fail fault).Sound me := by
  unfold Watch.fail
  split
  next stops => exact sound.leave (under.right_failed since fails stops out)
  next goes =>
    have waits : w.task ≠ .poll := fun poll => goes (by rw [poll]; rfl)
    refine sound.moved rfl ⟨?_, waits, fun mine => absurd mine (out waits)⟩
    refine ⟨?_, fun stops => absurd stops goes, fun poll => absurd poll waits, under.positive⟩
    rw [since, SafepointAction.firstFault_concat, under.failed, fails]

/-- The first action of the queue is taken out of it and counts as run. -/
theorem Sound.take {a : SafepointAction} {queue : List SafepointAction} (sound : w.Sound me)
    (under : w.Under w.since) (out : w.Out me) (found : w.queue = a :: queue) :
    Sound { w with
      queue, ran := w.ran ++ [a], since := w.since ++ [a], point := .inside a a.posts } me := by
  constructor
  case order => simpa [found] using sound.order
  case once => simpa using congrArg (· ++ [a]) sound.once
  case left => exact sound.left
  case returns => exact sound.returns
  case fits => exact ⟨_, rfl, under, out⟩

/-- An action that has not failed is over. -/
theorem Progress.next {a : SafepointAction} (under : w.Under earlier) (well : a.fault? = none) :
    Progress w.task w.first (w.count + 1) (earlier ++ [a]) := by
  constructor
  case failed => rw [SafepointAction.firstFault_concat, well, Option.or_none, under.failed]
  case stops => exact under.stops
  case counted => simpa using under.counted
  case positive => exact under.positive

theorem Sound.go (sound : w.Sound me) : (w.go me).Sound me := by
  have fits := sound.fits
  cases point : w.point with
  | idle => rwa [go_idle point]
  | attempt =>
    simp only [Fits, point] at fits
    obtain ⟨under, waits, since⟩ := fits
    rw [go_attempt point]
    exact sound.look under waits since fun out => ⟨under, waits, out⟩
  | retry =>
    simp only [Fits, point] at fits
    obtain ⟨under, waits, out⟩ := fits
    rw [go_retry point]
    exact sound.look under waits (fun mine => absurd mine (out waits)) fun out => ⟨under, out⟩
  | pop =>
    simp only [Fits, point] at fits
    obtain ⟨under, out⟩ := fits
    cases found : w.queue with
    | nil =>
      rw [go_empty point found]
      exact sound.rest under out found
    | cons a queue =>
      rw [go_pop point found]
      exact sound.take under out found
  | inside a due =>
    simp only [Fits, point] at fits
    obtain ⟨earlier, since, under, out⟩ := fits
    cases due with
    | cons b due =>
      rw [go_post point]
      exact (sound.post b).moved rfl ⟨earlier, since, under, out⟩
    | nil =>
      cases ends : a.fault? with
      | some fault =>
        rw [go_fail point ends]
        exact sound.fail under since ends out
      | none =>
        rw [go_next point ends]
        exact sound.moved rfl ⟨since ▸ under.next ends, out⟩
  | store levels =>
    simp only [Fits, point] at fits
    obtain ⟨under, task, mine⟩ := fits
    rw [go_store point]
    exact sound.leave (under.right_stored task mine)

/-! Turns. -/

theorem Sound.begin (sound : w.Sound me) (idle : w.point = .idle) (task : Task) :
    (w.begin task).Sound me := by
  have fits := sound.fits
  simp only [Fits, idle] at fits
  obtain ⟨since, first, count⟩ := fits
  have under (positive : task ≠ .reacquire 0) : Progress task w.first w.count w.since := by
    rw [since, first, count]
    exact ⟨rfl, fun _ => rfl, fun _ => rfl, positive⟩
  cases task with
  | poll =>
    refine sound.moved rfl ⟨under nofun, fun waits => absurd rfl waits⟩
  | acquire => exact sound.moved rfl ⟨under nofun, nofun, fun _ => since⟩
  | reacquire levels =>
    simp only [Watch.begin]
    split
    next zero =>
      have same : Watch.Sound { w with task := .reacquire levels } me :=
        sound.moved rfl (by simp [Fits, idle, since, first, count])
      refine same.leave ⟨?_, ?_, ?_⟩
      · simp [since]
      · simp [since]
      · simp [Return.Outcome, zero, since]
    next more => exact sound.moved rfl ⟨under (by simpa using more), nofun, fun _ => since⟩

theorem Sound.change (sound : w.Sound me) (free : w.Free me lock) :
    Sound { w with lock } me := by
  refine sound.moved rfl ?_
  have fits := sound.fits
  have other (busy : w.point ≠ .idle) : w.lock.owner ≠ some me ∧ lock.owner ≠ some me := by
    rcases free with idle | other
    · exact absurd (isIdle_iff.1 idle) busy
    · exact other
  cases point : w.point with
  | idle => simpa only [Fits, point] using fits
  | attempt =>
    simp only [Fits, point] at fits ⊢
    exact ⟨fits.1, fits.2.1, fun mine => absurd mine (other (by simp [point])).2⟩
  | retry =>
    simp only [Fits, point] at fits ⊢
    exact ⟨fits.1, fits.2.1, fun _ => (other (by simp [point])).2⟩
  | pop =>
    simp only [Fits, point] at fits ⊢
    exact ⟨fits.1, fun _ => (other (by simp [point])).2⟩
  | inside =>
    simp only [Fits, point] at fits ⊢
    obtain ⟨earlier, since, under, -⟩ := fits
    exact ⟨earlier, since, under, fun _ => (other (by simp [point])).2⟩
  | store levels =>
    simp only [Fits, point] at fits
    exact absurd fits.2.2 (other (by simp [point])).1

theorem Sound.turn (sound : w.Sound me) (turn : Turn) : (w.turn me turn).Sound me := by
  cases turn with
  | begin task =>
    by_cases idle : w.isIdle = true
    · simpa only [Watch.turn, if_pos idle] using sound.begin (isIdle_iff.1 idle) task
    · simpa only [Watch.turn, if_neg idle] using sound
  | go => exact sound.go
  | post a => exact sound.post a
  | change lock =>
    by_cases free : w.Free me lock
    · simpa only [Watch.turn, if_pos free] using sound.change free
    · simpa only [Watch.turn, if_neg free] using sound

theorem Sound.run (sound : w.Sound me) (turns : List Turn) : (w.run me turns).Sound me := by
  induction turns generalizing w with
  | nil => exact sound
  | cons turn rest ih => exact ih (sound.turn turn)

/-! While another thread keeps the lock. -/

/-- A step that leaves the lock alone. Whatever task it ends has found the lock as it was. -/
structure Quiet (w w' : Watch) : Prop where
  lock : w'.lock = w.lock
  returns : ∃ new, w'.returns = w.returns ++ new ∧ ∀ r ∈ new, r.found = w.lock

theorem Quiet.of_same {w' : Watch} (lock : w'.lock = w.lock) (returns : w'.returns = w.returns) :
    w.Quiet w' := ⟨lock, [], by simp [returns], by simp⟩

theorem quiet_leave (w : Watch) (ending : Except Overflow (Option Fault)) (count : Nat) :
    w.Quiet (w.leave ending count w.lock) := ⟨rfl, _, rfl, by simp⟩

theorem quiet_rest (w : Watch) : w.Quiet w.rest := by
  unfold rest
  split
  · exact quiet_leave ..
  · exact .of_same rfl rfl

theorem quiet_fail (w : Watch) (fault : Fault) : w.Quiet (w.fail fault) := by
  unfold fail
  split
  · exact quiet_leave ..
  · exact .of_same rfl rfl

theorem quiet_begin (w : Watch) (task : Task) : w.Quiet (w.begin task) := by
  cases task with
  | poll | acquire => exact .of_same rfl rfl
  | reacquire levels =>
    simp only [begin]
    split
    · exact ⟨rfl, _, rfl, by simp⟩
    · exact .of_same rfl rfl

theorem missed_of_held {l : ExtensionLock} {other : ThreadId} (held : l.owner = some other)
    (different : other ≠ me) : l.tryAcquire me = .ok none :=
  ExtensionLock.tryAcquire_eq_none_iff.2 ⟨other, held, different⟩

theorem Fits.quiet_go {other : ThreadId} (fits : w.Fits me) (held : w.lock.owner = some other)
    (different : other ≠ me) : w.Quiet (w.go me) := by
  cases point : w.point with
  | idle =>
    rw [go_idle point]
    exact .of_same rfl rfl
  | attempt =>
    rw [go_attempt point, look_missed (missed_of_held held different)]
    exact .of_same rfl rfl
  | retry =>
    rw [go_retry point, look_missed (missed_of_held held different)]
    exact .of_same rfl rfl
  | pop =>
    cases found : w.queue with
    | nil =>
      rw [go_empty point found]
      exact quiet_rest w
    | cons a queue =>
      rw [go_pop point found]
      exact .of_same rfl rfl
  | inside a due =>
    cases due with
    | cons b due =>
      rw [go_post point]
      exact .of_same rfl rfl
    | nil =>
      cases ends : a.fault? with
      | some fault =>
        rw [go_fail point ends]
        exact quiet_fail w fault
      | none =>
        rw [go_next point ends]
        exact .of_same rfl rfl
  | store levels =>
    -- the store comes behind an attempt that has got the lock
    simp only [Fits, point] at fits
    exact absurd (Option.some.inj (held.symm.trans fits.2.2)) different

/-- The lock has become what it was changed to last, and no task has found it with anyone but
`other`. -/
structure Kept (other : ThreadId) (turns : List Turn) (w w' : Watch) : Prop where
  lock : w'.lock = (turns.filterMap Turn.change?).getLast?.getD w.lock
  returns : ∃ new, w'.returns = w.returns ++ new ∧ ∀ r ∈ new, r.found.owner = some other

theorem Kept.quiet {w' w'' : Watch} {other : ThreadId} {turn : Turn} {rest : List Turn}
    (same : turn.change? = none) (held : w.lock.owner = some other) (step : w.Quiet w')
    (kept : Kept other rest w' w'') : Kept other (turn :: rest) w w'' := by
  obtain ⟨lock, first, added, found⟩ := step
  obtain ⟨last, new, returns, owner⟩ := kept
  refine ⟨?_, first ++ new, ?_, ?_⟩
  · rw [List.filterMap_cons_none same, last, lock]
  · rw [returns, added, List.append_assoc]
  · intro r member
    rcases List.mem_append.1 member with member | member
    · rw [found r member, held]
    · exact owner r member

theorem Kept.change {w' : Watch} {other : ThreadId} {rest : List Turn}
    (kept : Kept other rest { w with lock } w') : Kept other (.change lock :: rest) w w' := by
  refine ⟨?_, kept.returns⟩
  rw [kept.lock]
  simp [Turn.change?, List.getLast?_cons]

/-- While another thread keeps the lock, its changes are all that becomes of it, and no wait gets
it. -/
theorem Sound.kept {other : ThreadId} {turns : List Turn} (sound : w.Sound me)
    (held : w.lock.owner = some other) (different : other ≠ me)
    (keeps : ∀ lock, Turn.change lock ∈ turns → lock.owner = some other) :
    Kept other turns w (w.run me turns) := by
  induction turns generalizing w with
  | nil => exact ⟨rfl, [], (List.append_nil _).symm, by simp⟩
  | cons turn rest ih =>
    have keeps' (lock : ExtensionLock) (later : Turn.change lock ∈ rest) :=
      keeps lock (List.mem_cons_of_mem _ later)
    have quiet (same : turn.change? = none) (step : w.Quiet (w.turn me turn)) :
        Kept other (turn :: rest) w (w.run me (turn :: rest)) :=
      .quiet same held step (ih (sound.turn turn) (step.lock ▸ held) keeps')
    cases turn with
    | begin task =>
      refine quiet rfl ?_
      simp only [Watch.turn]
      split
      · exact quiet_begin w task
      · exact .of_same rfl rfl
    | go => exact quiet rfl (sound.fits.quiet_go held different)
    | post a => exact quiet rfl (.of_same rfl rfl)
    | change lock =>
      have owner := keeps lock (List.mem_cons_self ..)
      have apart : some other ≠ some me := by simpa using different
      have free : w.Free me lock := .inr ⟨held ▸ apart, owner ▸ apart⟩
      apply Kept.change
      have changed : w.turn me (.change lock) = { w with lock } := if_pos free
      rw [← changed]
      refine ih (sound.turn _) ?_ keeps'
      rw [changed, owner]

/-! What other threads do at the lock. -/

theorem other_taken {c c' : Contention} {other : ThreadId} (different : other ≠ me)
    (taken : c.take other = some c') : c.lock.owner ≠ some me ∧ c'.lock.owner ≠ some me := by
  obtain ⟨only, -, rfl⟩ := Contention.take_eq_some taken
  exact ⟨fun mine => different (only me mine).symm, by simpa using different⟩

/-- What another thread does to the lock, it does while the lock is not `me`'s, and does not give it
to `me`. -/
theorem other_cases {c : Contention} {other : ThreadId} (sound : c.Sound) (different : other ≠ me)
    (step : LockStep) : (c.advance other step).lock = c.lock ∨
      c.lock.owner ≠ some me ∧ (c.advance other step).lock.owner ≠ some me := by
  have apart : some other ≠ some me := by simpa using different
  cases due : c.due other with
  | some levels =>
    -- whoever has a store to make has the lock
    have held := (sound.due other levels due).1
    right
    simpa [Contention.advance, due, held] using different
  | none =>
    simp only [Contention.advance, due]
    cases step with
    | attempt =>
      cases taken : c.take other with
      | none => exact .inl rfl
      | some c' => exact .inr (other_taken different taken)
    | unlock =>
      cases unlocked : c.lock.unlock other with
      | error _ => exact .inl rfl
      | ok lock =>
        by_cases held : c.lock.owner = some other
        · refine .inr ⟨held ▸ apart, fun mine => ?_⟩
          rcases ExtensionLock.owner_of_unlock unlocked with same | free
          · exact apart (held.symm.trans (same.symm.trans mine))
          · simp [free] at mine
        · cases (ExtensionLock.unlock_other held).symm.trans unlocked
          exact .inl rfl
    | releaseAll =>
      by_cases held : c.lock.owner = some other
      · exact .inr ⟨held ▸ apart, by simp [ExtensionLock.releaseAll, ExtensionLock.isHeldBy, held]⟩
      · exact .inl (congrArg Prod.snd (ExtensionLock.releaseAll_other held))
    | retake levels =>
      by_cases zero : levels.val = 0
      · simp [zero]
      · cases taken : c.take other with
        | none => simp [zero]
        | some c' => simpa [zero] using .inr (other_taken different taken)

end Watch

/-- A task that has found the lock with another thread has left it there. -/
theorem Return.Right.barred {r : Return} {me other : ThreadId} (right : r.Right me)
    (held : r.found.owner = some other) (different : other ≠ me) :
    r.lock = r.found ∧ (∃ failure, r.ending = .ok failure) ∧
      (r.task = .acquire → r.ending ≠ .ok none) ∧
      ∀ levels, r.task = .reacquire levels → levels = 0 := by
  have outcome := right.outcome
  have missed := Watch.missed_of_held held different
  cases ending : r.ending with
  | error overflow => simp [Return.Outcome, ending, missed] at outcome
  | ok failure =>
    cases task : r.task with
    | poll => cases failure <;> simp_all [Return.Outcome]
    | acquire =>
      cases failure with
      | none => simp [Return.Outcome, task, ending, missed] at outcome
      | some fault => simp_all [Return.Outcome]
    | reacquire levels =>
      cases levels with
      | zero => simp_all [Return.Outcome]
      | succ levels => simp [Return.Outcome, task, ending, held, different] at outcome

end RopeBridge
