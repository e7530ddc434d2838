import RopeBridge.Bridge.Call
import RopeBridge.Proofs.System.Acts

/-! Calls that a thread makes one inside another, into native code with a frame under the lock and
out of it with the lock given up. While nobody else has the lock every call gets in at once, its body
finds the frame and the lock as they should be, and on return both are as before. -/
namespace RopeBridge

/-- The lock that a thread holds so many levels deep; at no level it is free. -/
def ExtensionLock.atDepth (me : ThreadId) : Nat → ExtensionLock
  | 0 => {}
  | n + 1 => ⟨some me, n + 1⟩

namespace ExtensionLock

variable {me : ThreadId} {n : Nat}

@[simp] theorem isHeldBy_atDepth : (atDepth me n).isHeldBy me = true ↔ 0 < n := by
  cases n <;> simp [atDepth, isHeldBy]

theorem isHeldBy_free (me : ThreadId) : isHeldBy {} me = false := by simp [isHeldBy]

theorem releaseAll_atDepth : (atDepth me n).releaseAll me = (n, {}) := by
  cases n <;> simp [atDepth, releaseAll, isHeldBy]

theorem unlock_atDepth_one : (atDepth me 1).unlock me = .ok {} := unlock_succ me 0

end ExtensionLock

namespace LockWait

variable {w : LockWait} (me : ThreadId)

/-- A free lock is taken at once. -/
theorem acquire_free (free : w.lock = {}) :
    w.acquire me = (.taken, { w with lock := .atDepth me 1 }) := by
  have got : w.lock.tryAcquire me = .ok (some (.atDepth me 1)) := by rw [free]; rfl
  simp only [acquire, got]

theorem insist_free (free : w.lock = {}) :
    w.insist me none = (.taken, { w with lock := .atDepth me 1 }) := by
  have got := acquire_free me free
  rw [insist]
  split
  next taken => rw [got] at taken; cases taken; rfl
  next blocked => rw [got] at blocked; cases blocked
  next stopped => rw [got] at stopped; cases stopped
  next interrupted => rw [got] at interrupted; cases interrupted

/-- A free lock is taken back to the depth it was held at. -/
theorem reacquire_free (free : w.lock = {}) (n : Nat) :
    w.reacquire me n = (.taken, { w with lock := .atDepth me n }) := by
  unfold reacquire
  cases n with
  | zero => rw [if_pos rfl, ← show w.lock = .atDepth me 0 from free]
  | succ n =>
    rw [if_neg (Nat.succ_ne_zero n), insist_free me free]
    rfl

end LockWait

namespace Bridge

/-- What the calls of a thread depend on is the same in two bridges. -/
structure SameCalls (me : ThreadId) (b b' : Bridge) : Prop where
  options : b'.options = b.options
  lock : b'.lock = b.lock
  present : me < b.threads.size → me < b'.threads.size
  stack : (b'.thread me).stack = (b.thread me).stack

variable {me : ThreadId} {b b₁ b₂ : Bridge} {block : Value} {n : Nat} {entrance : Entrance}

theorem SameCalls.refl (me : ThreadId) (b : Bridge) : b.SameCalls me b := ⟨rfl, rfl, id, rfl⟩

theorem SameCalls.trans (h : b.SameCalls me b₁) (h' : b₁.SameCalls me b₂) : b.SameCalls me b₂ where
  options := h'.options.trans h.options
  lock := h'.lock.trans h.lock
  present := h'.present ∘ h.present
  stack := h'.stack.trans h.stack

/-- What happens to a thread beside its frames. -/
theorem updateThread_same {f : Thread → Thread} (keeps : ∀ t, (f t).stack = t.stack) :
    b.SameCalls me (b.updateThread me f) where
  options := rfl
  lock := rfl
  present inside := by simpa [updateThread] using inside
  stack := by
    rw [thread_updateThread]
    split
    next => exact keeps _
    next => rfl

/-- Waiting in some way is for the lock, the contender and the queue of the thread alone. -/
theorem withLock_run {α : Type} (b : Bridge) (wait : LockWait → α × LockWait) {answer : α}
    {w : LockWait} (waited : wait ⟨b.lock, b.contender, (b.thread me).safepoints, []⟩ = (answer, w)) :
    ∃ b', (withLock me wait).run b = ((answer, w.ran), b') ∧
      { b with lock := w.lock }.SameCalls me b' := by
  have ran : (withLock me wait).run b = ((answer, w.ran),
      { b.updateThread me fun t => { t with safepoints := w.queue } with
        lock := w.lock, contender := w.contender }) := by
    change withLock me wait b = _
    rw [withLock, waited]
  have same : b.SameCalls me (b.updateThread me fun t => { t with safepoints := w.queue }) :=
    updateThread_same fun _ => rfl
  exact ⟨_, ran, rfl, rfl, same.present, same.stack⟩

theorem acquireLock_free (me : ThreadId) (free : b.lock = {}) :
    ∃ b', (acquireLock me).run b = ((.taken, []), b') ∧
      { b with lock := .atDepth me 1 }.SameCalls me b' :=
  withLock_run b (·.acquire me) (LockWait.acquire_free me free)

theorem reacquireLock_free (me : ThreadId) (free : b.lock = {}) (n : Nat) :
    ∃ b', (reacquireLock me n).run b = ((.taken, []), b') ∧
      { b with lock := .atDepth me n }.SameCalls me b' :=
  withLock_run b (·.reacquire me n) (LockWait.reacquire_free me free n)

theorem releaseLock_atDepth (held : b.lock = .atDepth me n) :
    (releaseLock me).run b = (n, { b with lock := {} }) := by
  change releaseLock me b = _
  rw [releaseLock, held, ExtensionLock.releaseAll_atDepth]

/-- How a call stands when its body begins: one frame up, and under the lock if that is wanted. -/
structure Entered (me : ThreadId) (block : Value) (b : Bridge) (entrance : Entrance) (b₁ : Bridge) :
    Prop where
  taken : entrance.acquisition = .taken
  options : b₁.options = b.options
  present : me < b.threads.size → me < b₁.threads.size
  stack : (b₁.thread me).stack = (b.thread me).stack.push block
  lock : if entrance.locked then b.lock = {} ∧ b₁.lock = .atDepth me 1 else b₁.lock = b.lock
  held : b.options.extensionLock = true → b₁.lock.isHeldBy me = true

theorem thread_updateStack (present : me < b.threads.size) (f : CallStack → CallStack) :
    ((b.updateStack me f).thread me).stack = f (b.thread me).stack := by
  rw [updateStack, thread_updateThread, if_pos ⟨rfl, present⟩]

/-- A call that wants the lock and gets it. -/
theorem enterCall_locked {ran : List SafepointAction}
    (wanted : (b.options.extensionLock && !b.lock.isHeldBy me) = true)
    (got : (acquireLock me).run (b.updateStack me (·.push block)) = ((.taken, ran), b₁)) :
    (enterCall me block).run b = (⟨.taken, true, ran⟩, b₁) := by
  have looked : (enterCall me block).run b = (if b.options.extensionLock && !b.lock.isHeldBy me
      then _ else _ : StateM Bridge Entrance).run (b.updateStack me (·.push block)) := rfl
  rw [looked, if_pos wanted, StateT.run_bind, got]
  rfl

/-- A call that does without taking the lock. -/
theorem enterCall_spared (spared : ¬ (b.options.extensionLock && !b.lock.isHeldBy me) = true) :
    (enterCall me block).run b = (⟨.taken, false, []⟩, b.updateStack me (·.push block)) := by
  have looked : (enterCall me block).run b = (if b.options.extensionLock && !b.lock.isHeldBy me
      then _ else _ : StateM Bridge Entrance).run (b.updateStack me (·.push block)) := rfl
  rw [looked, if_neg spared]
  rfl

/-- While nobody else has the lock a call gets in. -/
theorem enterCall_entered (present : me < b.threads.size) (held : b.lock = .atDepth me n)
    (block : Value) : ∃ entrance b₁, (enterCall me block).run b = (entrance, b₁) ∧
      Entered me block b entrance b₁ := by
  have inside : me < (b.updateStack me (·.push block)).threads.size := by
    simpa [updateStack, updateThread] using present
  have pushed := thread_updateStack present (·.push block)
  by_cases wanted : (b.options.extensionLock && !b.lock.isHeldBy me) = true
  · have free : b.lock = {} := by
      rw [Bool.and_eq_true, Bool.not_eq_true', ← Bool.not_eq_true, held,
        ExtensionLock.isHeldBy_atDepth] at wanted
      obtain rfl : n = 0 := by omega
      exact held
    obtain ⟨b₁, got, same⟩ := acquireLock_free (b := b.updateStack me (·.push block)) me free
    refine ⟨_, b₁, enterCall_locked wanted got, ?_⟩
    constructor
    case taken => rfl
    case options => exact same.options
    case present => exact fun _ => same.present inside
    case stack => exact same.stack.trans pushed
    case lock => exact ⟨free, same.lock⟩
    case held =>
      rw [same.lock]
      exact fun _ => ExtensionLock.isHeldBy_atDepth.2 Nat.one_pos
  · refine ⟨_, _, enterCall_spared wanted, ?_⟩
    constructor
    case taken => rfl
    case options => rfl
    case present => exact fun _ => inside
    case stack => exact pushed
    case lock => rfl
    case held =>
      intro enabled
      have already : b.lock.isHeldBy me = true := by simpa [enabled] using wanted
      exact already

/-- A call that gives up the lock it has taken, and then its frame. -/
theorem leaveCall_locked {stop : Option Overflow} (locked : entrance.locked = true)
    (freed : (unlock me).run b = (stop, b₁)) :
    (leaveCall me entrance).run b = (stop, b₁.updateStack me CallStack.pop) := by
  rw [leaveCall, if_pos locked, StateT.run_bind, freed]
  rfl

/-- A call that has done without taking the lock. -/
theorem leaveCall_spared (spared : ¬ entrance.locked = true) :
    (leaveCall me entrance).run b = (none, b.updateStack me CallStack.pop) := by
  rw [leaveCall, if_neg spared]
  rfl

theorem unlock_atDepth_one (held : b.lock = .atDepth me 1) :
    (unlock me).run b = (none, { b with lock := {} }) := by
  change unlock me b = _
  rw [unlock, held, ExtensionLock.unlock_atDepth_one]

/-- A call gives back what it took on entering. -/
theorem leaveCall_same (present : me < b.threads.size) (entered : Entered me block b entrance b₁)
    (same : b₁.SameCalls me b₂) :
    ∃ b₃, (leaveCall me entrance).run b₂ = (none, b₃) ∧ b.SameCalls me b₃ := by
  have inside : me < b₂.threads.size := same.present (entered.present present)
  have popped : CallStack.pop (b₂.thread me).stack = (b.thread me).stack := by
    rw [same.stack, entered.stack, CallStack.pop_push]
  -- what a call leaves but for its frame
  have left {b' : Bridge} (options : b'.options = b₂.options) (threads : b'.threads = b₂.threads)
      (lock : b'.lock = b.lock) : b.SameCalls me (b'.updateStack me CallStack.pop) := by
    have inside' : me < b'.threads.size := threads ▸ inside
    constructor
    case options => exact options.trans (same.options.trans entered.options)
    case lock => exact lock
    case present => exact fun _ => by simpa [updateStack, updateThread] using inside'
    case stack =>
      rw [thread_updateStack inside', thread, threads]
      exact popped
  have taken := entered.lock
  split at taken
  next locked =>
    have freed := unlock_atDepth_one (same.lock.trans taken.2)
    exact ⟨_, leaveCall_locked locked freed, left rfl rfl taken.1.symm⟩
  next spared => exact ⟨_, leaveCall_spared spared, left rfl rfl (same.lock.trans taken)⟩

/-- Work that a thread does between its calls: anything that leaves the lock and its frames alone. -/
abbrev OwnWork (me : ThreadId) :=
  { effect : Bridge → Bridge // ∀ b : Bridge, b.SameCalls me (effect b) }

end Bridge

/-- What a thread does with a bridge: calls into native code and blocking regions, one inside another
and one after another, and work of its own between them. How it goes on after a call may depend on
what the call returned. -/
inductive CallTree (me : ThreadId) (α : Type) where
  | done (result : Except Fault α)
  | work (effect : Bridge.OwnWork me) (next : CallTree me α)
  | call (block : Value) (body : CallTree me α) (next : Except Fault α → CallTree me α)
  | blocking (body : CallTree me α) (next : Except Fault α → CallTree me α)

namespace CallTree

/-- Where a thread is: in no call of the tree, in the body of a call with its block, or in a region
that has given up the lock. -/
inductive Region where
  | outside
  | call (block : Value)
  | blocking

/-- How things are to stand for a thread in a region. -/
def Region.Holds (me : ThreadId) (b : Bridge) : Region → Prop
  | outside => True
  | call block => (b.thread me).stack.block = block ∧
      (b.options.extensionLock = true → b.lock.isHeldBy me = true)
  | blocking => b.lock.isHeldBy me = false

/-- The bridge as a thread sees it in a region. -/
structure Sight where
  region : Region
  bridge : Bridge

structure Trace where
  bridge : Bridge
  /-- What has been seen so far, the latest last. -/
  sights : List Sight

/-- Programs that are watched. Without an answer, the thread waits for ever or has stopped. -/
abbrev Watched := StateT Trace Option

def look (region : Region) : Watched Unit :=
  modify fun t => { t with sights := t.sights ++ [⟨region, t.bridge⟩] }

def act {β : Type} (x : StateM Bridge β) : Watched β := fun t =>
  let (answer, bridge) := x.run t.bridge
  some (answer, { t with bridge })

section

variable {me : ThreadId} {α : Type}

/-- An interrupted wait for the lock is the failure of the call. -/
def refused (entrance : Bridge.Entrance) : Watched (Except Fault α) :=
  match entrance.acquisition with
  | .interrupted fault => return .error fault
  | _ => failure

/-- A failure on the way back to the lock comes before what the region returned. -/
def settled (answer : Except Fault α) (acquisition : Acquisition) (_ : List SafepointAction) :
    Watched (Except Fault α) :=
  match acquisition with
  | .taken => return answer
  | .interrupted fault => return .error fault
  | .blocked | .stopped _ => failure

/-- Runs the calls of a tree. Everything a thread does is preceded by a look around. -/
def run (region : Region) : CallTree me α → Watched (Except Fault α)
  | done result => do
    look region
    return result
  | work effect next => do
    look region
    act (modify effect.1)
    next.run region
  | call block body next => do
    look region
    let answer ← Bridge.callWith act me block refused fun _ => body.run (.call block)
    (next answer).run region
  | blocking body next => do
    look region
    let answer ← Bridge.callWithout act me (body.run .blocking) settled
    (next answer).run region

/-- What a tree comes to if every call returns what its body does. -/
def answer : CallTree me α → Except Fault α
  | done result => result
  | work _ next => next.answer
  | call _ body next | blocking body next => (next body.answer).answer

/-- The regions a thread goes through if every call gets in and returns what its body does. -/
def regions (region : Region) : CallTree me α → List Region
  | done _ => [region]
  | work _ next => region :: next.regions region
  | call block body next =>
    region :: (body.regions (.call block) ++ (next body.answer).regions region)
  | blocking body next => region :: (body.regions .blocking ++ (next body.answer).regions region)

end

variable {me : ThreadId} {α : Type} {t t₁ t₂ : Trace} {block : Value} {region : Region}
  {answer : Except Fault α} {seen seen' : List Region}

/-- From one point of a run to a later one, through some regions: the calls depend on the same as
before, and what was seen on the way was as it is to be. -/
structure Passes (me : ThreadId) (t : Trace) (seen : List Region) (t' : Trace) : Prop where
  same : t.bridge.SameCalls me t'.bridge
  sights : ∃ new, t'.sights = t.sights ++ new ∧ new.map Sight.region = seen ∧
    ∀ s ∈ new, s.region.Holds me s.bridge

theorem Passes.unseen (same : t.bridge.SameCalls me t₁.bridge) (sights : t₁.sights = t.sights) :
    Passes me t [] t₁ := ⟨same, [], by rw [sights, List.append_nil], rfl, by simp⟩

theorem Passes.trans (h : Passes me t seen t₁) (h' : Passes me t₁ seen' t₂) :
    Passes me t (seen ++ seen') t₂ := by
  refine ⟨h.same.trans h'.same, ?_⟩
  obtain ⟨new, added, through, right⟩ := h.sights
  obtain ⟨new', added', through', right'⟩ := h'.sights
  refine ⟨new ++ new', ?_, ?_, fun s member => ?_⟩
  · rw [added', added, List.append_assoc]
  · rw [List.map_append, through, through']
  · rcases List.mem_append.1 member with first | second
    · exact right s first
    · exact right' s second

theorem Region.Holds.same {b b' : Bridge} (h : region.Holds me b) (same : b.SameCalls me b') :
    region.Holds me b' := by
  cases region with
  | outside => trivial
  | call block =>
    obtain ⟨top, held⟩ := h
    exact ⟨by rw [same.stack, top], by rw [same.options, same.lock]; exact held⟩
  | blocking =>
    change b'.lock.isHeldBy me = false
    rw [same.lock]
    exact h

/-- A thread may go on in a region: it is one of the bridge, nobody else has the lock, and things
stand as they are to stand there. -/
structure Ready (me : ThreadId) (region : Region) (t : Trace) : Prop where
  present : me < t.bridge.threads.size
  depth : ∃ n, t.bridge.lock = .atDepth me n
  holds : region.Holds me t.bridge

theorem Ready.passes (h : Ready me region t) (passes : Passes me t seen t₁) :
    Ready me region t₁ where
  present := passes.same.present h.present
  depth := by rw [passes.same.lock]; exact h.depth
  holds := h.holds.same passes.same

theorem act_run {β : Type} {x : StateM Bridge β} {a : β} {b : Bridge}
    (ran : x.run t.bridge = (a, b)) : (act x).run t = some (a, { t with bridge := b }) := by
  change some ((x.run t.bridge).1, { t with bridge := (x.run t.bridge).2 }) = _
  rw [ran]

theorem callWith_run {entrance : Bridge.Entrance} {b b' : Bridge}
    {body : Bridge.Entrance → Watched (Except Fault α)}
    (entered : (Bridge.enterCall me block).run t.bridge = (entrance, b))
    (taken : entrance.acquisition = .taken)
    (ran : (body entrance).run { t with bridge := b } = some (answer, t₁))
    (left : (Bridge.leaveCall me entrance).run t₁.bridge = (none, b')) :
    (Bridge.callWith act me block refused body).run t =
      some (answer, { t₁ with bridge := b' }) := by
  rw [Bridge.callWith, StateT.run_bind, act_run entered, Option.bind_eq_bind, Option.bind_some]
  simp only [taken]
  rw [StateT.run_bind, ran, Option.bind_eq_bind, Option.bind_some, StateT.run_bind, act_run left]
  rfl

theorem callWithout_run {levels : Nat} {ran : List SafepointAction} {b b' : Bridge}
    {body : Watched (Except Fault α)}
    (released : (Bridge.releaseLock me).run t.bridge = (levels, b))
    (came : body.run { t with bridge := b } = some (answer, t₁))
    (taken : (Bridge.reacquireLock me levels).run t₁.bridge = ((.taken, ran), b')) :
    (Bridge.callWithout act me body settled).run t = some (answer, { t₁ with bridge := b' }) := by
  rw [Bridge.callWithout, StateT.run_bind, act_run released, Option.bind_eq_bind, Option.bind_some,
    StateT.run_bind, came, Option.bind_eq_bind, Option.bind_some, StateT.run_bind, act_run taken]
  rfl

/-- Wherever a thread may go on, a program comes to an answer through some regions and leaves
everything as it was. -/
def Balanced {β : Type} (me : ThreadId) (region : Region) (x : Watched β) (answer : β)
    (seen : List Region) : Prop :=
  ∀ t, Ready me region t → ∃ t', x.run t = some (answer, t') ∧ Passes me t seen t'

theorem Balanced.bind {β γ : Type} {x : Watched β} {f : β → Watched γ} {b : β} {c : γ}
    (first : Balanced me region x b seen) (rest : Balanced me region (f b) c seen') :
    Balanced me region (x >>= f) c (seen ++ seen') := by
  intro t ready
  obtain ⟨t₁, ran, passes⟩ := first t ready
  obtain ⟨t₂, ran', passes'⟩ := rest t₁ (ready.passes passes)
  refine ⟨t₂, ?_, passes.trans passes'⟩
  rw [StateT.run_bind, ran]
  exact ran'

theorem pure_balanced {β : Type} (b : β) : Balanced me region (pure b) b [] :=
  fun t _ => ⟨t, rfl, .unseen (.refl me _) rfl⟩

theorem look_balanced : Balanced me region (look region) () [region] := by
  intro t ready
  refine ⟨{ t with sights := t.sights ++ [⟨region, t.bridge⟩] }, rfl, .refl me _, ?_⟩
  exact ⟨[⟨region, t.bridge⟩], rfl, rfl, by simpa using ready.holds⟩

theorem work_balanced (effect : Bridge.OwnWork me) :
    Balanced me region (act (modify effect.1)) ⟨⟩ [] :=
  fun t _ => ⟨_, act_run rfl, .unseen (effect.2 t.bridge) rfl⟩

theorem call_balanced {body : Watched (Except Fault α)}
    (inside : Balanced me (.call block) body answer seen) :
    Balanced me region (Bridge.callWith act me block refused fun _ => body) answer seen := by
  intro t ready
  obtain ⟨n, held⟩ := ready.depth
  obtain ⟨entrance, b, ran, entered⟩ := Bridge.enterCall_entered ready.present held block
  have begun : Ready me (.call block) { t with bridge := b } := by
    constructor
    case present => exact entered.present ready.present
    case depth =>
      have lock := entered.lock
      split at lock
      next => exact ⟨1, lock.2⟩
      next => exact ⟨n, lock.trans held⟩
    case holds =>
      refine ⟨?_, fun enabled => entered.held (by rw [← entered.options]; exact enabled)⟩
      rw [entered.stack, CallStack.block_push]
  obtain ⟨t₁, came, passes⟩ := inside _ begun
  obtain ⟨b', left, same⟩ := Bridge.leaveCall_same ready.present entered passes.same
  exact ⟨_, callWith_run ran entered.taken came left, same, passes.sights⟩

theorem blocking_balanced {body : Watched (Except Fault α)}
    (inside : Balanced me .blocking body answer seen) :
    Balanced me region (Bridge.callWithout act me body settled) answer seen := by
  intro t ready
  obtain ⟨n, held⟩ := ready.depth
  have released := Bridge.releaseLock_atDepth held
  have begun : Ready me .blocking { t with bridge := { t.bridge with lock := {} } } :=
    ⟨ready.present, ⟨0, rfl⟩, ExtensionLock.isHeldBy_free me⟩
  obtain ⟨t₁, came, passes⟩ := inside _ begun
  -- the region has left the lock as free as it found it, so all levels are to be had again
  obtain ⟨b, taken, same⟩ := Bridge.reacquireLock_free me passes.same.lock n
  refine ⟨_, callWithout_run released came taken, ?_, passes.sights⟩
  constructor
  case options => exact same.options.trans passes.same.options
  case lock => exact same.lock.trans held.symm
  case present => exact same.present ∘ passes.same.present
  case stack => exact same.stack.trans passes.same.stack

theorem run_balanced (tree : CallTree me α) (region : Region) :
    Balanced me region (tree.run region) tree.answer (tree.regions region) := by
  induction tree generalizing region with
  | done result => exact look_balanced.bind (pure_balanced result)
  | work effect next ih => exact look_balanced.bind ((work_balanced effect).bind (ih region))
  | call block body next ihBody ihNext =>
    exact look_balanced.bind ((call_balanced (ihBody (.call block))).bind (ihNext _ region))
  | blocking body next ihBody ihNext =>
    exact look_balanced.bind ((blocking_balanced (ihBody .blocking)).bind (ihNext _ region))

/-- While nobody else has the lock, the calls of a tree all get in and return what their bodies do,
the lock and the frames are in the end as they were, and every body finds them as it should. -/
theorem calls_balanced (tree : CallTree me α) {b : Bridge} {n : Nat}
    (present : me < b.threads.size) (held : b.lock = .atDepth me n) :
    ∃ b' sights, (tree.run .outside).run ⟨b, []⟩ = some (tree.answer, ⟨b', sights⟩) ∧
      b'.lock = b.lock ∧ (b'.thread me).stack = (b.thread me).stack ∧
      sights.map Sight.region = tree.regions .outside ∧
      ∀ s ∈ sights, s.region.Holds me s.bridge := by
  obtain ⟨⟨b', sights⟩, ran, passes⟩ := run_balanced tree .outside ⟨b, []⟩ ⟨present, ⟨n, held⟩, trivial⟩
  obtain ⟨new, added, through, right⟩ := passes.sights
  obtain rfl : sights = new := added
  exact ⟨b', sights, ran, passes.same.lock, passes.same.stack, through, right⟩

/-- Asks the thread to fail at its next safepoint. -/
def interrupt (me : ThreadId) : Bridge.OwnWork me :=
  ⟨fun b => b.updateThread me fun t =>
    { t with safepoints := t.safepoints ++ [{ tag := "kill", failure := some "Thread#kill" }] },
    fun _ => Bridge.updateThread_same fun _ => rfl⟩

/-- A call with a blocking region, out of which a call is made that fails. -/
def nested : CallTree 0 Nat :=
  .call .true
    (.work (interrupt 0)
      (.blocking (.call .false (.done (.error (.interrupted "EINTR"))) .done) fun _ => .done (.ok 7)))
    .done

theorem calls_balanced_nested :
    ∃ b' sights, (nested.run .outside).run
        ⟨{ Bridge.ofOptions {} with lock := ⟨some 0, 2⟩ }, []⟩ = some (.ok 7, ⟨b', sights⟩) ∧
      b'.lock = ⟨some 0, 2⟩ ∧ (b'.thread 0).stack = {} ∧
      sights.map Sight.region = [.outside, .call .true, .call .true, .blocking, .call .false,
        .blocking, .call .true, .outside] ∧
      ∀ s ∈ sights, s.region.Holds 0 s.bridge :=
  calls_balanced nested (b := { Bridge.ofOptions {} with lock := ⟨some 0, 2⟩ }) (n := 2)
    Nat.one_pos rfl

end CallTree

end RopeBridge
