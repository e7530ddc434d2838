import RopeBridge.Bridge.Basic

/-! Calls into native code and out of it. A call pushes a frame and holds the extension lock, if the
options ask for it and the thread does not hold it yet. A blocking region gives the lock up with all
its levels and takes it back to the same depth. -/

namespace RopeBridge.Bridge

/-- Lets a thread wait for the lock in some way. The actions that ran meanwhile are told. -/
def withLock {α : Type} (me : ThreadId) (wait : LockWait → α × LockWait) :
    StateM Bridge (α × List SafepointAction) := fun b =>
  let (answer, w) := wait ⟨b.lock, b.contender, (b.thread me).safepoints, []⟩
  let b := b.updateThread me fun t => { t with safepoints := w.queue }
  ((answer, w.ran), { b with lock := w.lock, contender := w.contender })

def acquireLock (me : ThreadId) : StateM Bridge (Acquisition × List SafepointAction) :=
  withLock me (·.acquire me)

def reacquireLock (me : ThreadId) (count : Nat) :
    StateM Bridge (Acquisition × List SafepointAction) :=
  withLock me (·.reacquire me count)

def poll (me : ThreadId) : StateM Bridge (Option Fault × List SafepointAction) :=
  withLock me (·.poll)

/-- Gives up a level of the lock, and tells if the thread stops in it. -/
def unlock (me : ThreadId) : StateM Bridge (Option Overflow) := fun b =>
  match b.lock.unlock me with
  | .ok lock => (none, { b with lock })
  | .error overflow => (some overflow, b)

def releaseLock (me : ThreadId) : StateM Bridge Nat := fun b =>
  let (levels, lock) := b.lock.releaseAll me
  (levels, { b with lock })

/-- How a call got in, and what it has to undo on its way out. -/
structure Entrance where
  acquisition : Acquisition
  locked : Bool
  ran : List SafepointAction

/-- Enters a call. If the lock is not to be had, the frame is popped again. -/
def enterCall (me : ThreadId) (block : Value) : StateM Bridge Entrance := do
  modify fun b => b.updateStack me (·.push block)
  let b ← get
  if b.options.extensionLock && !b.lock.isHeldBy me then
    let (acquisition, ran) ← acquireLock me
    match acquisition with
    | .taken => return ⟨.taken, true, ran⟩
    | other =>
      modify fun b => b.updateStack me CallStack.pop
      return ⟨other, false, ran⟩
  else return ⟨.taken, false, []⟩

/-- Leaves a call, and tells if the thread stops in it; the frame is popped all the same. -/
def leaveCall (me : ThreadId) (entrance : Entrance) : StateM Bridge (Option Overflow) := do
  let stop ← if entrance.locked then unlock me else pure none
  modify fun b => b.updateStack me CallStack.pop
  return stop

/-- Lets a helper thread take the lock, which is free. -/
def contend (b : Bridge) : Bridge :=
  let (helper, b) := b.startThread
  match b.lock.tryAcquire helper with
  | .ok (some lock) => { b with lock, contender := some helper }
  | _ => b

/-- Lets the contender, if there is one, give up the lock by itself. -/
def dismissContender (b : Bridge) : Bridge :=
  match b.contender with
  | some helper => { b with lock := b.lock.unlocked helper, contender := none }
  | none => b

section

/- Calls made by a program with effects of its own: `act` carries out what concerns the bridge. -/
variable {m : Type → Type} [Monad m] {α : Type} (act : ∀ {β : Type}, StateM Bridge β → m β)

/-- Calls into native code: `body` runs inside a frame with `block`, under the lock. If the lock is
not to be had, `refused` answers and nothing else happens. It answers too if the thread stops on its
way out. -/
def callWith (me : ThreadId) (block : Value) (refused body : Entrance → m α) : m α := do
  let entrance ← act (enterCall me block)
  match entrance.acquisition with
  | .taken =>
    let answer ← body entrance
    match ← act (leaveCall me entrance) with
    | none => return answer
    | some overflow => refused ⟨.stopped overflow, false, []⟩
  | _ => refused entrance

/-- Runs `body` without the lock. What becomes of its answer once the lock has been taken back is
for `settled` to say. -/
def callWithout (me : ThreadId) (body : m α)
    (settled : α → Acquisition → List SafepointAction → m α) : m α := do
  let levels ← act (releaseLock me)
  let answer ← body
  let (acquisition, ran) ← act (reacquireLock me levels)
  settled answer acquisition ran

end

end RopeBridge.Bridge
