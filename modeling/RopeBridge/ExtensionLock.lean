import RopeBridge.Safepoint

/-! The lock that native calls hold while they run. A thread may take it several times over. A
thread that waits for it keeps polling its safepoints, so that an action can end the wait or make
the holder let go. -/

namespace RopeBridge

abbrev ThreadId := Nat

/-- A result that does not fit into 64 bits. It stops the thread that computes it, and what the
thread was about to change stays as it is. -/
inductive Overflow where
  | sum
  | difference
deriving DecidableEq, Inhabited

def Overflow.message : Overflow → String
  | sum => "attempt to add with overflow"
  | difference => "attempt to subtract with overflow"

structure ExtensionLock where
  owner : Option ThreadId := none
  count : Nat := 0
deriving DecidableEq, Inhabited

namespace ExtensionLock

def isHeldBy (l : ExtensionLock) (me : ThreadId) : Bool := l.owner = some me

def isLocked (l : ExtensionLock) : Bool := l.owner.isSome

/-- Levels are counted in 64 bits. -/
def levelLimit : Nat := 0x10000000000000000

def deeper (count : Nat) : Except Overflow Nat :=
  if count + 1 < levelLimit then .ok (count + 1) else .error .sum

def shallower : Nat → Except Overflow Nat
  | 0 => .error .difference
  | count + 1 => .ok count

/-- Takes the lock if it is free or held by `me` already. -/
def tryAcquire (l : ExtensionLock) (me : ThreadId) : Except Overflow (Option ExtensionLock) :=
  match l.owner with
  | none => .ok (some ⟨some me, 1⟩)
  | some owner =>
    if owner = me then (deeper l.count).map fun count => some { l with count } else .ok none

/-- Gives up one level. Nothing happens to a lock held by another thread. -/
def unlock (l : ExtensionLock) (me : ThreadId) : Except Overflow ExtensionLock :=
  if l.isHeldBy me then
    (shallower l.count).map fun left => if left = 0 then {} else { l with count := left }
  else .ok l

/-- The lock after an unlock, whether the thread has come to the end of it or has stopped. -/
def unlocked (l : ExtensionLock) (me : ThreadId) : ExtensionLock := (l.unlock me).toOption.getD l

/-- Gives up all levels, and tells how many there were. -/
def releaseAll (l : ExtensionLock) (me : ThreadId) : Nat × ExtensionLock :=
  if l.isHeldBy me then (l.count, {}) else (0, l)

variable {l l' : ExtensionLock} {me : ThreadId} {overflow : Overflow}

/-- The lock is taken anew, or one level deeper by the thread that has it. -/
theorem tryAcquire_eq_some_iff : l.tryAcquire me = .ok (some l') ↔
    l.owner = none ∧ l' = ⟨some me, 1⟩ ∨
      l.owner = some me ∧ l.count + 1 < levelLimit ∧ l' = ⟨some me, l.count + 1⟩ := by
  obtain ⟨owner, count⟩ := l
  cases owner with
  | none => simp [tryAcquire, eq_comm]
  | some owner =>
    by_cases mine : owner = me
    · by_cases room : count + 1 < levelLimit <;>
        simp [tryAcquire, deeper, Except.map, mine, room, eq_comm]
    · simp [tryAcquire, mine]

/-- The lock is missed while another thread has it. -/
theorem tryAcquire_eq_none_iff :
    l.tryAcquire me = .ok none ↔ ∃ other, l.owner = some other ∧ other ≠ me := by
  obtain ⟨owner, count⟩ := l
  cases owner with
  | none => simp [tryAcquire]
  | some owner =>
    by_cases mine : owner = me
    · by_cases room : count + 1 < levelLimit <;>
        simp [tryAcquire, deeper, Except.map, mine, room]
    · simp [tryAcquire, mine]

/-- A thread stops that has as many levels as can be counted. -/
theorem tryAcquire_eq_error_iff : l.tryAcquire me = .error overflow ↔
    l.owner = some me ∧ levelLimit ≤ l.count + 1 ∧ overflow = .sum := by
  obtain ⟨owner, count⟩ := l
  cases owner with
  | none => simp [tryAcquire]
  | some owner =>
    by_cases mine : owner = me
    · by_cases room : count + 1 < levelLimit
      · simp [tryAcquire, deeper, Except.map, mine, room, Nat.not_le_of_lt room]
      · simp [tryAcquire, deeper, Except.map, mine, room, Nat.le_of_not_lt room, eq_comm]
    · simp [tryAcquire, mine]

theorem owner_of_taken (taken : l.tryAcquire me = .ok (some l')) : l'.owner = some me := by
  rcases tryAcquire_eq_some_iff.1 taken with ⟨-, rfl⟩ | ⟨-, -, rfl⟩ <;> rfl

theorem owner_of_missed (missed : l.tryAcquire me = .ok none) : l.owner ≠ some me := by
  obtain ⟨other, held, different⟩ := tryAcquire_eq_none_iff.1 missed
  simpa [held] using different

/-- A thread stops that has no level to give up. -/
theorem unlock_eq_error_iff : l.unlock me = .error overflow ↔
    l.owner = some me ∧ l.count = 0 ∧ overflow = .difference := by
  obtain ⟨owner, count⟩ := l
  by_cases mine : owner = some me <;> cases count <;>
    simp [unlock, isHeldBy, shallower, Except.map, mine, eq_comm]

theorem unlock_other (other : l.owner ≠ some me) : l.unlock me = .ok l := by
  simp [unlock, isHeldBy, other]

theorem unlock_succ (me : ThreadId) (count : Nat) :
    unlock ⟨some me, count + 1⟩ me = .ok (if count = 0 then {} else ⟨some me, count⟩) := by
  simp [unlock, isHeldBy, shallower, Except.map]

theorem releaseAll_other (other : l.owner ≠ some me) : l.releaseAll me = (0, l) := by
  simp [releaseAll, isHeldBy, other]

/-- An unlock frees the lock or leaves its owner. -/
theorem owner_of_unlock (done : l.unlock me = .ok l') : l'.owner = l.owner ∨ l'.owner = none := by
  by_cases mine : l.owner = some me
  · obtain ⟨owner, count⟩ := l
    obtain rfl : owner = some me := mine
    cases count with
    | zero => cases unlock_eq_error_iff.2 ⟨rfl, rfl, rfl⟩ |>.symm.trans done
    | succ count =>
      cases (unlock_succ me count).symm.trans done
      split
      · exact .inr rfl
      · exact .inl rfl
  · cases (unlock_other mine).symm.trans done
    exact .inl rfl

/-- Letting go of the lock gives it to nobody. -/
theorem owner_unlocked_ne (out : l.owner ≠ some me) (other : ThreadId) :
    (l.unlocked other).owner ≠ some me := by
  unfold unlocked
  cases done : l.unlock other with
  | error _ => exact out
  | ok l' =>
    rcases owner_of_unlock done with same | free
    · exact fun mine => out (same.symm.trans mine)
    · exact fun mine => nomatch free.symm.trans mine

end ExtensionLock

/-- A thread on its way to the lock: the lock, the thread that contends for it, the safepoint
actions queued for the waiting thread and those that have run. -/
structure LockWait where
  lock : ExtensionLock
  contender : Option ThreadId
  queue : List SafepointAction
  ran : List SafepointAction := []

inductive Acquisition where
  | taken
  | interrupted (fault : Fault)
  /-- No action is left that could end the wait. -/
  | blocked
  | stopped (overflow : Overflow)
deriving DecidableEq, Inhabited

namespace LockWait

/-- Polls the safepoints. A contender that is asked to lets go of the lock. -/
def poll (w : LockWait) : Option Fault × LockWait :=
  let p := Safepoint.poll w.queue
  let leaver := if p.ran.any (·.releases) then w.contender else none
  (p.failure, {
    lock := leaver.elim w.lock w.lock.unlocked
    contender := if leaver.isSome then none else w.contender
    queue := p.left
    ran := w.ran ++ p.ran })

/-- Takes the lock, polling while another thread has it. -/
def acquire (w : LockWait) (me : ThreadId) : Acquisition × LockWait :=
  match w.lock.tryAcquire me with
  | .ok (some lock) => (.taken, { w with lock })
  | .error overflow => (.stopped overflow, w)
  | .ok none =>
    match w.poll with
    | (some fault, w) => (.interrupted fault, w)
    | (none, w) =>
      match w.lock.tryAcquire me with
      | .ok (some lock) => (.taken, { w with lock })
      | .error overflow => (.stopped overflow, w)
      | .ok none => (.blocked, w)

theorem acquire_interrupted {w w' : LockWait} {me : ThreadId} {fault : Fault}
    (h : w.acquire me = (.interrupted fault, w')) :
    Safepoint.weights w'.queue < Safepoint.weights w.queue := by
  unfold acquire at h
  split at h
  · cases h
  · cases h
  · split at h
    · next fault w'' failed =>
      cases h
      simp only [poll, Prod.mk.injEq] at failed
      obtain ⟨failed, rfl⟩ := failed
      exact Safepoint.weights_left_lt failed
    · split at h <;> cases h

/-- Waits until the lock has been taken, past actions that fail. The first of their failures is
told although the lock has been taken. -/
def insist (w : LockWait) (me : ThreadId) (first : Option Fault) : Acquisition × LockWait :=
  match _ : w.acquire me with
  | (.taken, w') => (first.elim .taken .interrupted, w')
  | (.blocked, w') => (.blocked, w')
  | (.stopped overflow, w') => (.stopped overflow, w')
  | (.interrupted fault, w') => w'.insist me (first.or (some fault))
termination_by Safepoint.weights w.queue
decreasing_by exact acquire_interrupted ‹_›

/-- Takes the lock `count` levels deep, whatever the actions do that run meanwhile; the first
failure is told in the end. -/
def reacquire (w : LockWait) (me : ThreadId) (count : Nat) : Acquisition × LockWait :=
  if count = 0 then (.taken, w)
  else
    match w.insist me none with
    | (.blocked, w) => (.blocked, w)
    | (.stopped overflow, w) => (.stopped overflow, w)
    | (outcome, w) => (outcome, { w with lock := { w.lock with count } })

end LockWait

end RopeBridge
