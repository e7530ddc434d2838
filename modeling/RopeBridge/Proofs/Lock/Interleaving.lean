import Mathlib.Logic.Function.Basic
import RopeBridge.ExtensionLock

/-! Any number of threads at the extension lock, their steps interleaved in any order. A step is
what a thread does while it has the lock's state to itself: an attempt to take the lock, an unlock,
a release of all levels, and the two halves of a retake, which takes the lock first and stores the
number of levels afterwards. A wait is a row of attempts that miss; one that is given up leaves
nothing behind. Nor does a step in which the thread stops, as a level more cannot be counted. -/

namespace RopeBridge

open ExtensionLock (levelLimit)

inductive LockStep where
  | attempt
  | unlock
  | releaseAll
  /-- An attempt whose thread stores the number of levels once it has the lock. -/
  | retake (levels : Fin levelLimit)

/-- The lock and its threads. `levels` is kept by the threads themselves, from what they see: one
more for each attempt that succeeds, one less for each unlock. It never looks at the lock. -/
structure Contention where
  lock : ExtensionLock := {}
  /-- The levels that a thread in the middle of a retake has still to store. -/
  due : ThreadId → Option (Fin levelLimit) := fun _ => none
  levels : ThreadId → Nat := fun _ => 0

namespace Contention

open Function (update update_self update_of_ne update_eq_self_iff)

variable {c c' : Contention} {me : ThreadId}

/-- An attempt, if it gets the lock. -/
def take (c : Contention) (me : ThreadId) : Option Contention :=
  match c.lock.tryAcquire me with
  | .ok (some lock) => some { c with lock, levels := update c.levels me (c.levels me + 1) }
  | _ => none

/-- One step of thread `me`. In the middle of a retake it has nothing to choose: it stores. -/
def advance (c : Contention) (me : ThreadId) (step : LockStep) : Contention :=
  match c.due me with
  | some levels => {
      lock := { c.lock with count := levels }
      due := update c.due me none
      levels := update c.levels me levels }
  | none =>
    match step with
    | .attempt => (c.take me).getD c
    | .unlock =>
      match c.lock.unlock me with
      | .ok lock => { c with lock, levels := update c.levels me (c.levels me - 1) }
      | .error _ => c
    | .releaseAll => { c with lock := (c.lock.releaseAll me).2, levels := update c.levels me 0 }
    | .retake levels =>
      if levels.val = 0 then c
      else ((c.take me).map fun c => { c with due := update c.due me (some levels) }).getD c

abbrev Schedule := List (ThreadId × LockStep)

def execute (c : Contention) : Schedule → Contention
  | [] => c
  | (me, step) :: rest => (c.advance me step).execute rest

structure Moment where
  before : Contention
  thread : ThreadId
  step : LockStep

def Moment.after (m : Moment) : Contention := m.before.advance m.thread m.step

def moments (c : Contention) : Schedule → List Moment
  | [] => []
  | (me, step) :: rest => ⟨c, me, step⟩ :: (c.advance me step).moments rest

/-- What the lock promises of one step. -/
structure Moment.Safe (m : Moment) : Prop where
  owned : 0 < m.after.lock.count ↔ m.after.lock.owner.isSome
  counted : ∀ t, m.after.lock.owner = some t → m.after.lock.count = m.after.levels t
  /-- Whoever holds a level is the owner, so that no two threads do. -/
  alone : ∀ t, 0 < m.after.levels t → m.after.lock.owner = some t
  foreign : m.before.lock.owner ≠ some m.thread → m.step = .unlock ∨ m.step = .releaseAll →
    m.after.lock = m.before.lock
  handover : ∀ a b, m.before.lock.owner = some a → m.after.lock.owner = some b → a = b
  /-- No unlock takes a level from none. -/
  decrement : ∀ t overflow, m.before.lock.unlock t ≠ .error overflow
  /-- A thread that stops, as it has all levels that can be counted, changes nothing. -/
  stops : m.before.due m.thread = none → m.step = .attempt ∨ (∃ levels, m.step = .retake levels) →
    ∀ overflow, m.before.lock.tryAcquire m.thread = .error overflow →
      m.after = m.before ∧ m.before.levels m.thread + 1 = levelLimit
  restored : ∀ levels, m.before.due m.thread = some levels →
    m.after.lock = ⟨some m.thread, levels⟩ ∧ 0 < levels.val ∧ m.after.levels m.thread = levels

structure Sound (c : Contention) : Prop where
  owned : 0 < c.lock.count ↔ c.lock.owner.isSome
  counted : ∀ t, c.lock.owner = some t → c.lock.count = c.levels t
  alone : ∀ t, 0 < c.levels t → c.lock.owner = some t
  fits : c.lock.count < levelLimit
  due : ∀ t levels, c.due t = some levels → c.lock.owner = some t ∧ 0 < levels.val

theorem start_sound : Sound {} := by
  constructor <;> simp [levelLimit]

theorem Sound.levels_other (sound : c.Sound) (other : c.lock.owner ≠ some me) :
    c.levels me = 0 := by
  by_contra more
  exact other (sound.alone me (Nat.pos_of_ne_zero more))

/-! Attempts. -/

/-- An attempt gets a lock that is free, or its own if one more level can be counted. -/
theorem take_eq_some (taken : c.take me = some c') :
    (∀ t, c.lock.owner = some t → t = me) ∧
      (c.lock.owner = some me → c.lock.count + 1 < levelLimit) ∧ c' = { c with
        lock := ⟨some me, if c.lock.owner = none then 1 else c.lock.count + 1⟩
        levels := update c.levels me (c.levels me + 1) } := by
  unfold take at taken
  split at taken
  next lock got =>
    cases taken
    rcases ExtensionLock.tryAcquire_eq_some_iff.1 got with ⟨free, rfl⟩ | ⟨mine, room, rfl⟩
    · simp [free]
    · exact ⟨fun t held => Option.some.inj (held.symm.trans mine), fun _ => room, by simp [mine]⟩
  next => cases taken

/-- The lock is as sound after an attempt that gets it. -/
theorem Sound.take (sound : c.Sound) (taken : c.take me = some c') :
    c'.Sound ∧ c'.lock.owner = some me := by
  obtain ⟨only, room, rfl⟩ := take_eq_some taken
  refine ⟨?_, rfl⟩
  cases held : c.lock.owner with
  | none =>
    have empty (t : ThreadId) : c.levels t = 0 := sound.levels_other (by simp [held])
    constructor
    · simp
    · simp [empty]
    · intro t more
      by_cases mine : t = me
      · simp [mine]
      · simp [update_of_ne mine, empty] at more
    · simp [levelLimit]
    · intro t levels due
      simpa [held] using (sound.due t levels due).1
  | some owner =>
    obtain rfl := only owner held
    constructor
    · simp
    · simp [← sound.counted owner held]
    · intro t more
      by_cases mine : t = owner
      · simp [mine]
      · rw [← held]
        exact sound.alone t (by simpa [update_of_ne mine] using more)
    · simpa using room held
    · intro t levels due
      simpa [held] using sound.due t levels due

/-! Releases. -/

/-- The owner has a level to give up. -/
theorem Sound.unlock_own (sound : c.Sound) (mine : c.lock.owner = some me) :
    c.lock.unlock me =
      .ok (if c.lock.count = 1 then {} else { c.lock with count := c.lock.count - 1 }) := by
  have counted := sound.owned.2 (by simp [mine])
  obtain ⟨⟨owner, count⟩, due, levels⟩ := c
  obtain rfl : owner = some me := mine
  obtain ⟨count, rfl⟩ := Nat.exists_eq_succ_of_ne_zero (Nat.ne_of_gt counted)
  simp [ExtensionLock.unlock_succ]

/-- A lock that has been given up is sound if no thread but its last owner had levels. -/
theorem Sound.freed (sound : c.Sound) (idle : c.due me = none) (mine : c.lock.owner = some me) :
    Sound { c with lock := {}, levels := update c.levels me 0 } := by
  constructor
  · simp
  · simp
  · intro t more
    by_cases last : t = me
    · simp [last] at more
    · have := sound.alone t (by simpa [update_of_ne last] using more)
      simp_all
  · simp [levelLimit]
  · intro t levels due
    have := (sound.due t levels due).1
    simp_all

theorem Sound.unlock {lock : ExtensionLock} (sound : c.Sound) (idle : c.due me = none)
    (unlocked : c.lock.unlock me = .ok lock) :
    Sound { c with lock, levels := update c.levels me (c.levels me - 1) } := by
  by_cases mine : c.lock.owner = some me
  · rw [sound.unlock_own mine] at unlocked
    cases unlocked
    rw [← sound.counted me mine]
    split
    · next one => simpa [one] using sound.freed idle mine
    · next more =>
      have counted := sound.owned.2 (by simp [mine])
      have fits := sound.fits
      constructor
      · simp only [mine, Option.isSome_some, iff_true]
        omega
      · simp [mine]
      · intro t more
        by_cases last : t = me
        · simp [mine, last]
        · exact sound.alone t (by simpa [update_of_ne last] using more)
      · simp only
        omega
      · exact sound.due
  · have none := sound.levels_other mine
    cases (ExtensionLock.unlock_other mine).symm.trans unlocked
    rw [update_eq_self_iff.2 (by omega)]
    exact sound

theorem Sound.releaseAll (sound : c.Sound) (idle : c.due me = none) :
    Sound { c with lock := (c.lock.releaseAll me).2, levels := update c.levels me 0 } := by
  by_cases mine : c.lock.owner = some me
  · simpa [ExtensionLock.releaseAll, ExtensionLock.isHeldBy, mine] using sound.freed idle mine
  · rw [ExtensionLock.releaseAll_other mine, update_eq_self_iff.2 (sound.levels_other mine).symm]
    exact sound

/-! Retakes. -/

theorem Sound.store (sound : c.Sound) {levels : Fin levelLimit} (due : c.due me = some levels) :
    Sound {
      lock := { c.lock with count := levels }
      due := update c.due me none
      levels := update c.levels me levels } := by
  obtain ⟨mine, positive⟩ := sound.due me levels due
  constructor
  · simpa [mine] using positive
  · simp [mine]
  · intro t more
    by_cases last : t = me
    · simp [mine, last]
    · exact sound.alone t (by simpa [update_of_ne last] using more)
  · exact levels.isLt
  · intro t levels' due'
    by_cases last : t = me
    · simp [last] at due'
    · exact sound.due t levels' (by simpa [update_of_ne last] using due')

theorem Sound.promise (sound : c.Sound) (mine : c.lock.owner = some me) {levels : Fin levelLimit}
    (positive : 0 < levels.val) : Sound { c with due := update c.due me (some levels) } := by
  constructor
  · exact sound.owned
  · exact sound.counted
  · exact sound.alone
  · exact sound.fits
  · intro t levels' due'
    by_cases last : t = me
    · obtain rfl : levels = levels' := by simpa [last] using due'
      exact ⟨last ▸ mine, positive⟩
    · exact sound.due t levels' (by simpa [update_of_ne last] using due')

/-! Steps. -/

theorem Sound.attempt (sound : c.Sound) : ((c.take me).getD c).Sound := by
  cases taken : c.take me with
  | none => exact sound
  | some c' => exact (sound.take taken).1

theorem Sound.retake (sound : c.Sound) {levels : Fin levelLimit} (positive : 0 < levels.val) :
    (((c.take me).map fun c => { c with due := update c.due me (some levels) }).getD c).Sound := by
  cases taken : c.take me with
  | none => exact sound
  | some c' =>
    obtain ⟨sound', mine⟩ := sound.take taken
    exact sound'.promise mine positive

/-- Every step leaves the lock sound. -/
theorem Sound.advance (sound : c.Sound) (me : ThreadId) (step : LockStep) :
    (c.advance me step).Sound := by
  unfold Contention.advance
  cases idle : c.due me with
  | some levels => exact sound.store idle
  | none =>
    cases step with
    | attempt => exact sound.attempt
    | unlock =>
      dsimp only
      split
      next lock unlocked => exact sound.unlock idle unlocked
      next => exact sound
    | releaseAll => exact sound.releaseAll idle
    | retake levels =>
      dsimp only
      split
      next => exact sound
      next more => exact sound.retake (Nat.pos_of_ne_zero more)

/-- The owner changes only on the way into the lock and on the way out of it. -/
theorem advance_owner (c : Contention) (me : ThreadId) (step : LockStep) :
    (c.advance me step).lock.owner = c.lock.owner ∨ c.lock.owner = none ∨
      (c.advance me step).lock.owner = none := by
  have own (only : ∀ t, c.lock.owner = some t → t = me) :
      some me = c.lock.owner ∨ c.lock.owner = none := by
    cases held : c.lock.owner with
    | none => simp
    | some owner => simp [only owner held]
  unfold advance
  split
  · simp
  · split
    · cases taken : c.take me with
      | none => simp
      | some c' =>
        obtain ⟨only, -, rfl⟩ := take_eq_some taken
        simpa using own only
    · split
      next lock unlocked => exact (ExtensionLock.owner_of_unlock unlocked).imp_right .inr
      next => simp
    · simp only [ExtensionLock.releaseAll]
      split <;> simp
    · split
      · simp
      · cases taken : c.take me with
        | none => simp
        | some c' =>
          obtain ⟨only, -, rfl⟩ := take_eq_some taken
          simpa using own only

/-- A thread that stops in an attempt has left all as it was. -/
theorem advance_stopped {step : LockStep} {overflow : Overflow} (idle : c.due me = none)
    (attempts : step = .attempt ∨ ∃ levels, step = .retake levels)
    (stopped : c.lock.tryAcquire me = .error overflow) : c.advance me step = c := by
  have missed : c.take me = none := by simp [take, stopped]
  rcases attempts with rfl | ⟨levels, rfl⟩ <;> simp [advance, idle, missed]

theorem Moment.safe {m : Moment} (before : m.before.Sound) : m.Safe := by
  have after : m.after.Sound := before.advance m.thread m.step
  constructor
  case owned => exact after.owned
  case counted => exact after.counted
  case alone => exact after.alone
  case foreign =>
    intro other leaves
    have idle : m.before.due m.thread = none := by
      by_contra promised
      obtain ⟨levels, due⟩ := Option.ne_none_iff_exists'.1 promised
      exact other (before.due _ _ due).1
    obtain step | step := leaves
    · simp [Moment.after, advance, idle, step, ExtensionLock.unlock_other other]
    · simp [Moment.after, advance, idle, step, ExtensionLock.releaseAll_other other]
  case handover =>
    intro a b held held'
    obtain same | free | free := advance_owner m.before m.thread m.step
    · simpa [held, Moment.after] using same.symm.trans held'
    · simp [held] at free
    · simp [Moment.after, free] at held'
  case decrement =>
    intro t overflow stopped
    obtain ⟨mine, none, -⟩ := ExtensionLock.unlock_eq_error_iff.1 stopped
    exact Nat.ne_of_gt (before.owned.2 (by simp [mine])) none
  case stops =>
    intro idle attempts overflow stopped
    obtain ⟨mine, full, -⟩ := ExtensionLock.tryAcquire_eq_error_iff.1 stopped
    refine ⟨advance_stopped idle attempts stopped, ?_⟩
    have counted := before.counted _ mine
    have fits := before.fits
    omega
  case restored =>
    intro levels due
    obtain ⟨mine, positive⟩ := before.due _ _ due
    exact ⟨by simp [Moment.after, advance, due, mine], positive,
      by simp [Moment.after, advance, due]⟩

/-! Schedules. -/

theorem Sound.safe (sound : c.Sound) (schedule : Schedule) :
    ∀ m ∈ c.moments schedule, m.Safe := by
  induction schedule generalizing c with
  | nil => simp [moments]
  | cons turn rest ih =>
    simp only [moments, List.forall_mem_cons]
    exact ⟨Moment.safe sound, ih (sound.advance turn.1 turn.2)⟩

end Contention

end RopeBridge
